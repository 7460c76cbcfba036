import MagelessChain.Chain.Design
import MagelessChain.Lib.Grouped

/-!
# Indexes and override families

An application registers index instances and override family classes, of any types in any order.
Both registries keep a list of entries in the order of registration; an entry names a type and an
id among those of that type, and what it stands for is reached through a table keyed by type. A
`StateOverride` has one family for each override entry. Type keys are of any type `K`, an index
object is known by a reference of type `Ix`, and a family is a value of type `Fam`.
-/

namespace MagelessChain

open Lib

/-- Registrations the ids can tell apart: at most 256 of each type, the range of the `uint8_t` id,
and 65536 in all, the range of the `uint16_t` index id. -/
structure WithinIds {K : Type} [DecidableEq K] (keys : List K) : Prop where
  ofType : ∀ k, keys.count k ≤ 256
  total : keys.length ≤ 65536

section

variable {K : Type} [DecidableEq K] {keys : List K}

/-- The id of an entry is its place among the entries of its type, where those are at most 256. -/
theorem toNat_id_of_count_le {k : K} {place : Nat} (few : keys.count k ≤ 256) (mem : (k, place) ∈ places keys) :
    (UInt8.ofNat place).toNat = place := by
  have lt := lt_count_of_mem_places mem
  rw [UInt8.toNat_ofNat', Nat.mod_eq_of_lt (by omega)]

/-- Within the range, the id of an entry is its place. -/
theorem WithinIds.toNat_id (few : WithinIds keys) {k : K} {place : Nat} (mem : (k, place) ∈ places keys) :
    (UInt8.ofNat place).toNat = place :=
  toNat_id_of_count_le (few.ofType k) mem

/-- Within the range, the index id of an entry is its position. -/
theorem WithinIds.toNat_position (few : WithinIds keys) {i : Nat} (inside : i < keys.length) :
    (UInt16.ofNat i).toNat = i := by
  have le := few.total
  rw [UInt16.toNat_ofNat', Nat.mod_eq_of_lt (by omega)]

end

/-! ## Index instances -/

/-- `BackendRegistry::Entry`. -/
structure BackendRegistry.Entry (K : Type) where
  key : K
  id : UInt8
  deriving DecidableEq, Repr

/-- `BackendRegistry`: a null instance is `none`. -/
structure BackendRegistry (K Ix : Type) where
  families : K → Option (List (Option Ix))
  entries : List (BackendRegistry.Entry K)

namespace BackendRegistry

variable {K Ix : Type} [DecidableEq K]

def new : BackendRegistry K Ix := ⟨fun _ => none, []⟩

/-- `registerIndex<T>`, with the key of `T`. -/
def registerIndex (r : BackendRegistry K Ix) (key : K) (object : Option Ix) : BackendRegistry K Ix :=
  match r.families key with
  | none => ⟨Function.update r.families key (some [object]), r.entries ++ [⟨key, 0⟩]⟩
  | some instances =>
    ⟨Function.update r.families key (some (instances ++ [object])), r.entries ++ [⟨key, UInt8.ofNat instances.length⟩]⟩

/-- `IndexFamily::getInstance`. -/
def getInstance (instances : List (Option Ix)) (id : UInt8) : Option Ix :=
  match instances[id.toNat]? with
  | none => none
  | some object => object

/-- `getIndexAt`, null where there is no such entry. -/
def getIndexAt (r : BackendRegistry K Ix) (persistentTypeId : UInt16) : Option Ix :=
  match r.entries[persistentTypeId.toNat]? with
  | none => none
  | some e =>
    match r.families e.key with
    | none => none
    | some instances => getInstance instances e.id

/-- The registry after calls of `registerIndex`, in order. -/
def ofCalls (calls : List (K × Option Ix)) : BackendRegistry K Ix :=
  calls.foldl (fun r call => r.registerIndex call.1 call.2) new

/-- The registry stands for a sequence of calls. -/
structure Registers (r : BackendRegistry K Ix) (calls : List (K × Option Ix)) : Prop where
  families : Grouped r.families calls
  entries : r.entries = (places (calls.map (·.1))).map fun address => ⟨address.1, UInt8.ofNat address.2⟩

theorem Registers.new : (BackendRegistry.new : BackendRegistry K Ix).Registers [] := ⟨Grouped.empty, rfl⟩

theorem registerIndex_eq (r : BackendRegistry K Ix) (key : K) (object : Option Ix) : r.registerIndex key object =
    ⟨Function.update r.families key (some ((r.families key).getD [] ++ [object])),
      r.entries ++ [⟨key, UInt8.ofNat ((r.families key).getD []).length⟩]⟩ := by
  unfold registerIndex
  split <;> simp_all

theorem Registers.registerIndex {r : BackendRegistry K Ix} {calls : List (K × Option Ix)} (h : r.Registers calls) (key : K)
    (object : Option Ix) : (r.registerIndex key object).Registers (calls ++ [(key, object)]) := by
  rw [registerIndex_eq]
  refine ⟨h.families.enter key object, ?_⟩
  rw [List.map_append, List.map_singleton, places_snoc, List.map_append, List.map_singleton, h.entries, h.families.getD,
    length_under]

theorem registers_ofCalls (calls : List (K × Option Ix)) : (ofCalls calls).Registers calls := by
  induction calls using List.reverseRecOn with
  | nil => exact Registers.new
  | append_singleton calls call ih =>
    rw [ofCalls, List.foldl_append]
    exact ih.registerIndex call.1 call.2

theorem Registers.length {r : BackendRegistry K Ix} {calls : List (K × Option Ix)} (h : r.Registers calls) :
    r.entries.length = calls.length := by
  rw [h.entries, List.length_map, length_places, List.length_map]

/-- **`getIndexAt` returns the instance registered in that position**, with at most 256 of its type. -/
theorem Registers.getIndexAt_id {r : BackendRegistry K Ix} {calls : List (K × Option Ix)} (h : r.Registers calls)
    {id : UInt16} (inside : id.toNat < calls.length) (few : (calls.map (·.1)).count calls[id.toNat].1 ≤ 256) :
    r.getIndexAt id = calls[id.toNat].2 := by
  have value : calls[id.toNat]? = some (calls[id.toNat].1, calls[id.toNat].2) := List.getElem?_eq_getElem inside
  have key : (calls.map (·.1))[id.toNat]? = some calls[id.toNat].1 := by rw [List.getElem?_map, value]; rfl
  obtain ⟨place, address⟩ := exists_place key
  obtain ⟨instances, family, found⟩ := h.families.find value address
  have byte := toNat_id_of_count_le few (List.mem_of_getElem? address)
  have entry : r.entries[id.toNat]? = some ⟨calls[id.toNat].1, UInt8.ofNat place⟩ := by
    rw [h.entries, List.getElem?_map, address]
    rfl
  simp only [BackendRegistry.getIndexAt, entry, family, getInstance, byte, found]

/-- Within the range every position has an index id. -/
theorem Registers.getIndexAt {r : BackendRegistry K Ix} {calls : List (K × Option Ix)} (h : r.Registers calls)
    (few : WithinIds (calls.map (·.1))) {i : Nat} (inside : i < calls.length) :
    r.getIndexAt (UInt16.ofNat i) = calls[i].2 := by
  have position := few.toNat_position (i := i) (by rwa [List.length_map])
  have found : r.getIndexAt (UInt16.ofNat i) = _ := h.getIndexAt_id (by omega) (few.ofType _)
  simpa only [position] using found

/-- Past the last entry there is no index. -/
theorem Registers.getIndexAt_none {r : BackendRegistry K Ix} {calls : List (K × Option Ix)} (h : r.Registers calls)
    {id : UInt16} (past : calls.length ≤ id.toNat) : r.getIndexAt id = none := by
  rw [BackendRegistry.getIndexAt, List.getElem?_eq_none (by rwa [h.length])]

end BackendRegistry

/-! ## Override families -/

/-- `StateOverrideRegistry::Entry`. -/
structure StateOverrideRegistry.Entry (K Fam : Type) where
  key : K
  id : UInt8
  factory : Unit → Fam

/-- `StateOverrideRegistry`. The ids it hands out count the entries of a type. -/
structure StateOverrideRegistry (K Fam : Type) [DecidableEq K] where
  entries : List (StateOverrideRegistry.Entry K Fam)
  counts : K → Option Nat
  counted : ∀ k, (counts k).getD 0 = (entries.map (·.key)).count k
  numbered : entries.map (fun e => (e.key, e.id)) =
    (places (entries.map (·.key))).map fun address => (address.1, UInt8.ofNat address.2)

namespace StateOverrideRegistry

variable {K Fam : Type} [DecidableEq K]

def new : StateOverrideRegistry K Fam := ⟨[], fun _ => none, fun _ => rfl, rfl⟩

/-- The id `registerOverride` gives. -/
def nextId (r : StateOverrideRegistry K Fam) (key : K) : UInt8 :=
  match r.counts key with
  | some n => UInt8.ofNat n
  | none => 0

theorem nextId_eq (r : StateOverrideRegistry K Fam) (key : K) :
    r.nextId key = UInt8.ofNat ((r.entries.map (·.key)).count key) := by
  rw [nextId, ← r.counted key]
  cases r.counts key <;> rfl

/-- `registerOverride<T>`, with the key of `T` and its default constructor. -/
def registerOverride (r : StateOverrideRegistry K Fam) (key : K) (create : Unit → Fam) : StateOverrideRegistry K Fam where
  entries := r.entries ++ [⟨key, r.nextId key, create⟩]
  counts := match r.counts key with
    | some n => Function.update r.counts key (some (n + 1))
    | none => Function.update r.counts key (some 1)
  counted := by
    intro k
    have before := r.counted k
    rw [List.map_append, List.count_append, ← before]
    by_cases same : k = key
    · subst same
      cases found : r.counts k <;> simp
    · cases r.counts key <;> simp [Function.update_of_ne same, Ne.symm same]
  numbered := by
    rw [List.map_append, List.map_append, List.map_singleton, List.map_singleton, places_snoc, List.map_append,
      r.numbered, nextId_eq]
    rfl

/-- The registry after calls of `registerOverride`, each with the constructor of its type. -/
def ofCalls (create : K → Fam) (keys : List K) : StateOverrideRegistry K Fam :=
  keys.foldl (fun r key => r.registerOverride key fun _ => create key) new

/-- The entries are those of the calls, in order. -/
theorem entries_ofCalls (create : K → Fam) (keys : List K) :
    (ofCalls create keys).entries.map (fun e => (e.key, e.factory ())) = keys.map fun key => (key, create key) := by
  induction keys using List.reverseRecOn with
  | nil => rfl
  | append_singleton keys key ih =>
    rw [ofCalls, List.foldl_append, List.map_append, ← ih]
    exact List.map_append

theorem keys_ofCalls (create : K → Fam) (keys : List K) : (ofCalls create keys).entries.map (·.key) = keys := by
  have entries := congrArg (List.map Prod.fst) (entries_ofCalls create keys)
  simpa only [List.map_map, Function.comp_def, List.map_id'] using entries

end StateOverrideRegistry

/-! ## State overrides -/

/-- `StateOverride::Slot`. -/
structure StateOverride.Slot (K : Type) where
  key : K
  id : UInt8
  deriving DecidableEq, Repr

/-- `StateOverride`. Every slot of it has a family. -/
structure StateOverride (K Fam : Type) where
  families : K → Option (List Fam)
  order : List (StateOverride.Slot K)
  held : ∀ slot ∈ order, slot.id.toNat < ((families slot.key).getD []).length

namespace StateOverride

variable {K Fam : Type} [DecidableEq K]

/-- One round of the constructor: the family of an entry goes to the end of the list of its key. -/
def materialize (families : K → Option (List Fam)) (e : StateOverrideRegistry.Entry K Fam) : K → Option (List Fam) :=
  Function.update families e.key (some ((families e.key).getD [] ++ [e.factory ()]))

theorem grouped_materialize (entries : List (StateOverrideRegistry.Entry K Fam)) :
    Grouped (entries.foldl materialize fun _ => none) (entries.map fun e => (e.key, e.factory ())) := by
  induction entries using List.reverseRecOn with
  | nil => exact Grouped.empty
  | append_singleton entries e ih =>
    rw [List.foldl_append, List.map_append]
    exact ih.enter e.key (e.factory ())

/-- The slots of a registry's entries. -/
def slots (registry : StateOverrideRegistry K Fam) : List (Slot K) := registry.entries.map fun e => ⟨e.key, e.id⟩

theorem slots_eq (registry : StateOverrideRegistry K Fam) : slots registry =
    (places (registry.entries.map (·.key))).map fun address => ⟨address.1, UInt8.ofNat address.2⟩ := by
  have numbered := congrArg (List.map fun slot => (⟨slot.1, slot.2⟩ : Slot K)) registry.numbered
  rw [List.map_map, List.map_map] at numbered
  exact numbered

/-- The constructor: an empty family for each entry. -/
def construct (registry : StateOverrideRegistry K Fam) : StateOverride K Fam where
  families := registry.entries.foldl materialize fun _ => none
  order := slots registry
  held := by
    intro slot mem
    rw [slots_eq] at mem
    obtain ⟨address, given, rfl⟩ := List.mem_map.1 mem
    have lt := lt_count_of_mem_places given
    rw [(grouped_materialize registry.entries).getD, length_under, List.map_map]
    calc (UInt8.ofNat address.2).toNat ≤ address.2 := by rw [UInt8.toNat_ofNat']; exact Nat.mod_le _ _
      _ < _ := lt

/-- `familySize`. -/
def familySize (s : StateOverride K Fam) : Nat := s.order.length

/-- `familyAt`, `none` past the last slot. -/
def familyAt (s : StateOverride K Fam) (n : Nat) : Option Fam :=
  match s.order[n]? with
  | none => none
  | some slot => ((s.families slot.key).getD [])[slot.id.toNat]?

/-- A change of the family in a slot through the reference `familyAt` returns. -/
def mutFamilyAt (s : StateOverride K Fam) (n : Nat) (change : Fam → Fam) : StateOverride K Fam :=
  match s.order[n]? with
  | none => s
  | some slot =>
    { s with
      families := Function.update s.families slot.key
        (some (((s.families slot.key).getD []).modify slot.id.toNat change))
      held := by
        intro other mem
        have inside := s.held other mem
        by_cases same : other.key = slot.key
        · rw [same] at inside ⊢
          simpa using inside
        · rwa [Function.update_of_ne same] }

@[simp] theorem order_mutFamilyAt (s : StateOverride K Fam) (n : Nat) (change : Fam → Fam) :
    (s.mutFamilyAt n change).order = s.order := by
  unfold mutFamilyAt
  split <;> rfl

/-- A change through one slot is seen through the slots with its type and id, and no others. -/
theorem familyAt_mutFamilyAt (s : StateOverride K Fam) (n m : Nat) (change : Fam → Fam) :
    (s.mutFamilyAt n change).familyAt m =
      if s.order[m]? = s.order[n]? then (s.familyAt m).map change else s.familyAt m := by
  unfold mutFamilyAt familyAt
  cases there : s.order[n]? with
  | none =>
    cases s.order[m]? <;> simp
  | some slot =>
    cases s.order[m]? with
    | none => simp
    | some other =>
      by_cases same : other = slot
      · simp [same]
      · have differ : ¬ (some other = some slot) := fun eq => same (Option.some.inj eq)
        rw [if_neg differ]
        by_cases key : other.key = slot.key
        · have id : slot.id.toNat ≠ other.id.toNat := by
            intro eq
            apply same
            cases other
            cases slot
            simp_all [UInt8.toNat_inj]
          simp only [key, Function.update_self, Option.getD_some]
          rw [List.getElem?_modify_ne _ _ id]
        · simp only [Function.update_of_ne key]

omit [DecidableEq K] in
/-- Every slot has a family. -/
theorem familyAt_isSome (s : StateOverride K Fam) {n : Nat} (inside : n < s.familySize) : (s.familyAt n).isSome := by
  have slot := List.getElem?_eq_getElem (l := s.order) inside
  have held := s.held s.order[n] (List.getElem_mem inside)
  rw [familyAt, slot]
  simpa using held

/-- Within the range of the ids, no two slots are the same. -/
theorem nodup_slots {registry : StateOverrideRegistry K Fam} (few : WithinIds (registry.entries.map (·.key))) :
    (slots registry).Nodup := by
  rw [slots_eq]
  refine List.Nodup.map_on (fun address mem address' mem' eq => ?_) (nodup_places _)
  obtain ⟨key, id⟩ := Slot.mk.inj eq
  have places := congrArg UInt8.toNat id
  rw [few.toNat_id mem, few.toNat_id mem'] at places
  exact Prod.ext key places

/-- **A fresh override** has, in each slot, the family its entry's factory makes. -/
theorem familyAt_construct {registry : StateOverrideRegistry K Fam} (few : WithinIds (registry.entries.map (·.key)))
    {i : Nat} {e : StateOverrideRegistry.Entry K Fam} (entry : registry.entries[i]? = some e) :
    (construct registry).familyAt i = some (e.factory ()) := by
  have value : (registry.entries.map fun e => (e.key, e.factory ()))[i]? = some (e.key, e.factory ()) := by
    rw [List.getElem?_map, entry]
    rfl
  have key : (registry.entries.map (·.key))[i]? = some e.key := by
    rw [List.getElem?_map, entry]
    rfl
  obtain ⟨place, address⟩ := exists_place key
  obtain ⟨family, listed, found⟩ := (grouped_materialize registry.entries).find value (by rwa [List.map_map])
  have id := few.toNat_id (List.mem_of_getElem? address)
  have slot : (construct registry).order[i]? = some ⟨e.key, UInt8.ofNat place⟩ := by
    change (slots registry)[i]? = _
    rw [slots_eq, List.getElem?_map, address]
    rfl
  rw [familyAt, slot]
  change ((registry.entries.foldl materialize (fun _ => none) e.key).getD [])[(UInt8.ofNat place).toNat]? = _
  rw [listed, id]
  exact found

end StateOverride

end MagelessChain
