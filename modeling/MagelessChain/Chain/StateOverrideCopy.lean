import MagelessChain.Chain.Registry
import MagelessChain.Lib.CopyOnWrite

/-!
# Copies of state overrides

A `StateOverride` keeps its families behind handles. It is built with handles that are the only
ones at their objects, and its families are changed through `override`, `familyAt` and
`forEachFamily`. The copy constructor and the assignment rebuild the lists of each type from the
order of the slots, and take the handle of a slot only where its id is past the list so far. With
ids that count the entries of a type, in eight bits, this takes the first 256 of each type in their
places, and those are all the families that can be reached.
-/

namespace MagelessChain

open Lib

/-- A `StateOverride` with a slot for each registration of a sequence, and as many families of a
type as its ids reach. -/
structure RegisteredOverride (K H : Type) [DecidableEq K] extends StateOverride K H where
  numbered : order = (places (order.map (·.key))).map fun address => ⟨address.1, UInt8.ofNat address.2⟩
  filled : ∀ k, min ((order.map (·.key)).count k) 256 ≤ ((families k).getD []).length
  bounded : ∀ k, ((families k).getD []).length ≤ (order.map (·.key)).count k

/-- A change of one family, through the reference `override<T>(id)` or `familyAt(n)` returns. -/
inductive FamilyWrite (K V : Type) where
  | override (key : K) (id : UInt8) (change : V → V)
  | familyAt (n : Nat) (change : V → V)

/-- The type and the id of the family a write is to, in an override with these slots. -/
def FamilyWrite.target {K V : Type} (order : List (StateOverride.Slot K)) : FamilyWrite K V → Option (K × UInt8)
  | .override key id _ => some (key, id)
  | .familyAt n _ => order[n]?.map fun slot => (slot.key, slot.id)

def FamilyWrite.change {K V : Type} : FamilyWrite K V → V → V
  | .override _ _ change => change
  | .familyAt _ change => change

/-- The place of an id in the list of its type is among those reached. -/
theorem id_lt_filled {place count : Nat} (lt : place < count) : (UInt8.ofNat place).toNat < min count 256 := by
  rw [UInt8.toNat_ofNat']
  have range : place % 2 ^ 8 < 256 := Nat.mod_lt _ (by omega)
  have le : place % 2 ^ 8 ≤ place := Nat.mod_le _ _
  omega

namespace RegisteredOverride

variable {K H : Type} [DecidableEq K]

/-- An override with the slots of a sequence of keys. -/
def ofSlots (families : K → Option (List H)) (order : List (StateOverride.Slot K))
    (numbered : order = (places (order.map (·.key))).map fun address => ⟨address.1, UInt8.ofNat address.2⟩)
    (filled : ∀ k, min ((order.map (·.key)).count k) 256 ≤ ((families k).getD []).length)
    (bounded : ∀ k, ((families k).getD []).length ≤ (order.map (·.key)).count k) : RegisteredOverride K H where
  families := families
  order := order
  held := by
    intro slot mem
    rw [numbered] at mem
    obtain ⟨address, given, rfl⟩ := List.mem_map.1 mem
    exact Nat.lt_of_lt_of_le (id_lt_filled (lt_count_of_mem_places given)) (filled address.1)
  numbered := numbered
  filled := filled
  bounded := bounded

/-- The handles, by type and place. -/
def handles (s : RegisteredOverride K H) : K × Nat → Option H := entryAt s.families

/-- `families.getPtr(key)->get(id)`, `none` where there is no such family. -/
def family (s : RegisteredOverride K H) (key : K) (id : UInt8) : Option H := s.handles (key, id.toNat)

theorem familyAt_eq (s : RegisteredOverride K H) (n : Nat) :
    s.familyAt n = s.order[n]?.bind fun slot => s.family slot.key slot.id := by
  unfold StateOverride.familyAt
  cases s.order[n]? <;> rfl

/-! ## The constructor -/

variable {M V : Type} [CowPointer H M V]

/-- One round of the constructor: `family->add(e.factory())`. -/
def materialize (state : M × (K → Option (List H))) (e : StateOverrideRegistry.Entry K V) : M × (K → Option (List H)) :=
  let made : M × H := CowPointer.create state.1 (e.factory ())
  (made.1, Function.update state.2 e.key (some ((state.2 e.key).getD [] ++ [made.2])))

/-- The families of the constructor, and the memory they are in. -/
def buildFamilies (m : M) (entries : List (StateOverrideRegistry.Entry K V)) : M × (K → Option (List H)) :=
  entries.foldl materialize (m, fun _ => none)

theorem buildFamilies_snoc (m : M) (entries : List (StateOverrideRegistry.Entry K V)) (e : StateOverrideRegistry.Entry K V) :
    (buildFamilies m (entries ++ [e]) : M × (K → Option (List H))) = materialize (buildFamilies m entries) e := by
  rw [buildFamilies, List.foldl_append]
  rfl

theorem length_buildFamilies (m : M) (entries : List (StateOverrideRegistry.Entry K V)) (k : K) :
    (((buildFamilies m entries : M × (K → Option (List H))).2 k).getD []).length = (entries.map (·.key)).count k := by
  induction entries using List.reverseRecOn with
  | nil => rfl
  | append_singleton entries e ih =>
    rw [buildFamilies_snoc, List.map_append, List.count_append, ← ih]
    by_cases same : k = e.key
    · subst same
      simp [materialize]
    · simp [materialize, Function.update_of_ne same, Ne.symm same]

/-- `StateOverride(const StateOverrideRegistry&)`, in a memory. -/
def build (m : M) (registry : StateOverrideRegistry K V) : M × RegisteredOverride K H :=
  have keys : (StateOverride.slots registry).map (·.key) = registry.entries.map (·.key) := by
    rw [StateOverride.slots, List.map_map]
    rfl
  ((buildFamilies (H := H) m registry.entries).1,
    ofSlots (buildFamilies m registry.entries).2 (StateOverride.slots registry)
      (by rw [keys]; exact StateOverride.slots_eq registry)
      (by intro k; rw [keys, length_buildFamilies (H := H)]; exact Nat.min_le_left _ _)
      (by intro k; rw [keys, length_buildFamilies (H := H)]))

/-! ## Writes -/

/-- `families.getPtr(key)->get(id).mut()`, and a change through the reference it returns. -/
def mutFamily (m : M) (s : RegisteredOverride K H) (key : K) (id : UInt8) (change : V → V) : M × RegisteredOverride K H :=
  match s.family key id with
  | none => (m, s)
  | some h =>
    let changed := CowPointer.change m h change
    have lengths : ∀ k, ((Function.update s.families key
        (some (((s.families key).getD []).set id.toNat changed.2)) k).getD []).length = ((s.families k).getD []).length := by
      intro k
      by_cases same : k = key
      · subst same
        simp
      · rw [Function.update_of_ne same]
    (changed.1, ofSlots (Function.update s.families key (some (((s.families key).getD []).set id.toNat changed.2))) s.order
      s.numbered (by intro k; rw [lengths]; exact s.filled k) (by intro k; rw [lengths]; exact s.bounded k))

/-- One write. Nothing is written past the last slot, or to a type and id without a family. -/
def write (m : M) (s : RegisteredOverride K H) (w : FamilyWrite K V) : M × RegisteredOverride K H :=
  match w with
  | .override key id change => mutFamily m s key id change
  | .familyAt n change =>
    match s.order[n]? with
    | none => (m, s)
    | some slot => mutFamily m s slot.key slot.id change

/-- Writes, in order. `forEachFamily` makes one for each slot. -/
def writes (m : M) (s : RegisteredOverride K H) (ws : List (FamilyWrite K V)) : M × RegisteredOverride K H :=
  ws.foldl (fun state w => write state.1 state.2 w) (m, s)

theorem mutFamily_cases (m : M) (s : RegisteredOverride K H) (key : K) (id : UInt8) (change : V → V) :
    mutFamily m s key id change = (m, s) ∨ ∃ h, s.handles (key, id.toNat) = some h ∧
      (mutFamily m s key id change).1 = (CowPointer.change m h change).1 ∧
      (mutFamily m s key id change).2.handles =
        Function.update s.handles (key, id.toNat) (some (CowPointer.change m h change).2) ∧
      (mutFamily m s key id change).2.order = s.order := by
  unfold mutFamily
  cases found : s.family key id with
  | none => exact .inl rfl
  | some h =>
    right
    refine ⟨h, found, rfl, ?_, rfl⟩
    exact entryAt_set found _

/-- **What one write does**: nothing, or a change through the handle of the family it is to. -/
theorem write_cases (m : M) (s : RegisteredOverride K H) (w : FamilyWrite K V) :
    write m s w = (m, s) ∨ ∃ key id h, w.target s.order = some (key, id) ∧ s.handles (key, id.toNat) = some h ∧
      (write m s w).1 = (CowPointer.change m h w.change).1 ∧
      (write m s w).2.handles = Function.update s.handles (key, id.toNat) (some (CowPointer.change m h w.change).2) ∧
      (write m s w).2.order = s.order := by
  cases w with
  | override key id change =>
    obtain nothing | ⟨h, changed⟩ := mutFamily_cases m s key id change
    · exact .inl nothing
    · exact .inr ⟨key, id, h, rfl, changed⟩
  | familyAt n change =>
    simp only [write, FamilyWrite.target]
    cases s.order[n]? with
    | none => exact .inl rfl
    | some slot =>
      obtain nothing | ⟨h, changed⟩ := mutFamily_cases m s slot.key slot.id change
      · exact .inl nothing
      · exact .inr ⟨slot.key, slot.id, h, rfl, changed⟩

theorem writes_snoc (m : M) (s : RegisteredOverride K H) (ws : List (FamilyWrite K V)) (w : FamilyWrite K V) :
    writes m s (ws ++ [w]) = write (writes m s ws).1 (writes m s ws).2 w := by
  rw [writes, List.foldl_append]
  rfl

/-! ## Copies -/

/-- One round of the copying loops: the handle of a slot is added where its id is past the list so far. -/
def copySlot (other : RegisteredOverride K H) (families : K → Option (List H)) (slot : StateOverride.Slot K) :
    K → Option (List H) :=
  let family := (families slot.key).getD []
  if family.length ≤ slot.id.toNat then
    Function.update families slot.key (some (family ++ ((other.family slot.key slot.id).map CowPointer.copy).toList))
  else Function.update families slot.key (some family)

/-- The lists the copy constructor makes. -/
def copyFamilies (other : RegisteredOverride K H) : K → Option (List H) :=
  other.order.foldl (copySlot other) fun _ => none

/-- **The lists after the slots of a sequence of keys**: of each type, the first 256 families in their places. -/
theorem copySlots_getD (other : RegisteredOverride K H) (keys : List K)
    (filled : ∀ k, min (keys.count k) 256 ≤ ((other.families k).getD []).length) (k : K) :
    (((places keys).map fun address => (⟨address.1, UInt8.ofNat address.2⟩ : StateOverride.Slot K)).foldl (copySlot other)
      (fun _ => none) k).getD [] =
      (((other.families k).getD []).take (min (keys.count k) 256)).map CowPointer.copy := by
  induction keys using List.reverseRecOn generalizing k with
  | nil => simp [places, placesAfter]
  | append_singleton keys last ih =>
    have before : ∀ k, min (keys.count k) 256 ≤ ((other.families k).getD []).length := by
      intro k
      have here := filled k
      rw [List.count_append] at here
      omega
    rw [places_snoc, List.map_append, List.foldl_append, List.map_singleton, List.foldl_cons, List.foldl_nil]
    have lists := ih before last
    have room := before last
    rw [copySlot, lists]
    by_cases same : k = last
    · subst same
      have id : (UInt8.ofNat (keys.count k)).toNat = keys.count k % 256 := UInt8.toNat_ofNat'
      rw [List.length_map, List.length_take, Nat.min_eq_left room, id, List.count_append, List.count_singleton_self]
      by_cases few : keys.count k < 256
      · rw [if_pos (by omega), Function.update_self, Option.getD_some, family, handles, entryAt, id,
          Nat.mod_eq_of_lt few, Nat.min_eq_left (by omega), Nat.min_eq_left (by omega), List.take_add_one, List.map_append]
        cases ((other.families k).getD [])[keys.count k]? <;> rfl
      · rw [if_neg (by omega), Function.update_self, Option.getD_some, Nat.min_eq_right (by omega),
          Nat.min_eq_right (by omega)]
    · have count : (keys ++ [last]).count k = keys.count k := by simp [Ne.symm same]
      split
      · rw [Function.update_of_ne same, ih before k, count]
      · rw [Function.update_of_ne same, ih before k, count]

theorem length_copyFamilies (other : RegisteredOverride K H) (k : K) :
    ((copyFamilies other k).getD []).length = min ((other.order.map (·.key)).count k) 256 := by
  rw [copyFamilies, other.numbered, copySlots_getD other _ other.filled, List.length_map, List.length_take,
    ← other.numbered]
  exact Nat.min_eq_left (other.filled k)

/-- `StateOverride(const StateOverride&)`. -/
def copyConstruct (other : RegisteredOverride K H) : RegisteredOverride K H :=
  ofSlots (copyFamilies other) other.order other.numbered
    (by intro k; rw [length_copyFamilies])
    (by intro k; rw [length_copyFamilies]; exact Nat.min_le_left _ _)

/-- One round of the assignment, which enters the slot too. -/
def assignSlot (other : RegisteredOverride K H) (state : (K → Option (List H)) × List (StateOverride.Slot K))
    (slot : StateOverride.Slot K) : (K → Option (List H)) × List (StateOverride.Slot K) :=
  (copySlot other state.1 slot, state.2 ++ [slot])

/-- The lists and the slots the assignment makes. -/
def assignSlots (other : RegisteredOverride K H) : (K → Option (List H)) × List (StateOverride.Slot K) :=
  other.order.foldl (assignSlot other) (fun _ => none, [])

theorem assignSlots_eq (other : RegisteredOverride K H) : assignSlots other = (copyFamilies other, other.order) := by
  have prefixes : ∀ slots : List (StateOverride.Slot K), slots.foldl (assignSlot other) (fun _ => none, []) =
      (slots.foldl (copySlot other) fun _ => none, slots) := by
    intro slots
    induction slots using List.reverseRecOn with
    | nil => rfl
    | append_singleton slots slot ih =>
      rw [List.foldl_append, List.foldl_append, ih]
      rfl
  exact prefixes other.order

/-- `operator=`, which leaves an object assigned to itself as it is. -/
def assign (same : Bool) (this other : RegisteredOverride K H) : RegisteredOverride K H :=
  if same then this
  else ofSlots (assignSlots other).1 (assignSlots other).2
    (by rw [assignSlots_eq]; exact other.numbered)
    (by intro k; rw [assignSlots_eq, length_copyFamilies])
    (by intro k; rw [assignSlots_eq, length_copyFamilies]; exact Nat.min_le_left _ _)

/-- The assignment makes what the copy constructor makes. -/
theorem assign_eq (this other : RegisteredOverride K H) : assign false this other = copyConstruct other := by
  have made := assignSlots_eq other
  simp only [assign, copyConstruct]
  rw [if_neg Bool.false_ne_true]
  congr 1
  · rw [made]
  · rw [made]

/-- The handles of a copy are copies of the first 256 of each type. -/
theorem handles_copyConstruct (other : RegisteredOverride K H) (k : K) (i : Nat) :
    (copyConstruct other).handles (k, i) =
      if i < min ((other.order.map (·.key)).count k) 256 then (other.handles (k, i)).map CowPointer.copy else none := by
  have lists := copySlots_getD other (other.order.map (·.key)) other.filled k
  rw [← other.numbered] at lists
  change ((copyFamilies other k).getD [])[i]? = _
  rw [copyFamilies, lists, List.getElem?_map, List.getElem?_take]
  split <;> rfl

/-! ## What is read -/

/-- The family `familyAt(n)` reads. -/
def readFamilyAt (m : M) (s : RegisteredOverride K H) (n : Nat) : Option V := (s.familyAt n).bind (CowPointer.read m)

/-- The family `override<T>(id)` reads, with the key of `T`. -/
def readOverride (m : M) (s : RegisteredOverride K H) (key : K) (id : UInt8) : Option V :=
  (s.family key id).bind (CowPointer.read m)

theorem readFamilyAt_eq (m : M) (s : RegisteredOverride K H) (n : Nat) :
    readFamilyAt m s n = s.order[n]?.bind fun slot => readOverride m s slot.key slot.id := by
  rw [readFamilyAt, familyAt_eq]
  cases s.order[n]? <;> rfl

/-- A fresh override has handles that are the only ones at their objects, and reads as the families
of the registry do. -/
theorem buildFamilies_reads (m : M) (entries : List (StateOverrideRegistry.Entry K V)) :
    CowPointer.Owned (buildFamilies (H := H) m entries).1 (entryAt (buildFamilies (H := H) m entries).2) ∧
    ∀ address, (entryAt (buildFamilies (H := H) m entries).2 address).bind (CowPointer.read (buildFamilies (H := H) m entries).1) =
      entryAt (entries.foldl StateOverride.materialize fun _ => none) address := by
  induction entries using List.reverseRecOn with
  | nil => exact ⟨CowPointer.Owned.empty m, fun _ => rfl⟩
  | append_singleton entries e ih =>
    obtain ⟨owned, reads⟩ := ih
    have length : (((buildFamilies (H := H) m entries).2 e.key).getD []).length =
        ((entries.foldl StateOverride.materialize (fun _ => none) e.key).getD []).length := by
      rw [length_buildFamilies, (StateOverride.grouped_materialize entries).getD, length_under, List.map_map]
      rfl
    rw [buildFamilies_snoc, List.foldl_append]
    simp only [materialize, List.foldl_cons, List.foldl_nil, StateOverride.materialize]
    rw [entryAt_enter, entryAt_enter, length]
    constructor
    · exact owned.create _ _
    · intro address
      by_cases here : address = (e.key, ((entries.foldl StateOverride.materialize (fun _ => none) e.key).getD []).length)
      · rw [here, Function.update_self, Function.update_self]
        change CowPointer.read _ _ = _
        rw [CowPointer.read, CowPointer.create_load, if_pos rfl]
      · rw [Function.update_of_ne here, Function.update_of_ne here, ← reads address]
        cases found : entryAt (buildFamilies (H := H) m entries).2 address with
        | none => rfl
        | some h => exact CowPointer.read_create_other (owned.live address h found)

/-- **A built override reads as the registry's override of values does.** -/
theorem readFamilyAt_build (m : M) (registry : StateOverrideRegistry K V) (n : Nat) :
    readFamilyAt (build (H := H) m registry).1 (build (H := H) m registry).2 n =
      (StateOverride.construct registry).familyAt n := by
  have reads := (buildFamilies_reads (H := H) m registry.entries).2
  rw [readFamilyAt_eq, StateOverride.familyAt]
  change (StateOverride.slots registry)[n]?.bind _ = match (StateOverride.slots registry)[n]? with | none => _ | some slot => _
  cases (StateOverride.slots registry)[n]? with
  | none => rfl
  | some slot => exact reads (slot.key, slot.id.toNat)

/-- An override with handles that are the only ones at their objects. -/
def Sole (m : M) (s : RegisteredOverride K H) : Prop := CowPointer.Owned m s.handles

theorem Sole.build (m : M) (registry : StateOverrideRegistry K V) :
    Sole (build (H := H) m registry).1 (RegisteredOverride.build (H := H) m registry).2 :=
  (buildFamilies_reads (H := H) m registry.entries).1

theorem Sole.write {m : M} {s : RegisteredOverride K H} (sole : Sole m s) (w : FamilyWrite K V) :
    Sole (write m s w).1 (RegisteredOverride.write m s w).2 := by
  obtain nothing | ⟨key, id, h, -, found, memory, handles, -⟩ := write_cases m s w
  · rw [nothing]
    exact sole
  · rw [Sole, memory, handles]
    exact CowPointer.Owned.change sole found w.change

theorem Sole.writes {m : M} {s : RegisteredOverride K H} (sole : Sole m s) (ws : List (FamilyWrite K V)) :
    Sole (writes m s ws).1 (RegisteredOverride.writes m s ws).2 := by
  induction ws using List.reverseRecOn with
  | nil => exact sole
  | append_singleton ws w ih =>
    rw [writes_snoc]
    exact ih.write w

/-! ## Forks -/

/-- A copy that has what the source has. -/
structure SameReads (m : M) (s c : RegisteredOverride K H) : Prop where
  familySize : c.familySize = s.familySize
  order : c.order = s.order
  familyAt : ∀ n, readFamilyAt m c n = readFamilyAt m s n
  override : ∀ key id, readOverride m c key id = readOverride m s key id

/-- A copy whose writes change neither the source nor the families they are not to. -/
structure Apart (m : M) (s c : RegisteredOverride K H) (later : List (FamilyWrite K V)) : Prop where
  familyAt : ∀ n, readFamilyAt (writes m c later).1 s n = readFamilyAt m s n
  override : ∀ key id, readOverride (writes m c later).1 s key id = readOverride m s key id
  order : (writes m c later).2.order = c.order
  others : ∀ key id, (∀ w ∈ later, w.target c.order ≠ some (key, id)) →
    readOverride (writes m c later).1 (writes m c later).2 key id = readOverride m c key id

theorem SameReads.copyConstruct (m : M) (s : RegisteredOverride K H) : SameReads m s (copyConstruct s) := by
  have override : ∀ key id, readOverride m (RegisteredOverride.copyConstruct s) key id = readOverride m s key id := by
    intro key id
    rw [readOverride, readOverride, family, family, handles_copyConstruct]
    have range : id.toNat < 256 := id.toNat_lt
    split
    · cases s.handles (key, id.toNat) with
      | none => rfl
      | some h => exact CowPointer.read_copy m h
    · -- an id past the families of its type
      have bounded := s.bounded key
      cases found : s.handles (key, id.toNat) with
      | none => rfl
      | some h =>
        have inside := entryAt_lt found
        omega
  constructor
  · rfl
  · rfl
  · intro n
    rw [readFamilyAt_eq, readFamilyAt_eq]
    simp only [override]
    rfl
  · exact override

/-- The copy of an override with the only handles is isolated from it. -/
theorem Sole.isolated {m : M} {s : RegisteredOverride K H} (sole : Sole m s) :
    CowPointer.Isolated m s.handles (RegisteredOverride.copyConstruct s).handles := by
  refine CowPointer.Owned.isolated sole fun ⟨key, i⟩ h found => ?_
  rw [handles_copyConstruct] at found
  split at found
  · obtain ⟨g, there, copy⟩ := Option.map_eq_some_iff.1 found
    exact ⟨g, there, copy.symm⟩
  · cases found

theorem write_isolated {m : M} {s c : RegisteredOverride K H} (isolated : CowPointer.Isolated m s.handles c.handles)
    (w : FamilyWrite K V) : CowPointer.Isolated (write m c w).1 s.handles (write m c w).2.handles := by
  obtain nothing | ⟨key, id, h, -, found, memory, handles, -⟩ := write_cases m c w
  · rw [nothing]
    exact isolated
  · rw [memory, handles]
    exact isolated.change found w.change

/-- **One write to an isolated copy** changes the family it is to, and nothing else that is read. -/
theorem Apart.write {m : M} {s c : RegisteredOverride K H} (isolated : CowPointer.Isolated m s.handles c.handles)
    (w : FamilyWrite K V) : Apart m s c [w] := by
  have override : ∀ key id, readOverride (RegisteredOverride.write m c w).1 s key id = readOverride m s key id := by
    intro key id
    obtain nothing | ⟨key', id', h, -, found, memory, -, -⟩ := write_cases m c w
    · rw [nothing]
    · rw [memory, readOverride, readOverride, family]
      cases there : s.handles (key, id.toNat) with
      | none => rfl
      | some g => exact CowPointer.read_change_other (isolated.source_ne found w.change there)
  constructor
  · intro n
    rw [readFamilyAt_eq, readFamilyAt_eq]
    exact congrArg _ (funext fun slot => override slot.key slot.id)
  · exact override
  · obtain nothing | ⟨key, id, h, -, -, -, -, order⟩ := write_cases m c w
    · exact congrArg (fun r => r.2.order) nothing
    · exact order
  · intro key id elsewhere
    have not_target := elsewhere w (List.mem_singleton_self w)
    change readOverride (RegisteredOverride.write m c w).1 (RegisteredOverride.write m c w).2 key id = _
    obtain nothing | ⟨key', id', h, target, found, memory, handles, -⟩ := write_cases m c w
    · rw [nothing]
    · have differ : (key, id.toNat) ≠ (key', id'.toNat) := by
        intro same
        obtain ⟨rfl, ids⟩ := Prod.mk.inj same
        obtain rfl := UInt8.toNat_inj.1 ids
        exact not_target target
      rw [memory, readOverride, readOverride, family, family, handles, Function.update_of_ne differ]
      cases other : c.handles (key, id.toNat) with
      | none => rfl
      | some g => exact CowPointer.read_change_other (isolated.other_ne found w.change other differ)

theorem writes_isolated {m : M} {s c : RegisteredOverride K H} (isolated : CowPointer.Isolated m s.handles c.handles)
    (later : List (FamilyWrite K V)) : CowPointer.Isolated (writes m c later).1 s.handles (writes m c later).2.handles := by
  induction later using List.reverseRecOn with
  | nil => exact isolated
  | append_singleton later w ih =>
    rw [writes_snoc]
    exact write_isolated ih w

theorem Apart.writes {m : M} {s c : RegisteredOverride K H} (isolated : CowPointer.Isolated m s.handles c.handles)
    (later : List (FamilyWrite K V)) : Apart m s c later := by
  induction later using List.reverseRecOn with
  | nil => exact ⟨fun _ => rfl, fun _ _ => rfl, rfl, fun _ _ _ => rfl⟩
  | append_singleton later w ih =>
    have last := Apart.write (writes_isolated isolated later) w
    constructor
    · intro n
      rw [writes_snoc]
      exact (last.familyAt n).trans (ih.familyAt n)
    · intro key id
      rw [writes_snoc]
      exact (last.override key id).trans (ih.override key id)
    · rw [writes_snoc]
      exact last.order.trans ih.order
    · intro key id elsewhere
      rw [writes_snoc]
      refine (last.others key id fun w' mem => ?_).trans (ih.others key id fun w' mem => ?_)
      · obtain rfl := List.mem_singleton.1 mem
        rw [ih.order]
        exact elsewhere w' (List.mem_append_right later mem)
      · exact elsewhere w' (List.mem_append_left [w] mem)

/-- **Copies are faithful, and apart.** An override that is built from a registry and written to in
any way reads the same through a copy made by the constructor and by an assignment over any other
override, and what is then written to the copy changes neither the override nor another family of
the copy. -/
theorem copy_faithful (m : M) (registry : StateOverrideRegistry K V) (before : List (FamilyWrite K V))
    (t : RegisteredOverride K H) :
    let built := build (H := H) m registry
    let written := writes built.1 built.2 before
    ∀ c ∈ [copyConstruct written.2, assign false t written.2],
      SameReads written.1 written.2 c ∧ ∀ later, Apart written.1 written.2 c later := by
  intro built written c mem
  have sole : Sole written.1 written.2 := (Sole.build m registry).writes before
  obtain rfl : c = copyConstruct written.2 := by
    rw [assign_eq] at mem
    simpa using mem
  constructor
  · exact SameReads.copyConstruct written.1 written.2
  · exact Apart.writes sole.isolated

/-- A write to the third slot of a copy, whose family is the second of its type. -/
example :
    let registry := StateOverrideRegistry.ofCalls (fun key : Nat => key) [4, 7, 4]
    let built := build (H := Heap.Pointer Nat) [] registry
    let forked := writes built.1 (copyConstruct built.2) [.familyAt 2 (· + 1)]
    (readFamilyAt forked.1 forked.2 0, readFamilyAt forked.1 forked.2 2, readFamilyAt forked.1 built.2 2) =
      (some 4, some 5, some 4) := by
  decide

end RegisteredOverride
end MagelessChain
