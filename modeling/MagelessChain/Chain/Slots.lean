import MagelessChain.Chain.StateOverrideCopy

/-!
# What the ids tell apart

The id of a registration is its number among those of its type, narrowed to eight bits, and the
index id of an instance is its position, narrowed to sixteen. Nothing refuses a registration past
them. So the entries of a type are told apart up to 256, and past that the slots of a later one
lead to an earlier one: to its instance in the registry of indexes, and to its family in a
`StateOverride`.
-/

namespace MagelessChain

open Lib

section Ids

variable {K : Type} [DecidableEq K]

/-- **The ids of a sequence of registrations are distinct** exactly with at most 256 of each type. -/
theorem nodup_ids_iff (keys : List K) :
    ((places keys).map fun address => (address.1, UInt8.ofNat address.2)).Nodup ↔ ∀ k, keys.count k ≤ 256 := by
  rw [List.nodup_map_iff_inj_on (nodup_places keys)]
  constructor
  · intro inj k
    by_contra! many
    -- the first of the type and the one that gets its id again
    have first : (k, 0) ∈ places keys := mem_places.2 (by omega)
    have again : (k, 256) ∈ places keys := mem_places.2 many
    have wraps : UInt8.ofNat 0 = UInt8.ofNat 256 := by decide
    cases inj _ first _ again (Prod.ext rfl wraps)
  · intro few address mem address' mem' same
    obtain ⟨k, place⟩ := address
    obtain ⟨k', place'⟩ := address'
    obtain ⟨rfl, ids⟩ := Prod.mk.inj same
    have places := congrArg UInt8.toNat ids
    rw [toNat_id_of_count_le (few k) mem, toNat_id_of_count_le (few k) mem'] at places
    exact Prod.ext rfl places

end Ids

/-! ## Calls -/

/-- A call an application makes on its registries, with the key of `T`. -/
inductive RegistryCall (K Ix : Type) where
  | registerIndex (key : K) (object : Option Ix)
  | registerOverride (key : K)
  deriving DecidableEq, Repr

/-- The two registries of a backend. -/
structure Registries (K Ix V : Type) [DecidableEq K] where
  indexes : BackendRegistry K Ix
  overrides : StateOverrideRegistry K V

namespace Registries

variable {K Ix V : Type} [DecidableEq K]

/-- One call, with the default constructors of the families. -/
def call (create : K → V) (r : Registries K Ix V) : RegistryCall K Ix → Registries K Ix V
  | .registerIndex key object => { r with indexes := r.indexes.registerIndex key object }
  | .registerOverride key => { r with overrides := r.overrides.registerOverride key fun _ => create key }

/-- The registries after calls, in order. -/
def ofCalls (create : K → V) (calls : List (RegistryCall K Ix)) : Registries K Ix V :=
  calls.foldl (call create) ⟨.new, .new⟩

omit [DecidableEq K] in
/-- The instances registered by calls. -/
def indexCalls (calls : List (RegistryCall K Ix)) : List (K × Option Ix) :=
  calls.filterMap fun
    | .registerIndex key object => some (key, object)
    | .registerOverride _ => none

/-- The families registered by calls. -/
def overrideCalls (calls : List (RegistryCall K Ix)) : List K :=
  calls.filterMap fun
    | .registerIndex _ _ => none
    | .registerOverride key => some key

/-- The registries do not see each other's calls. -/
theorem ofCalls_eq (create : K → V) (calls : List (RegistryCall K Ix)) :
    ofCalls create calls = ⟨.ofCalls (indexCalls calls), .ofCalls create (overrideCalls calls)⟩ := by
  induction calls using List.reverseRecOn with
  | nil => rfl
  | append_singleton calls last ih =>
    rw [ofCalls, List.foldl_append, List.foldl_cons, List.foldl_nil, ← ofCalls, ih]
    cases last with
    | registerIndex key object =>
      simp only [call, indexCalls, overrideCalls, List.filterMap_append]
      simp [BackendRegistry.ofCalls]
    | registerOverride key =>
      simp only [call, indexCalls, overrideCalls, List.filterMap_append]
      simp [StateOverrideRegistry.ofCalls]

end Registries

/-! ## Slots -/

section Slots

variable {K Ix H M V : Type} [DecidableEq K] [CowPointer H M V]

/-- What the slots of registered calls are to be: an instance is found at its position, no two
entries of a registry are the same, and no two slots of an override have one family. -/
structure NeverConfused (m : M) (create : K → V) (calls : List (RegistryCall K Ix)) : Prop where
  getIndexAt : ∀ n (inside : n < (Registries.indexCalls calls).length),
    (Registries.ofCalls create calls).indexes.getIndexAt (UInt16.ofNat n) = (Registries.indexCalls calls)[n].2
  indexEntries : (Registries.ofCalls create calls).indexes.entries.Nodup
  overrideEntries : ((Registries.ofCalls create calls).overrides.entries.map fun e => (e.key, e.id)).Nodup
  families : ∀ a b : Nat, a < (Registries.overrideCalls calls).length → b < (Registries.overrideCalls calls).length → a ≠ b →
    ∃ h g : H, (RegisteredOverride.build m (Registries.ofCalls create calls).overrides).2.familyAt a = some h ∧
      (RegisteredOverride.build m (Registries.ofCalls create calls).overrides).2.familyAt b = some g ∧
      CowPointer.object h ≠ CowPointer.object g

/-- Calls the ids can tell apart: at most 256 of each type in either registry, and past the first
65536 positions only instances that are in the positions their index ids are narrowed to. -/
structure ToldApart (calls : List (RegistryCall K Ix)) : Prop where
  indexes : ∀ k, ((Registries.indexCalls calls).map (·.1)).count k ≤ 256
  overrides : ∀ k, (Registries.overrideCalls calls).count k ≤ 256
  positions : ∀ n (inside : n < (Registries.indexCalls calls).length),
    (Registries.indexCalls calls)[n % 65536]?.map (·.2) = some (Registries.indexCalls calls)[n].2

omit [CowPointer H M V] in
theorem indexEntries_nodup_iff (create : K → V) (calls : List (RegistryCall K Ix)) :
    (Registries.ofCalls create calls).indexes.entries.Nodup ↔
      ∀ k, ((Registries.indexCalls calls).map (·.1)).count k ≤ 256 := by
  have registers := BackendRegistry.registers_ofCalls (Registries.indexCalls calls)
  rw [Registries.ofCalls_eq, registers.entries, ← nodup_ids_iff]
  have pairs : (places ((Registries.indexCalls calls).map (·.1))).map (fun address => (address.1, UInt8.ofNat address.2)) =
      ((places ((Registries.indexCalls calls).map (·.1))).map fun address =>
        (⟨address.1, UInt8.ofNat address.2⟩ : BackendRegistry.Entry K)).map fun e => (e.key, e.id) := by
    rw [List.map_map]
    rfl
  rw [pairs]
  constructor
  · intro nodup
    refine nodup.map fun e e' same => ?_
    cases e
    cases e'
    simpa using same
  · exact List.Nodup.of_map _

omit [CowPointer H M V] in
theorem overrideEntries_nodup_iff (create : K → V) (calls : List (RegistryCall K Ix)) :
    ((Registries.ofCalls create calls).overrides.entries.map fun e => (e.key, e.id)).Nodup ↔
      ∀ k, (Registries.overrideCalls calls).count k ≤ 256 := by
  rw [Registries.ofCalls_eq, StateOverrideRegistry.numbered, StateOverrideRegistry.keys_ofCalls]
  exact nodup_ids_iff _

/-- The family in a slot of a built override is the one with the key and the id of its entry. -/
theorem familyAt_build (m : M) {registry : StateOverrideRegistry K V} {n : Nat} {e : StateOverrideRegistry.Entry K V}
    (entry : registry.entries[n]? = some e) : (RegisteredOverride.build (H := H) m registry).2.familyAt n =
      (RegisteredOverride.build (H := H) m registry).2.handles (e.key, e.id.toNat) := by
  have slot : (RegisteredOverride.build (H := H) m registry).2.order[n]? = some ⟨e.key, e.id⟩ := by
    change (StateOverride.slots registry)[n]? = _
    rw [StateOverride.slots, List.getElem?_map, entry]
    rfl
  rw [RegisteredOverride.familyAt_eq, slot]
  rfl

/-- The slots of an override have families of their own exactly where the entries are distinct. -/
theorem families_apart_iff (m : M) (registry : StateOverrideRegistry K V) :
    (∀ a b : Nat, a < registry.entries.length → b < registry.entries.length → a ≠ b →
      ∃ h g : H, (RegisteredOverride.build m registry).2.familyAt a = some h ∧
        (RegisteredOverride.build m registry).2.familyAt b = some g ∧ CowPointer.object h ≠ CowPointer.object g) ↔
    (registry.entries.map fun e => (e.key, e.id)).Nodup := by
  rw [List.nodup_iff_getElem?_ne_getElem?]
  constructor
  · intro apart a b lt inside same
    rw [List.length_map] at inside
    have entryA := List.getElem?_eq_getElem (l := registry.entries) (i := a) (by omega)
    have entryB := List.getElem?_eq_getElem (l := registry.entries) (i := b) inside
    rw [List.getElem?_map, List.getElem?_map, entryA, entryB] at same
    obtain ⟨key, id⟩ := Prod.mk.inj (Option.some.inj same)
    obtain ⟨h, g, foundA, foundB, differ⟩ := apart a b (by omega) inside (by omega)
    rw [familyAt_build m entryA, key, id, ← familyAt_build m entryB, foundB] at foundA
    cases foundA
    exact differ rfl
  · intro distinct a b insideA insideB differ
    have sole := RegisteredOverride.Sole.build (H := H) m registry
    have entryA := List.getElem?_eq_getElem (l := registry.entries) (i := a) insideA
    have entryB := List.getElem?_eq_getElem (l := registry.entries) (i := b) insideB
    have size : (RegisteredOverride.build (H := H) m registry).2.familySize = registry.entries.length := by
      change (StateOverride.slots registry).length = _
      rw [StateOverride.slots, List.length_map]
    obtain ⟨h, foundA⟩ := Option.isSome_iff_exists.1
      ((RegisteredOverride.build (H := H) m registry).2.familyAt_isSome (size ▸ insideA))
    obtain ⟨g, foundB⟩ := Option.isSome_iff_exists.1
      ((RegisteredOverride.build (H := H) m registry).2.familyAt_isSome (size ▸ insideB))
    have addresses : (registry.entries[a].key, registry.entries[a].id.toNat) ≠
        (registry.entries[b].key, registry.entries[b].id.toNat) := by
      intro same
      obtain ⟨key, id⟩ := Prod.mk.inj same
      have entries : (registry.entries.map fun e => (e.key, e.id))[a]? = (registry.entries.map fun e => (e.key, e.id))[b]? := by
        rw [List.getElem?_map, List.getElem?_map, entryA, entryB]
        exact congrArg some (Prod.ext key (UInt8.toNat_inj.1 id))
      obtain lt | lt := Nat.lt_or_gt_of_ne differ
      · exact distinct a b lt (by rwa [List.length_map]) entries
      · exact distinct b a lt (by rwa [List.length_map]) entries.symm
    refine ⟨h, g, foundA, foundB, ?_⟩
    rw [familyAt_build m entryA] at foundA
    rw [familyAt_build m entryB] at foundB
    exact sole.apart _ _ h g foundA foundB addresses

/-- With at most 256 instances of each type, an index id leads to the instance in its position. -/
theorem getIndexAt_ofCalls (create : K → V) {calls : List (RegistryCall K Ix)}
    (few : ∀ k, ((Registries.indexCalls calls).map (·.1)).count k ≤ 256) {n : Nat}
    (inside : n < (Registries.indexCalls calls).length) :
    some ((Registries.ofCalls create calls).indexes.getIndexAt (UInt16.ofNat n)) =
      (Registries.indexCalls calls)[n % 65536]?.map (·.2) := by
  have narrowed : (UInt16.ofNat n).toNat = n % 65536 := UInt16.toNat_ofNat'
  have le : n % 65536 ≤ n := Nat.mod_le n 65536
  have position : (UInt16.ofNat n).toNat < (Registries.indexCalls calls).length := by omega
  rw [Registries.ofCalls_eq, ← narrowed, List.getElem?_eq_getElem position]
  exact congrArg some ((BackendRegistry.registers_ofCalls _).getIndexAt_id position (few _))

/-- Registrations within the range of the ids are told apart. -/
theorem ToldApart.of_withinIds {calls : List (RegistryCall K Ix)} (indexes : WithinIds ((Registries.indexCalls calls).map (·.1)))
    (overrides : WithinIds (Registries.overrideCalls calls)) : ToldApart calls := by
  constructor
  · exact indexes.ofType
  · exact overrides.ofType
  · intro n inside
    have total := indexes.total
    rw [List.length_map] at total
    rw [Nat.mod_eq_of_lt (by omega), List.getElem?_eq_getElem inside]
    rfl

/-- **Slots are never confused** exactly where the ids can tell the registrations apart. -/
theorem neverConfused_iff (m : M) (create : K → V) (calls : List (RegistryCall K Ix)) :
    NeverConfused (H := H) m create calls ↔ ToldApart calls := by
  have length : (Registries.ofCalls create calls).overrides.entries.length = (Registries.overrideCalls calls).length := by
    have keys := congrArg List.length (StateOverrideRegistry.keys_ofCalls create (Registries.overrideCalls calls))
    rw [Registries.ofCalls_eq]
    rwa [List.length_map] at keys
  constructor
  · intro never
    have few := (indexEntries_nodup_iff create calls).1 never.indexEntries
    constructor
    · exact few
    · exact (overrideEntries_nodup_iff create calls).1 never.overrideEntries
    · intro n inside
      rw [← getIndexAt_ofCalls create few inside, never.getIndexAt n inside]
  · intro told
    have distinct := (overrideEntries_nodup_iff create calls).2 told.overrides
    constructor
    · intro n inside
      have found := getIndexAt_ofCalls create told.indexes inside
      rw [told.positions n inside] at found
      exact Option.some.inj found
    · exact (indexEntries_nodup_iff create calls).2 told.indexes
    · exact distinct
    · rw [← length]
      exact (families_apart_iff m _).2 distinct

/-- 257 instances of one type: the last has the entry of the first. -/
theorem slots_confused : ¬ NeverConfused (H := Heap.Pointer Nat) [] (fun _ : Nat => 0)
    ((List.range 257).map fun i => RegistryCall.registerIndex 7 (some i)) := by
  have keys : ∀ n, (Registries.indexCalls ((List.range n).map fun i => RegistryCall.registerIndex 7 (some i))).map (·.1) =
      List.replicate n 7 := by
    intro n
    simp [Registries.indexCalls, List.filterMap_map, Function.comp_def]
  intro never
  have few := (indexEntries_nodup_iff _ _).1 never.indexEntries 7
  rw [keys, List.count_replicate_self] at few
  omega

end Slots

end MagelessChain
