import Mathlib.Data.List.Basic

/-!
# Copy-on-write handles

A program keeps objects behind handles. A handle is created as the only one at its object and
changes it in place; a copy of such a handle is at the same object, and its first change moves it
to an object of its own, which it then changes in place. Objects are told apart by number. A table
of copies of only handles stays isolated from its source, whatever is changed through it. `Heap` is
the memory kept as a list of objects, with handles that remember what they do on a change.
-/

namespace Lib

/-- Handles `H` on a memory of type `M` whose objects hold values `V`. -/
class CowPointer (H : Type) (M V : outParam Type) where
  object : H → Nat
  load : M → Nat → Option V
  /-- created as the only handle at its object -/
  unique : H → Prop
  /-- to be moved to an object of its own by its first change -/
  copyOnWrite : H → Prop
  create : M → V → M × H
  copy : H → H
  change : M → H → (V → V) → M × H
  create_fresh : ∀ m v, load m (object (create m v).2) = none
  create_load : ∀ m v a, load (create m v).1 a = if a = object (create m v).2 then some v else load m a
  create_unique : ∀ m v, unique (create m v).2
  object_copy : ∀ h, object (copy h) = object h
  copy_unique : ∀ h, unique h → copyOnWrite (copy h)
  change_load : ∀ m h f a, load (change m h f).1 a =
    if a = object (change m h f).2 then (load m (object h)).map f else load m a
  change_object : ∀ m h f, object (change m h f).2 = object h ∨ load m (object (change m h f).2) = none
  change_unique : ∀ m h f, unique h → object (change m h f).2 = object h ∧ unique (change m h f).2
  change_copyOnWrite : ∀ m h f, copyOnWrite h → load m (object (change m h f).2) = none

namespace CowPointer

variable {H M V : Type} [CowPointer H M V]

/-- What a handle reads. -/
def read (m : M) (h : H) : Option V := load H m (object h)

@[simp] theorem read_copy (m : M) (h : H) : read m (copy h) = read m h := by
  rw [read, object_copy, read]

/-- After its change a handle reads the changed value. -/
theorem read_change (m : M) (h : H) (f : V → V) : read (change m h f).1 (change m h f).2 = (read m h).map f := by
  rw [read, change_load, if_pos rfl, read]

/-- A handle that is not at the changed object reads what it did. -/
theorem read_change_other {m : M} {h g : H} {f : V → V} (apart : object g ≠ object (change m h f).2) :
    read (change m h f).1 g = read m g := by
  rw [read, change_load, if_neg apart, read]

/-- A change moves a handle to no object that is in use by another one. -/
theorem object_change_ne {m : M} {h g : H} {f : V → V} (live : (read m g).isSome) (apart : object g ≠ object h) :
    object g ≠ object (change m h f).2 := by
  intro same
  obtain stays | fresh := change_object m h f
  · exact apart (same.trans stays)
  · rw [read, same, fresh] at live
    cases live

/-- The first change of a copy moves it away from every object there is. -/
theorem object_change_fresh {m : M} {h g : H} {f : V → V} (cow : copyOnWrite h) (live : (read m g).isSome) :
    object g ≠ object (change m h f).2 := by
  intro same
  rw [read, same, change_copyOnWrite m h f cow] at live
  cases live

/-- A new handle is at no object that is in use. -/
theorem object_create_ne {m : M} {h : H} {v : V} (live : (read m h).isSome) :
    object h ≠ object (create m v : M × H).2 := by
  intro same
  rw [read, same, create_fresh] at live
  cases live

/-- What a handle in use reads does not depend on a new one. -/
theorem read_create_other {m : M} {h : H} {v : V} (live : (read m h).isSome) :
    read (create m v : M × H).1 h = read m h := by
  rw [read, create_load, if_neg (object_create_ne live), read]

/-! ## Tables of handles -/

variable {I : Type}

/-- The handles of a table are all the only ones at their objects. -/
structure Owned (m : M) (handles : I → Option H) : Prop where
  unique : ∀ i h, handles i = some h → CowPointer.unique h
  live : ∀ i h, handles i = some h → (read m h).isSome
  apart : ∀ i j h g, handles i = some h → handles j = some g → i ≠ j → object h ≠ object g

/-- No handle of a table changes an object of a source or of another handle of the table: it either
moves away first, or is at an object of its own already. -/
structure Isolated (m : M) (source handles : I → Option H) : Prop where
  live : ∀ i h, handles i = some h → (read m h).isSome
  source_live : ∀ i h, source i = some h → (read m h).isSome
  apart : ∀ i h, handles i = some h → copyOnWrite h ∨ (∀ j g, source j = some g → object g ≠ object h) ∧
    ∀ j g, handles j = some g → j ≠ i → object g ≠ object h

theorem Owned.empty (m : M) : Owned m (fun _ : I => (none : Option H)) := by
  constructor <;> intros <;> contradiction

variable [DecidableEq I]

omit [CowPointer H M V] in
theorem update_eq_some {handles : I → Option H} {i j : I} {h g : H} :
    Function.update handles i (some g) j = some h ↔ (j = i ∧ h = g) ∨ (j ≠ i ∧ handles j = some h) := by
  by_cases here : j = i
  · subst here
    simp [eq_comm]
  · simp [here]

/-- A created handle joins the table. -/
theorem Owned.create {m : M} {handles : I → Option H} (owned : Owned m handles) (i : I) (v : V) :
    Owned (CowPointer.create m v : M × H).1 (Function.update handles i (some (CowPointer.create m v).2)) := by
  constructor
  · intro j h found
    obtain ⟨-, rfl⟩ | ⟨-, before⟩ := update_eq_some.1 found
    · exact create_unique m v
    · exact owned.unique j h before
  · intro j h found
    obtain ⟨-, rfl⟩ | ⟨-, before⟩ := update_eq_some.1 found
    · rw [read, create_load, if_pos rfl]
      rfl
    · rw [read_create_other (owned.live j h before)]
      exact owned.live j h before
  · intro j k h g foundh foundg differ
    obtain ⟨rfl, rfl⟩ | ⟨-, before⟩ := update_eq_some.1 foundh <;>
      obtain ⟨rfl, rfl⟩ | ⟨-, before'⟩ := update_eq_some.1 foundg
    · exact absurd rfl differ
    · exact (object_create_ne (owned.live k g before')).symm
    · exact object_create_ne (owned.live j h before)
    · exact owned.apart j k h g before before' differ

omit [DecidableEq I] in
/-- A change through a handle of the table leaves the others what they read. -/
theorem Owned.read_other {m : M} {handles : I → Option H} (owned : Owned m handles) {i j : I} {h g : H}
    (found : handles i = some h) (other : handles j = some g) (differ : j ≠ i) (f : V → V) :
    read (change m h f).1 g = read m g :=
  read_change_other (object_change_ne (owned.live j g other) (owned.apart j i g h other found differ))

/-- A change through a handle keeps the table one of only handles. -/
theorem Owned.change {m : M} {handles : I → Option H} (owned : Owned m handles) {i : I} {h : H}
    (found : handles i = some h) (f : V → V) :
    Owned (CowPointer.change m h f).1 (Function.update handles i (some (CowPointer.change m h f).2)) := by
  obtain ⟨stays, unique⟩ := change_unique m h f (owned.unique i h found)
  constructor
  · intro j g found'
    obtain ⟨-, rfl⟩ | ⟨-, before⟩ := update_eq_some.1 found'
    · exact unique
    · exact owned.unique j g before
  · intro j g found'
    obtain ⟨-, rfl⟩ | ⟨differ, before⟩ := update_eq_some.1 found'
    · rw [read_change, Option.isSome_map]
      exact owned.live i h found
    · rw [owned.read_other found before differ]
      exact owned.live j g before
  · intro j k g g' foundg foundg' differ
    obtain ⟨rfl, rfl⟩ | ⟨-, before⟩ := update_eq_some.1 foundg <;>
      obtain ⟨rfl, rfl⟩ | ⟨-, before'⟩ := update_eq_some.1 foundg'
    · exact absurd rfl differ
    · rw [stays]
      exact owned.apart j k h g' found before' differ
    · rw [stays]
      exact owned.apart j k g h before found differ
    · exact owned.apart j k g g' before before' differ

omit [DecidableEq I] in
/-- **Copies of only handles are isolated** from them and from each other. -/
theorem Owned.isolated {m : M} {source handles : I → Option H} (owned : Owned m source)
    (copies : ∀ i h, handles i = some h → ∃ g, source i = some g ∧ h = copy g) : Isolated m source handles := by
  constructor
  · intro i h found
    obtain ⟨g, there, rfl⟩ := copies i h found
    rw [read_copy]
    exact owned.live i g there
  · exact owned.live
  · intro i h found
    obtain ⟨g, there, rfl⟩ := copies i h found
    exact .inl (copy_unique g (owned.unique i g there))

section Changes

variable {m : M} {source handles : I → Option H} {i : I} {h : H}

omit [DecidableEq I] in
/-- A handle that changes is at no object of the source afterwards. -/
theorem Isolated.source_ne (isolated : Isolated m source handles) (found : handles i = some h) (f : V → V) {j : I} {g : H}
    (there : source j = some g) : object g ≠ object (CowPointer.change m h f).2 := by
  have live := isolated.source_live j g there
  obtain cow | ⟨apart, -⟩ := isolated.apart i h found
  · exact object_change_fresh cow live
  · exact object_change_ne live (apart j g there)

omit [DecidableEq I] in
/-- Nor is it at one of another handle of the table. -/
theorem Isolated.other_ne (isolated : Isolated m source handles) (found : handles i = some h) (f : V → V) {j : I} {g : H}
    (other : handles j = some g) (differ : j ≠ i) : object g ≠ object (CowPointer.change m h f).2 := by
  have live := isolated.live j g other
  obtain cow | ⟨-, apart⟩ := isolated.apart i h found
  · exact object_change_fresh cow live
  · exact object_change_ne live (apart j g other differ)

/-- **A change through a handle of the table keeps it isolated.** -/
theorem Isolated.change (isolated : Isolated m source handles) (found : handles i = some h) (f : V → V) :
    Isolated (CowPointer.change m h f).1 source (Function.update handles i (some (CowPointer.change m h f).2)) := by
  constructor
  · intro j g found'
    obtain ⟨-, rfl⟩ | ⟨differ, before⟩ := update_eq_some.1 found'
    · rw [read_change, Option.isSome_map]
      exact isolated.live i h found
    · rw [read_change_other (isolated.other_ne found f before differ)]
      exact isolated.live j g before
  · intro j g there
    rw [read_change_other (isolated.source_ne found f there)]
    exact isolated.source_live j g there
  · intro j g found'
    obtain ⟨rfl, rfl⟩ | ⟨differ, before⟩ := update_eq_some.1 found'
    · right
      constructor
      · exact fun k g' there => isolated.source_ne found f there
      · intro k g' other differ
        obtain ⟨rfl, -⟩ | ⟨-, before⟩ := update_eq_some.1 other
        · exact absurd rfl differ
        · exact isolated.other_ne found f before differ
    · obtain cow | ⟨apart, alone⟩ := isolated.apart j g before
      · exact .inl cow
      · right
        constructor
        · exact apart
        · intro k g' other differ'
          obtain ⟨rfl, rfl⟩ | ⟨-, before'⟩ := update_eq_some.1 other
          · exact (isolated.other_ne found f before differ).symm
          · exact alone k g' before' differ'

end Changes

end CowPointer

/-! ## A memory as a list -/

/-- Objects in the order of their creation. -/
abbrev Heap (V : Type) := List V

/-- What a handle does on a change. -/
inductive Heap.Mode where
  | unique
  | copyOnWrite
  | shared
  deriving DecidableEq, Repr

/-- A handle of a heap. -/
structure Heap.Pointer (V : Type) where
  object : Nat
  mode : Heap.Mode
  deriving DecidableEq, Repr

namespace Heap

variable {V : Type}

/-- A copy of a handle that is the only one is changed on its own from then on. -/
def copy (h : Pointer V) : Pointer V :=
  match h.mode with
  | .unique => { h with mode := .copyOnWrite }
  | _ => h

/-- A change in place, or of a new object where the handle is still at the one it was copied from. -/
def change (m : Heap V) (h : Pointer V) (f : V → V) : Heap V × Pointer V :=
  match h.mode with
  | .copyOnWrite => (m ++ (m[h.object]?.map f).toList, ⟨m.length, .shared⟩)
  | _ => (m.modify h.object f, h)

theorem change_cases (m : Heap V) (h : Pointer V) (f : V → V) :
    (h.mode = .copyOnWrite ∧ change m h f = (m ++ (m[h.object]?.map f).toList, ⟨m.length, .shared⟩)) ∨
    (h.mode ≠ .copyOnWrite ∧ change m h f = (m.modify h.object f, h)) := by
  unfold change
  cases mode : h.mode <;> simp

instance : CowPointer (Pointer V) (Heap V) V where
  object h := h.object
  load m a := m[a]?
  unique h := h.mode = .unique
  copyOnWrite h := h.mode = .copyOnWrite
  create m v := (m ++ [v], ⟨m.length, .unique⟩)
  copy := copy
  change := change
  create_fresh m v := List.getElem?_eq_none (Nat.le_refl _)
  create_load m v a := by
    rw [List.getElem?_append]
    grind
  create_unique _ _ := rfl
  object_copy h := by
    unfold copy
    split <;> rfl
  copy_unique h unique := by
    unfold copy
    rw [unique]
  change_load m h f a := by
    obtain ⟨-, eq⟩ | ⟨-, eq⟩ := change_cases m h f
    · rw [eq]
      dsimp only
      grind
    · rw [eq]
      dsimp only
      grind
  change_object m h f := by
    obtain ⟨-, eq⟩ | ⟨-, eq⟩ := change_cases m h f
    · rw [eq]
      exact .inr (List.getElem?_eq_none (Nat.le_refl _))
    · rw [eq]
      exact .inl rfl
  change_unique m h f unique := by
    obtain ⟨cow, -⟩ | ⟨-, eq⟩ := change_cases m h f
    · rw [unique] at cow
      cases cow
    · rw [eq]
      exact ⟨rfl, unique⟩
  change_copyOnWrite m h f cow := by
    obtain ⟨-, eq⟩ | ⟨not, -⟩ := change_cases m h f
    · rw [eq]
      exact List.getElem?_eq_none (Nat.le_refl _)
    · exact absurd cow not

end Heap
end Lib
