import Mathlib.Algebra.Group.Nat.Defs
import Mathlib.Data.List.Basic
import Mathlib.Data.List.Perm.Subperm
import Mathlib.Order.Compare

/-!
# Ordered record stores and cursor walks

A store keeps records sorted by a comparison function. `find` loads the record with a given
key, `findNext` the least record not below a key, `insert` adds a record with a new key and
`overwrite` inserts or replaces. A program that enumerates a store holds a cursor, loads the
next record from it and moves the cursor just past that record; `walk` is this loop, over a
store that may grow meanwhile. `SortedRecords` is the store kept as a sorted list. Keys of machine
integers are counted by a `rank`, under which the next key is the next number.
-/

namespace Lib

open Std (TransCmp OrientedCmp ReflCmp)

/-- One field of a comparison written as `if (x < y) return -1; if (x > y) return 1;`. -/
theorem lt_gt_eq_then {α : Type} [LT α] [LE α] [DecidableLT α] [Ord α] [Std.LawfulOrderOrd α] [Std.LawfulOrderLT α]
    (x y : α) (rest : Ordering) :
    (if x < y then Ordering.lt else if x > y then .gt else rest) = (compare x y).then rest := by
  cases h : compare x y with
  | lt => simp [Std.compare_eq_lt.1 h]
  | gt =>
    have lt := Std.compare_eq_gt.1 h
    have ge : ¬ x < y := fun other => by simp [Std.compare_eq_lt.2 other] at h
    simp [lt, ge]
  | eq =>
    have ge : ¬ x < y := fun other => by simp [Std.compare_eq_lt.2 other] at h
    have le : ¬ y < x := fun other => by simp [Std.compare_eq_gt.2 other] at h
    simp [ge, le]

theorem nodup_of_sorted {α : Type} {cmp : α → α → Ordering} [ReflCmp cmp] {l : List α}
    (h : l.Pairwise (fun a b => cmp a b = .lt)) : l.Nodup :=
  h.imp fun {a b} lt eq => by
    have self : cmp b b = .eq := ReflCmp.compare_self
    rw [eq, self] at lt
    cases lt

/-! ## Keys counted by a number -/

/-- Machine integers compare like their values. -/
theorem compare_toNat {α : Type} [LT α] [LE α] [Ord α] [Std.LawfulOrderOrd α] [Std.LawfulOrderLT α] {toNat : α → Nat}
    (lt_iff : ∀ x y : α, x < y ↔ toNat x < toNat y) (x y : α) : compare x y = compare (toNat x) (toNat y) := by
  cases order : compare x y with
  | lt => exact (Std.compare_eq_lt.2 ((lt_iff x y).1 (Std.compare_eq_lt.1 order))).symm
  | gt => exact (Std.compare_eq_gt.2 ((lt_iff y x).1 (Std.compare_eq_gt.1 order))).symm
  | eq =>
    have ge : ¬ x < y := fun lt => by simp [Std.compare_eq_lt.2 lt] at order
    have le : ¬ y < x := fun lt => by simp [Std.compare_eq_gt.2 lt] at order
    rw [lt_iff] at ge le
    exact (Std.compare_eq_iff_eq.2 (by omega)).symm

/-- Counting up a word below its last value. -/
theorem toNat_add_one {x : UInt64} (below : x ≠ UInt64.ofNat (2 ^ 64 - 1)) : (x + 1).toNat = x.toNat + 1 := by
  have bound := x.toNat_lt
  have ne : x.toNat ≠ 2 ^ 64 - 1 := fun last => below (UInt64.toNat_inj.1 last)
  rw [UInt64.toNat_add]
  exact Nat.mod_eq_of_lt (by change x.toNat + 1 < 2 ^ 64; omega)

/-- Two digits compare like the number they make. -/
theorem compare_digits {n a b c d : Nat} (low : b < n) (low' : d < n) :
    compare (a * n + b) (c * n + d) = (compare a c).then (compare b d) := by
  have up : ∀ {x y : Nat}, x < y → x * n + n ≤ y * n := fun {x y} lt => by
    have := Nat.mul_le_mul_right n (Nat.succ_le_of_lt lt)
    rwa [Nat.succ_mul] at this
  obtain lt | rfl | gt := Nat.lt_trichotomy a c
  · have := up lt
    rw [Std.compare_eq_lt.2 lt, Std.compare_eq_lt.2 (by omega)]
    rfl
  · rw [Std.compare_self, Ordering.eq_then]
    obtain lt | rfl | gt := Nat.lt_trichotomy b d
    · rw [Std.compare_eq_lt.2 lt, Std.compare_eq_lt.2 (by omega)]
    · rw [Std.compare_self, Std.compare_self]
    · rw [Std.compare_eq_gt.2 gt, Std.compare_eq_gt.2 (by omega)]
  · have := up gt
    rw [Std.compare_eq_gt.2 gt, Std.compare_eq_gt.2 (by omega)]
    rfl

section Ranked

variable {α : Type} {cmp : α → α → Ordering} {rank : α → Nat}

/-- `next` is what a successor function is to return for `s`: the least key above it, or `s` itself
where it is the last. -/
structure IsSuccessor (cmp : α → α → Ordering) (s next : α) : Prop where
  least : (∃ x, cmp s x = .lt) → cmp s next = .lt ∧ ∀ x, cmp s x = .lt → (cmp next x).isLE
  last : (∀ x, cmp s x ≠ .lt) → next = s

/-- Where keys compare by their ranks, the key of the next rank is just past another. -/
theorem isLE_of_rank_succ (ranked : ∀ a b, cmp a b = compare (rank a) (rank b)) {s next : α} (up : rank next = rank s + 1)
    (x : α) : (cmp next x).isLE ↔ cmp s x = .lt := by
  rw [ranked, ranked, Std.isLE_compare, Std.compare_eq_lt, up]
  exact Iff.rfl

theorem isSuccessor_of_rank (ranked : ∀ a b, cmp a b = compare (rank a) (rank b)) {s next : α} (up : rank next = rank s + 1) :
    IsSuccessor cmp s next := by
  have above : cmp s next = .lt := by
    rw [ranked, Std.compare_eq_lt, up]
    exact Nat.lt_succ_self _
  constructor
  · intro _
    exact ⟨above, fun x lt => (isLE_of_rank_succ ranked up x).2 lt⟩
  · intro none
    exact absurd above (none next)

end Ranked

/-! ## Stores -/

/-- A store of records of type `α`, sorted by `cmp`, with the operations a program calls. -/
class OrderedStore (τ : Type) (α : outParam Type) (cmp : outParam (α → α → Ordering)) where
  empty : τ
  records : τ → List α
  find : τ → α → Option α
  findNext : τ → α → Option α
  insert : τ → α → τ
  overwrite : τ → α → τ
  records_empty : records empty = []
  sorted : ∀ t, (records t).Pairwise (fun a b => cmp a b = .lt)
  find_eq : ∀ t k, find t k = (records t).find? (fun r => cmp r k == .eq)
  findNext_eq : ∀ t k, findNext t k = (records t).find? (fun r => (cmp k r).isLE)
  mem_insert : ∀ t k, (∀ r ∈ records t, cmp r k ≠ .eq) →
    ∀ r, r ∈ records (insert t k) ↔ r = k ∨ r ∈ records t
  mem_overwrite : ∀ t k r, r ∈ records (overwrite t k) ↔ r = k ∨ (r ∈ records t ∧ cmp r k ≠ .eq)

namespace OrderedStore

section Laws

variable {τ α : Type} {cmp : α → α → Ordering} [OrderedStore τ α cmp]

theorem mem_of_find {t : τ} {k r : α} (h : find t k = some r) : r ∈ records t := by
  rw [find_eq] at h
  exact List.mem_of_find?_eq_some h

theorem cmp_of_find {t : τ} {k r : α} (h : find t k = some r) : cmp r k = .eq := by
  rw [find_eq] at h
  simpa using List.find?_some h

theorem cmp_of_find_none {t : τ} {k : α} (h : find t k = none) : ∀ r ∈ records t, cmp r k ≠ .eq := by
  rw [find_eq, List.find?_eq_none] at h
  intro r hr
  simpa using h r hr

/-- Two records with the same key are the same record. -/
theorem eq_of_cmp_eq [TransCmp cmp] {t : τ} {r x : α} (hr : r ∈ records t) (hx : x ∈ records t)
    (h : cmp r x = .eq) : r = x := by
  obtain ⟨front, back, split⟩ := List.append_of_mem hr
  have order := sorted t
  rw [split, List.pairwise_append, List.pairwise_cons] at order
  rw [split, List.mem_append, List.mem_cons] at hx
  rcases hx with hx | rfl | hx
  · have lt := order.2.2 x hx r List.mem_cons_self
    rw [OrientedCmp.eq_symm h] at lt
    cases lt
  · rfl
  · rw [order.2.1.1 x hx] at h
    cases h

/-- The records at or above a cursor, in store order. -/
def above (t : τ) (cursor : α) : List α := (records t).filter fun r => (cmp cursor r).isLE

theorem mem_above {t : τ} {k r : α} : r ∈ above t k ↔ r ∈ records t ∧ (cmp k r).isLE := by
  simp [above]

theorem mem_of_findNext {t : τ} {k r : α} (h : findNext t k = some r) : r ∈ records t ∧ (cmp k r).isLE := by
  rw [findNext_eq] at h
  exact ⟨List.mem_of_find?_eq_some h, by simpa using List.find?_some h⟩

/-- Where a record stands at or above a key, `findNext` loads one, and none that is greater. -/
theorem findNext_least [TransCmp cmp] {t : τ} {k x : α} (hx : x ∈ records t) (le : (cmp k x).isLE) :
    ∃ r, findNext t k = some r ∧ (cmp r x).isLE := by
  have some : (findNext t k).isSome := by
    rw [findNext_eq, List.find?_isSome]
    exact ⟨x, hx, le⟩
  obtain ⟨r, first⟩ := Option.isSome_iff_exists.1 some
  refine ⟨r, first, ?_⟩
  rw [findNext_eq, List.find?_eq_some_iff_append] at first
  obtain ⟨-, front, back, split, below⟩ := first
  have order := sorted t
  rw [split, List.pairwise_append, List.pairwise_cons] at order
  rw [split, List.mem_append, List.mem_cons] at hx
  rcases hx with hx | rfl | hx
  · have := below x hx
    simp [le] at this
  · have self : cmp x x = .eq := ReflCmp.compare_self
    rw [self]
    rfl
  · rw [order.2.1.1 x hx]
    rfl

end Laws

/-! ## Walks -/

section Walk

variable {τ α : Type} {cmp : α → α → Ordering} [OrderedStore τ α cmp]

/-- The loop `while (findNext(cursor)) { if (stop) break; visit; cursor = next(cursor); }`
for at most `fuel` rounds; `none` when they do not suffice. Others may change the store between
two rounds: `t k` is the store at round `k`. -/
def walk (t : Nat → τ) (stop : α → Bool) (next : α → α) : Nat → α → Option (List α)
  | 0, _ => none
  | fuel + 1, cursor =>
    match findNext (t 0) cursor with
    | none => some []
    | some r => if stop r then some [] else (walk (fun k => t (k + 1)) stop next fuel (next r)).map (r :: ·)

/-- `next` moves the cursor just past each record the walk can visit. -/
def Advances (t : Nat → τ) (stop : α → Bool) (next : α → α) : Prop :=
  ∀ k, ∀ r ∈ records (t k), stop r = false → ∀ x, (cmp (next r) x).isLE ↔ cmp r x = .lt

/-- What one round of the loop does. -/
theorem walk_succ {t : Nat → τ} {stop : α → Bool} {next : α → α} {fuel : Nat} {cursor : α} {visited : List α}
    (h : walk t stop next (fuel + 1) cursor = some visited) :
    (visited = [] ∧ ∀ r, findNext (t 0) cursor = some r → stop r = true) ∨
    ∃ r rest, findNext (t 0) cursor = some r ∧ stop r = false ∧ visited = r :: rest ∧
      walk (fun k => t (k + 1)) stop next fuel (next r) = some rest := by
  rw [walk] at h
  split at h
  · rename_i none
    simp only [Option.some.injEq] at h
    exact .inl ⟨h.symm, by simp [none]⟩
  · rename_i r first
    split at h
    · rename_i stopped
      simp only [Option.some.injEq] at h
      refine .inl ⟨h.symm, fun x eq => ?_⟩
      rw [first, Option.some.injEq] at eq
      exact eq ▸ stopped
    · rename_i go
      obtain ⟨rest, more, eq⟩ := Option.map_eq_some_iff.1 h
      exact .inr ⟨r, rest, first, by simpa using go, eq.symm, more⟩

/-- More rounds than it takes change nothing. -/
theorem walk_mono {stop : α → Bool} {next : α → α} : ∀ {fuel more : Nat} {t : Nat → τ} {cursor : α} {visited : List α},
    walk t stop next fuel cursor = some visited → fuel ≤ more → walk t stop next more cursor = some visited := by
  intro fuel
  induction fuel with
  | zero => intro more t cursor visited h; cases h
  | succ fuel ih =>
    intro more t cursor visited h le
    obtain ⟨more, rfl⟩ : ∃ m, more = m + 1 := ⟨more - 1, by omega⟩
    rw [walk] at h ⊢
    split at h
    · exact h
    · split at h
      · rename_i stopped
        rw [if_pos stopped]
        exact h
      · rename_i go
        obtain ⟨rest, tail, eq⟩ := Option.map_eq_some_iff.1 h
        rw [if_neg go, ih tail (by omega)]
        exact congrArg some eq

/-- A walk ends if every round takes the cursor down a rank. -/
theorem walk_ends {stop : α → Bool} {next : α → α} (rank : α → Nat) : ∀ {fuel : Nat} {t : Nat → τ} {cursor : α},
    (∀ k, ∀ r ∈ records (t k), stop r = false → ∀ c, (cmp c r).isLE → rank (next r) < rank c) →
    rank cursor < fuel → ∃ visited, walk t stop next fuel cursor = some visited := by
  intro fuel
  induction fuel with
  | zero => intro t cursor down bound; omega
  | succ fuel ih =>
    intro t cursor down bound
    rw [walk]
    split
    · exact ⟨[], rfl⟩
    · rename_i r first
      split
      · exact ⟨[], rfl⟩
      · rename_i go
        obtain ⟨here, le⟩ := mem_of_findNext first
        have lower := down 0 r here (by simpa using go) cursor le
        obtain ⟨rest, tail⟩ := @ih (fun k => t (k + 1)) (next r) (fun k => down (k + 1)) (by omega)
        exact ⟨r :: rest, by rw [tail]; rfl⟩

variable [TransCmp cmp]

omit [TransCmp cmp] in
/-- Every visited record stood in the store, wherever the cursor moves. -/
theorem mem_records_of_mem_walk {stop : α → Bool} {next : α → α} : ∀ {fuel : Nat} {t : Nat → τ} {cursor : α}
    {visited : List α}, walk t stop next fuel cursor = some visited → ∀ v ∈ visited, ∃ k, v ∈ records (t k) := by
  intro fuel
  induction fuel with
  | zero => intro t cursor visited h; cases h
  | succ fuel ih =>
    intro t cursor visited h v hv
    obtain ⟨rfl, -⟩ | ⟨r, rest, first, -, rfl, tail⟩ := walk_succ h
    · cases hv
    · obtain rfl | hv := List.mem_cons.1 hv
      · exact ⟨0, (mem_of_findNext first).1⟩
      · obtain ⟨k, there⟩ := ih tail v hv
        exact ⟨k + 1, there⟩

/-- Every visited record stood in the store, at or above the cursor, and did not stop the walk. -/
theorem mem_of_mem_walk {stop : α → Bool} {next : α → α} : ∀ {fuel : Nat} {t : Nat → τ} {cursor : α} {visited : List α},
    Advances t stop next → walk t stop next fuel cursor = some visited →
    ∀ v ∈ visited, stop v = false ∧ (cmp cursor v).isLE ∧ ∃ k, v ∈ records (t k) := by
  intro fuel
  induction fuel with
  | zero => intro t cursor visited adv h; cases h
  | succ fuel ih =>
    intro t cursor visited adv h v hv
    rcases walk_succ h with ⟨rfl, -⟩ | ⟨r, rest, first, go, rfl, tail⟩
    · cases hv
    · obtain ⟨here, le⟩ := mem_of_findNext first
      rcases List.mem_cons.1 hv with rfl | hv
      · exact ⟨go, le, 0, here⟩
      · obtain ⟨passes, past, k, there⟩ := ih (fun k => adv (k + 1)) tail v hv
        have lt := (adv 0 r here go v).1 past
        exact ⟨passes, Ordering.isLE_of_eq_lt (TransCmp.lt_of_isLE_of_lt le lt), k + 1, there⟩

/-- A walk visits records in strictly ascending order. -/
theorem walk_sorted {stop : α → Bool} {next : α → α} : ∀ {fuel : Nat} {t : Nat → τ} {cursor : α} {visited : List α},
    Advances t stop next → walk t stop next fuel cursor = some visited →
    visited.Pairwise (fun a b => cmp a b = .lt) := by
  intro fuel
  induction fuel with
  | zero => intro t cursor visited adv h; cases h
  | succ fuel ih =>
    intro t cursor visited adv h
    rcases walk_succ h with ⟨rfl, -⟩ | ⟨r, rest, first, go, rfl, tail⟩
    · exact .nil
    · refine List.pairwise_cons.2 ⟨fun v hv => ?_, ih (fun k => adv (k + 1)) tail⟩
      have past := (mem_of_mem_walk (fun k => adv (k + 1)) tail v hv).2.1
      exact (adv 0 r (mem_of_findNext first).1 go v).1 past

/-- **Nothing that stays is missed**: a walk visits each key that is in the store throughout, at or
above the cursor, and that no record stops it before. -/
theorem mem_walk {stop : α → Bool} {next : α → α} {x : α} : ∀ {fuel : Nat} {t : Nat → τ} {cursor : α} {visited : List α},
    Advances t stop next → walk t stop next fuel cursor = some visited →
    (∀ k, ∃ r ∈ records (t k), cmp r x = .eq) → (cmp cursor x).isLE →
    (∀ k, ∀ r ∈ records (t k), (cmp cursor r).isLE → (cmp r x).isLE → stop r = false) →
    ∃ v ∈ visited, cmp v x = .eq := by
  intro fuel
  induction fuel with
  | zero => intro t cursor visited adv h; cases h
  | succ fuel ih =>
    intro t cursor visited adv h stays le passes
    obtain ⟨y, stored, eq⟩ := stays 0
    have reached : (cmp cursor y).isLE := by
      rw [TransCmp.congr_right eq]
      exact le
    obtain ⟨r, first, least⟩ := findNext_least stored reached
    have before : (cmp r x).isLE := by
      rw [← TransCmp.congr_right eq]
      exact least
    obtain ⟨here, from_cursor⟩ := mem_of_findNext first
    have go := passes 0 r here from_cursor before
    rcases walk_succ h with ⟨-, stops⟩ | ⟨r', rest, first', -, rfl, tail⟩
    · rw [stops r first] at go
      cases go
    · obtain rfl : r = r' := by simpa [first] using first'
      cases at_x : cmp r x with
      | eq => exact ⟨r, List.mem_cons_self, at_x⟩
      | gt => rw [at_x] at before; cases before
      | lt =>
        have past := (adv 0 r here go x).2 at_x
        have later : ∀ y, (cmp (next r) y).isLE → (cmp cursor y).isLE := fun y le =>
          Ordering.isLE_of_eq_lt (TransCmp.lt_of_isLE_of_lt from_cursor ((adv 0 r here go y).1 le))
        obtain ⟨v, hv, found⟩ := ih (fun k => adv (k + 1)) tail (fun k => stays (k + 1)) past
          (fun k y mem le => passes (k + 1) y mem (later y le))
        exact ⟨v, List.mem_cons_of_mem _ hv, found⟩

/-- On a store that does not change, one round more than there are records suffices. -/
theorem walk_ends_of_const {stop : α → Bool} {next : α → α} {t : τ} {cursor : α} {fuel : Nat}
    (adv : Advances (fun _ => t) stop next) (enough : (records t).length < fuel) :
    ∃ visited, walk (fun _ => t) stop next fuel cursor = some visited := by
  refine walk_ends (fun c => (above t c).length) (fun k r here go c le => ?_)
    (Nat.lt_of_le_of_lt (List.length_filter_le _ _) enough)
  have smaller : above t (next r) = (above t c).filter fun x => cmp r x == .lt := by
    unfold above
    rw [List.filter_filter]
    apply List.filter_congr
    intro x hx
    rw [Bool.eq_iff_iff, adv k r here go x]
    simp only [Bool.and_eq_true, beq_iff_eq]
    exact ⟨fun lt => ⟨lt, Ordering.isLE_of_eq_lt (TransCmp.lt_of_isLE_of_lt le lt)⟩, fun h => h.1⟩
  rw [smaller]
  refine List.length_filter_lt_length_iff_exists.2 ⟨r, mem_above.2 ⟨here, le⟩, ?_⟩
  simp [ReflCmp.compare_self]

end Walk

end OrderedStore

/-! ## The store as a sorted list -/

/-- Records in a list that is sorted by construction. -/
structure SortedRecords (α : Type) (cmp : α → α → Ordering) where
  list : List α
  sorted : list.Pairwise (fun a b => cmp a b = .lt)

namespace SortedRecords

variable {α : Type} {cmp : α → α → Ordering} [TransCmp cmp]

/-- Put a record at its place, in the place of the record with the same key if there is one. -/
def overwrite (t : SortedRecords α cmp) (k : α) : SortedRecords α cmp where
  list := (t.list.filter fun r => cmp r k == .lt) ++ k :: t.list.filter fun r => cmp k r == .lt
  sorted := by
    rw [List.pairwise_append, List.pairwise_cons]
    refine ⟨t.sorted.sublist List.filter_sublist, ⟨fun x hx => ?_, t.sorted.sublist List.filter_sublist⟩, ?_⟩
    · simpa using (List.mem_filter.1 hx).2
    · intro x hx y hy
      have below : cmp x k = .lt := by simpa using (List.mem_filter.1 hx).2
      rcases List.mem_cons.1 hy with rfl | hy
      · exact below
      · exact TransCmp.lt_trans below (by simpa using (List.mem_filter.1 hy).2)

theorem mem_overwrite (t : SortedRecords α cmp) (k r : α) :
    r ∈ (t.overwrite k).list ↔ r = k ∨ (r ∈ t.list ∧ cmp r k ≠ .eq) := by
  have swap : cmp k r = .lt ↔ cmp r k = .gt := OrientedCmp.gt_iff_lt.symm
  simp only [overwrite, List.mem_append, List.mem_cons, List.mem_filter, beq_iff_eq, swap]
  cases h : cmp r k <;> simp [or_comm]

instance : OrderedStore (SortedRecords α cmp) α cmp where
  empty := ⟨[], .nil⟩
  records t := t.list
  find t k := t.list.find? fun r => cmp r k == .eq
  findNext t k := t.list.find? fun r => (cmp k r).isLE
  insert t k := t.overwrite k
  overwrite t k := t.overwrite k
  records_empty := rfl
  sorted t := t.sorted
  find_eq _ _ := rfl
  findNext_eq _ _ := rfl
  mem_insert t k fresh r := by
    rw [mem_overwrite]
    exact or_congr_right ⟨fun h => h.1, fun h => ⟨h, fresh r h⟩⟩
  mem_overwrite t k r := mem_overwrite t k r

end SortedRecords

/-! ## Removal -/

/-- A store records can be taken out of by key. -/
class RemovableStore (τ : Type) (α : outParam Type) (cmp : outParam (α → α → Ordering)) extends OrderedStore τ α cmp where
  remove : τ → α → τ
  mem_remove : ∀ t k r, r ∈ records (remove t k) ↔ r ∈ records t ∧ cmp r k ≠ .eq

instance {α : Type} {cmp : α → α → Ordering} [TransCmp cmp] : RemovableStore (SortedRecords α cmp) α cmp where
  remove t k := ⟨t.list.filter fun r => cmp r k != .eq, t.sorted.sublist List.filter_sublist⟩
  mem_remove t k r := by
    change r ∈ t.list.filter _ ↔ r ∈ t.list ∧ _
    rw [List.mem_filter, bne_iff_ne]

namespace OrderedStore

variable {τ α : Type} {cmp : α → α → Ordering}

/-- No record is kept twice. -/
theorem nodup_records [OrderedStore τ α cmp] [ReflCmp cmp] (t : τ) : (records t).Nodup := nodup_of_sorted (sorted t)

/-- A record found by a key is taken out by it, and the other records are among the rest. -/
theorem remove_found [RemovableStore τ α cmp] [TransCmp cmp] {t : τ} {k r : α} (found : find t k = some r) :
    List.Subperm (r :: records (RemovableStore.remove t k)) (records t) := by
  have gone : r ∉ records (RemovableStore.remove t k) := fun mem =>
    ((RemovableStore.mem_remove t k r).1 mem).2 (cmp_of_find found)
  refine (List.nodup_cons.2 ⟨gone, nodup_records _⟩).subperm fun x mem => ?_
  obtain rfl | mem := List.mem_cons.1 mem
  · exact mem_of_find found
  · exact ((RemovableStore.mem_remove t k x).1 mem).1

/-- What a removal leaves was there before. -/
theorem remove_subperm [RemovableStore τ α cmp] [TransCmp cmp] (t : τ) (k : α) :
    List.Subperm (records (RemovableStore.remove t k)) (records t) :=
  (nodup_records _).subperm fun x mem => ((RemovableStore.mem_remove t k x).1 mem).1

end OrderedStore

end Lib
