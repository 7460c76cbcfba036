import Mathlib.Data.List.GetD
import Mathlib.Data.List.Perm.Basic

/-!
# Removing positions from an array list

Programs that pick elements of an array list by position and remove them afterwards sort the
positions in descending order, so that no removal shifts a position still to come. Here are the
in-place selection sort and the shifting removal such programs use, and what is left: the removed
elements and the rest are together the list.
-/

namespace Lib

/-! ## Selection sort in place, descending -/

/-- `maxPos` of the inner loop: the position of the largest element from `i` on. -/
def maxPos (l : List Nat) (i : Nat) : Nat :=
  (List.range' (i + 1) (l.length - (i + 1))).foldl (fun m j => if l.getD j 0 > l.getD m 0 then j else m) i

/-- Swap two positions. -/
def swapAt (l : List Nat) (i m : Nat) : List Nat := (l.set i (l.getD m 0)).set m (l.getD i 0)

/-- One round of the outer loop. -/
def selectAt (l : List Nat) (i : Nat) : List Nat := if maxPos l i ≠ i then swapAt l i (maxPos l i) else l

/-- The selection sort. -/
def sortDescending (l : List Nat) : List Nat := (List.range (l.length - 1)).foldl selectAt l

/-- The inner loop over the positions up to `i + k` finds the largest of them. -/
theorem maxPos_loop (l : List Nat) (i k : Nat) :
    let m := (List.range' (i + 1) k).foldl (fun m j => if l.getD j 0 > l.getD m 0 then j else m) i
    i ≤ m ∧ m ≤ i + k ∧ ∀ j, i ≤ j → j ≤ i + k → l.getD j 0 ≤ l.getD m 0 := by
  induction k with
  | zero =>
    refine ⟨Nat.le_refl _, Nat.le_refl _, fun j le ge => ?_⟩
    obtain rfl : j = i := by omega
    exact Nat.le_refl _
  | succ k ih =>
    rw [List.range'_concat, List.foldl_append]
    simp only [List.foldl_cons, List.foldl_nil, Nat.one_mul]
    obtain ⟨lower, upper, largest⟩ := ih
    split
    · rename_i above
      refine ⟨by omega, by omega, fun j le ge => ?_⟩
      by_cases last : j = i + 1 + k
      · exact Nat.le_of_eq (by rw [last])
      · exact Nat.le_trans (largest j le (by omega)) (Nat.le_of_lt above)
    · rename_i below
      refine ⟨lower, by omega, fun j le ge => ?_⟩
      by_cases last : j = i + 1 + k
      · rw [last]; omega
      · exact largest j le (by omega)

theorem maxPos_spec {l : List Nat} {i : Nat} (hi : i < l.length) :
    i ≤ maxPos l i ∧ maxPos l i < l.length ∧ ∀ j, i ≤ j → j < l.length → l.getD j 0 ≤ l.getD (maxPos l i) 0 := by
  obtain ⟨lower, upper, largest⟩ := maxPos_loop l i (l.length - (i + 1))
  exact ⟨lower, by unfold maxPos; omega, fun j le lt => largest j le (by omega)⟩

theorem getD_swapAt {l : List Nat} {i m : Nat} (hi : i < l.length) (hm : m < l.length) (j : Nat) :
    (swapAt l i m).getD j 0 = if j = m then l.getD i 0 else if j = i then l.getD m 0 else l.getD j 0 := by
  unfold swapAt
  simp only [List.getD_eq_getElem?_getD, List.getElem?_set, List.length_set]
  by_cases first : m = j
  · subst first; simp [hm]
  · by_cases second : i = j
    · subst second
      simp [first, hi, Ne.symm first]
    · simp [first, second, Ne.symm first, Ne.symm second]

theorem swapAt_perm {l : List Nat} {i m : Nat} (hi : i < l.length) (hm : m < l.length) : (swapAt l i m).Perm l := by
  unfold swapAt
  rw [List.getD_eq_getElem _ _ hm, List.getD_eq_getElem _ _ hi]
  exact List.set_set_perm hi hm

@[simp] theorem length_swapAt (l : List Nat) (i m : Nat) : (swapAt l i m).length = l.length := by
  simp [swapAt]

@[simp] theorem length_selectAt (l : List Nat) (i : Nat) : (selectAt l i).length = l.length := by
  unfold selectAt
  split <;> simp

/-- The first `i` positions are in descending order and at or above everything after them. -/
def SortedTo (i : Nat) (l : List Nat) : Prop := ∀ a b, a < i → a < b → b < l.length → l.getD b 0 ≤ l.getD a 0

/-- A round sorts one position more. -/
theorem SortedTo.selectAt {i : Nat} {l : List Nat} (h : SortedTo i l) (hi : i < l.length) :
    SortedTo (i + 1) (selectAt l i) := by
  obtain ⟨lower, upper, largest⟩ := maxPos_spec hi
  unfold Lib.selectAt
  split
  · intro a b ha hab hb
    rw [length_swapAt] at hb
    rw [getD_swapAt hi upper, getD_swapAt hi upper]
    -- `a` is one of the positions sorted before, or the one sorted now
    by_cases old : a < i
    · rw [if_neg (by omega : a ≠ maxPos l i), if_neg (by omega : a ≠ i)]
      split
      · exact h a i old old hi
      · split
        · exact h a _ old (by omega) upper
        · exact h a b old hab hb
    · obtain rfl : a = i := by omega
      rw [if_neg (by omega : b ≠ a)]
      split
      · split
        · omega
        · rw [if_pos rfl]; exact largest a (Nat.le_refl _) hi
      · split
        · exact absurd ‹a = maxPos l a› (Ne.symm ‹maxPos l a ≠ a›)
        · rw [if_pos rfl]; exact largest b (by omega) hb
  · rename_i same
    simp only [ne_eq, not_not] at same
    intro a b ha hab hb
    by_cases old : a < i
    · exact h a b old hab hb
    · obtain rfl : a = i := by omega
      rw [← same]
      exact largest b (by omega) hb

theorem selectAt_perm {l : List Nat} {i : Nat} (hi : i < l.length) : (selectAt l i).Perm l := by
  obtain ⟨-, upper, -⟩ := maxPos_spec hi
  unfold selectAt
  split
  · exact swapAt_perm hi upper
  · exact .rfl

/-- The state of the outer loop after `k` rounds. -/
theorem sortDescending_loop (l : List Nat) :
    ∀ k, k ≤ l.length - 1 → let r := (List.range k).foldl selectAt l
      r.Perm l ∧ r.length = l.length ∧ SortedTo k r := by
  intro k
  induction k with
  | zero => exact fun _ => ⟨.rfl, rfl, fun a _ ha => by omega⟩
  | succ k ih =>
    intro hk
    obtain ⟨perm, length, sorted⟩ := ih (by omega)
    rw [List.range_succ, List.foldl_append]
    simp only [List.foldl_cons, List.foldl_nil]
    have inside : k < ((List.range k).foldl selectAt l).length := by omega
    exact ⟨(selectAt_perm inside).trans perm, by rw [length_selectAt, length], sorted.selectAt inside⟩

theorem sortDescending_perm (l : List Nat) : (sortDescending l).Perm l :=
  (sortDescending_loop l _ (Nat.le_refl _)).1

/-- Distinct positions come out in strictly descending order. -/
theorem sortDescending_sorted {l : List Nat} (nodup : l.Nodup) : (sortDescending l).Pairwise (· > ·) := by
  obtain ⟨perm, length, sorted⟩ := sortDescending_loop l _ (Nat.le_refl _)
  have distinct : (sortDescending l).Nodup := perm.nodup_iff.2 nodup
  rw [List.pairwise_iff_getElem]
  intro a b ha hb hab
  have le : (sortDescending l).getD b 0 ≤ (sortDescending l).getD a 0 :=
    sorted a b (by unfold sortDescending at ha hb; omega) hab hb
  rw [List.getD_eq_getElem _ _ hb, List.getD_eq_getElem _ _ ha] at le
  have ne : (sortDescending l)[a] ≠ (sortDescending l)[b] := List.pairwise_iff_getElem.1 distinct a b ha hb hab
  omega

/-! ## Ordered removal -/

variable {α : Type}

/-- `for (i = idx; i < size - 1; ++i) set(i, get(i + 1)); pop();` -/
def removeAt (l : List α) (idx : Nat) : List α :=
  ((List.range' idx (l.length - 1 - idx)).foldl
    (fun m i => match m[i + 1]? with | some x => m.set i x | none => m) l).dropLast

/-- The list after `k` shifts. -/
theorem removeAt_loop (l : List α) (idx k : Nat) (hk : idx + k < l.length) :
    let m := (List.range' idx k).foldl (fun m i => match m[i + 1]? with | some x => m.set i x | none => m) l
    m.length = l.length ∧ ∀ j, m[j]? = if idx ≤ j ∧ j < idx + k then l[j + 1]? else l[j]? := by
  induction k with
  | zero => exact ⟨rfl, fun j => by rw [if_neg (by omega)]; rfl⟩
  | succ k ih =>
    obtain ⟨length, elements⟩ := ih (by omega)
    have hk : idx + k + 1 < l.length := hk
    rw [List.range'_concat, List.foldl_append]
    simp only [List.foldl_cons, List.foldl_nil, Nat.one_mul]
    have next := elements (idx + k + 1)
    rw [if_neg (by omega), List.getElem?_eq_getElem hk] at next
    simp only [next]
    refine ⟨by rw [List.length_set, length], fun j => ?_⟩
    rw [List.getElem?_set, length]
    by_cases here : idx + k = j
    · subst here
      rw [if_pos rfl, if_pos (by omega), if_pos (by omega), List.getElem?_eq_getElem hk]
    · rw [if_neg here, elements j]
      by_cases shifted : idx ≤ j ∧ j < idx + k
      · rw [if_pos shifted, if_pos (by omega)]
      · rw [if_neg shifted, if_neg (by omega)]

theorem removeAt_eq_eraseIdx {l : List α} {idx : Nat} (h : idx < l.length) : removeAt l idx = l.eraseIdx idx := by
  obtain ⟨length, elements⟩ := removeAt_loop l idx (l.length - 1 - idx) (by omega)
  apply List.ext_getElem?
  intro j
  rw [removeAt, List.getElem?_dropLast, List.getElem?_eraseIdx, length, elements]
  by_cases inside : j < l.length - 1
  · rw [if_pos inside]
    by_cases before : j < idx
    · rw [if_pos before, if_neg (by omega)]
    · rw [if_neg before, if_pos (by omega)]
  · rw [if_neg inside, if_neg (by omega), List.getElem?_eq_none (by omega)]

/-- Remove several positions, one after the other. -/
def removeAll (l : List α) (idxs : List Nat) : List α := idxs.foldl removeAt l

/-- Positions below a removed one are still inside. -/
theorem inside_eraseIdx {l : List α} {i : Nat} {rest : List Nat} (hi : i < l.length) (below : ∀ j ∈ rest, i > j) :
    ∀ j ∈ rest, j < (l.eraseIdx i).length := fun j hj => by
  have := below j hj
  rw [List.length_eraseIdx_of_lt hi]
  omega

/-- **Removal**: positions removed in descending order leave, with the elements at them, the
whole list. -/
theorem removeAll_perm {l : List α} {idxs : List Nat} (sorted : idxs.Pairwise (· > ·))
    (inside : ∀ i ∈ idxs, i < l.length) : (idxs.filterMap (l[·]?) ++ removeAll l idxs).Perm l := by
  induction idxs generalizing l with
  | nil => exact .rfl
  | cons i rest ih =>
    obtain ⟨below, sorted⟩ := List.pairwise_cons.1 sorted
    have hi : i < l.length := inside i List.mem_cons_self
    -- the positions still to come are below `i`, where nothing has moved
    have same : rest.filterMap (l[·]?) = rest.filterMap ((l.eraseIdx i)[·]?) := by
      apply List.filterMap_congr
      intro j hj
      rw [List.getElem?_eraseIdx_of_lt (below j hj)]
    have others := ih sorted (inside_eraseIdx hi below)
    rw [removeAll, List.foldl_cons, removeAt_eq_eraseIdx hi, List.filterMap_cons, List.getElem?_eq_getElem hi, same]
    exact (others.cons _).trans (List.getElem_cons_eraseIdx_perm hi)

/-- What is left keeps its order. -/
theorem removeAll_sublist {l : List α} {idxs : List Nat} (sorted : idxs.Pairwise (· > ·))
    (inside : ∀ i ∈ idxs, i < l.length) : (removeAll l idxs).Sublist l := by
  induction idxs generalizing l with
  | nil => exact .refl l
  | cons i rest ih =>
    obtain ⟨below, sorted⟩ := List.pairwise_cons.1 sorted
    have hi : i < l.length := inside i List.mem_cons_self
    rw [removeAll, List.foldl_cons, removeAt_eq_eraseIdx hi]
    exact (ih sorted (inside_eraseIdx hi below)).trans (List.eraseIdx_sublist l i)

/-- What is left stood at some other position. -/
theorem mem_removeAll {l : List α} {idxs : List Nat} (sorted : idxs.Pairwise (· > ·)) (inside : ∀ i ∈ idxs, i < l.length)
    {x : α} (left : x ∈ removeAll l idxs) : ∃ j, j ∉ idxs ∧ l[j]? = some x := by
  induction idxs generalizing l with
  | nil =>
    obtain ⟨j, found⟩ := List.mem_iff_getElem?.1 left
    exact ⟨j, List.not_mem_nil, found⟩
  | cons i rest ih =>
    obtain ⟨below, sorted⟩ := List.pairwise_cons.1 sorted
    have hi : i < l.length := inside i List.mem_cons_self
    rw [removeAll, List.foldl_cons, removeAt_eq_eraseIdx hi] at left
    obtain ⟨j, free, found⟩ := ih sorted (inside_eraseIdx hi below) left
    rw [List.getElem?_eraseIdx] at found
    split at found
    · refine ⟨j, ?_, found⟩
      rw [List.mem_cons, not_or]
      exact ⟨by omega, free⟩
    · -- behind `i` the positions have moved down by one
      refine ⟨j + 1, ?_, found⟩
      rw [List.mem_cons, not_or]
      exact ⟨by omega, fun mem => by have := below _ mem; omega⟩

end Lib
