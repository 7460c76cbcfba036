import MagelessChain.Lib.OrderedStore

/-!
# The block timestamp tracker

`storage/BlockTimestampTracker.{h,cpp}`: an ordered store of (timestamp, block number) pairs in
`timestamps.bin`. libexcessive's `BTree` is taken as an `OrderedStore` under `compare`.
-/

namespace MagelessChain

open Lib Std

/-- `block_timestamp_entry_t`. -/
structure TimestampEntry where
  timestamp : UInt64
  blockNumber : UInt64
  deriving DecidableEq, Repr

namespace TimestampEntry

/-- `block_timestamp_entry_t::compare`. -/
def compare (a b : TimestampEntry) : Ordering :=
  if a.timestamp < b.timestamp then .lt
  else if a.timestamp > b.timestamp then .gt
  else if a.blockNumber < b.blockNumber then .lt
  else if a.blockNumber > b.blockNumber then .gt
  else .eq

/-- `block_timestamp_entry_t::successor`. -/
def successor (s : TimestampEntry) : TimestampEntry :=
  if s.blockNumber ≠ UInt64.ofNat (2 ^ 64 - 1) then { s with blockNumber := s.blockNumber + 1 }
  else if s.timestamp ≠ UInt64.ofNat (2 ^ 64 - 1) then ⟨s.timestamp + 1, 0⟩
  else { s with blockNumber := 0 }

/-- The order of the tracker is lexicographic. -/
theorem compare_eq_lex : compare = compareLex (compareOn timestamp) (compareOn blockNumber) := by
  funext a b
  simp only [compare, compareLex, compareOn, lt_gt_eq_then, Ordering.then_eq]

instance : TransCmp compare := by
  rw [compare_eq_lex]
  infer_instance

theorem eq_of_compare {a b : TimestampEntry} (h : compare a b = .eq) : a = b := by
  rw [compare_eq_lex] at h
  simp only [compareLex, compareOn, Ordering.then_eq_eq, Std.compare_eq_iff_eq] at h
  obtain ⟨time, number⟩ := h
  cases a
  cases b
  simp_all

/-- The fields as one number. -/
def rank (s : TimestampEntry) : Nat := s.timestamp.toNat * 2 ^ 64 + s.blockNumber.toNat

theorem compare_eq_rank (a b : TimestampEntry) : compare a b = Ord.compare a.rank b.rank := by
  rw [rank, rank, compare_digits a.blockNumber.toNat_lt b.blockNumber.toNat_lt, compare_eq_lex]
  simp only [compareLex, compareOn]
  rw [compare_toNat fun _ _ => UInt64.lt_iff_toNat_lt, compare_toNat (α := UInt64) fun _ _ => UInt64.lt_iff_toNat_lt]

/-- The greatest entry there is. -/
def IsLast (s : TimestampEntry) : Prop :=
  s.timestamp = UInt64.ofNat (2 ^ 64 - 1) ∧ s.blockNumber = UInt64.ofNat (2 ^ 64 - 1)

/-- `successor` counts up, with a carry into the timestamp. -/
theorem rank_successor {s : TimestampEntry} (more : ¬ s.IsLast) : s.successor.rank = s.rank + 1 := by
  unfold successor
  split
  · rename_i below
    have up := toNat_add_one below
    unfold rank
    dsimp only
    omega
  · rename_i number
    have number := not_not.1 number
    have low : s.blockNumber.toNat = 2 ^ 64 - 1 := by rw [number]; rfl
    have below : s.timestamp ≠ UInt64.ofNat (2 ^ 64 - 1) := fun last => more ⟨last, number⟩
    rw [if_pos below]
    have up := toNat_add_one below
    have zero : (0 : UInt64).toNat = 0 := rfl
    unfold rank
    dsimp only
    omega

/-- `successor` moves a cursor just past an entry whose block number is not the last `uint64_t`. -/
theorem successor_isLE {r : TimestampEntry} (small : r.blockNumber.toNat + 1 < 2 ^ 64) (x : TimestampEntry) :
    (compare r.successor x).isLE ↔ compare r x = .lt := by
  have more : ¬ r.IsLast := by
    rintro ⟨-, last⟩
    rw [last] at small
    exact absurd small (by decide)
  exact isLE_of_rank_succ compare_eq_rank (rank_successor more) x

/-- An entry at or below another is no later. -/
theorem timestamp_of_isLE {a b : TimestampEntry} (le : (compare a b).isLE) : a.timestamp ≤ b.timestamp := by
  rw [compare_eq_lex] at le
  simp only [compareLex, compareOn] at le
  exact Std.isLE_compare.1 (Ordering.isLE_left_of_isLE_then le)

end TimestampEntry

section Tracker

variable {τ : Type} [OrderedStore τ TimestampEntry TimestampEntry.compare]

/-- `BlockTimestampTracker::addBlock`. -/
def trackBlock (index : τ) (timestamp blockNumber : UInt64) : τ :=
  OrderedStore.insert index ⟨timestamp, blockNumber⟩

/-- `BlockTimestampTracker::getBlocksInWindow`, in at most `fuel` rounds of its loop. -/
def getBlocksInWindow (fuel : Nat) (index : τ) (startMillis endMillis : UInt64) : Option (List UInt64) :=
  (OrderedStore.walk (fun _ => index) (fun cursor => decide (cursor.timestamp > endMillis)) TimestampEntry.successor fuel
    ⟨startMillis, 0⟩).map (·.map TimestampEntry.blockNumber)

/-- **The walk of a window**: it ends, with the entries of the window in ascending order. -/
theorem getBlocksInWindow_exact {index : τ} (small : ∀ r ∈ OrderedStore.records index, r.blockNumber.toNat + 1 < 2 ^ 64)
    (startMillis endMillis : UInt64) :
    ∃ entries : List TimestampEntry, entries.Pairwise (fun a b => TimestampEntry.compare a b = .lt) ∧
      (∀ e, e ∈ entries ↔ e ∈ OrderedStore.records index ∧ startMillis ≤ e.timestamp ∧ e.timestamp ≤ endMillis) ∧
      ∀ fuel, (OrderedStore.records index).length < fuel →
        getBlocksInWindow fuel index startMillis endMillis = some (entries.map TimestampEntry.blockNumber) := by
  have adv : OrderedStore.Advances (fun _ => index) (fun cursor => decide (cursor.timestamp > endMillis))
      TimestampEntry.successor := fun _ r here _ x => TimestampEntry.successor_isLE (small r here) x
  obtain ⟨entries, ends⟩ : ∃ entries, OrderedStore.walk (fun _ => index) (fun cursor => decide (cursor.timestamp > endMillis))
      TimestampEntry.successor ((OrderedStore.records index).length + 1) ⟨startMillis, 0⟩ = some entries :=
    OrderedStore.walk_ends_of_const adv (Nat.lt_succ_self _)
  refine ⟨entries, OrderedStore.walk_sorted adv ends, fun e => ⟨fun visited => ?_, ?_⟩, fun fuel enough => ?_⟩
  · obtain ⟨passes, above, -, here⟩ := OrderedStore.mem_of_mem_walk adv ends e visited
    have last : ¬ e.timestamp > endMillis := of_decide_eq_false passes
    exact ⟨here, TimestampEntry.timestamp_of_isLE above, UInt64.not_lt.1 last⟩
  · rintro ⟨here, first, last⟩
    have above : (TimestampEntry.compare ⟨startMillis, 0⟩ e).isLE := by
      rw [TimestampEntry.compare_eq_lex]
      simp only [compareLex, compareOn]
      have zero : (Ord.compare (0 : UInt64) e.blockNumber).isLE := Std.isLE_compare.2 (UInt64.zero_le)
      have time : (Ord.compare startMillis e.timestamp).isLE := Std.isLE_compare.2 first
      cases order : Ord.compare startMillis e.timestamp with
      | lt => rfl
      | eq => simpa using zero
      | gt => rw [order] at time; cases time
    obtain ⟨v, visited, same⟩ := OrderedStore.mem_walk adv ends (fun _ => ⟨e, here, ReflCmp.compare_self⟩) above
      (fun _ r _ _ before => by
        have no_later := UInt64.le_trans (TimestampEntry.timestamp_of_isLE before) last
        exact decide_eq_false (UInt64.not_lt.2 no_later))
    rw [← TimestampEntry.eq_of_compare same]
    exact visited
  · rw [getBlocksInWindow, OrderedStore.walk_mono ends enough]
    rfl

end Tracker

end MagelessChain
