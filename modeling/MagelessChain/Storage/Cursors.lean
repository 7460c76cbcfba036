import MagelessChain.Storage.BlockTimestampTracker
import MagelessChain.Storage.CatalogOrder

/-!
# Cursors

A loop over a `BTree` moves its cursor by `successor` to the least key above the one it is at, with
a carry from field to field; only at the greatest key there is does it go wrong and return a lesser
one. `forEachSegment` puts its first cursor at the start of the block range, so a segment that starts
before the range and reaches into it is never come to.
-/

namespace MagelessChain

open Lib OrderedStore Std

/-! ## Successors -/

/-- The fields a segment index compares. -/
def SegmentMetadata.key (s : SegmentMetadata) : UInt16 × UInt64 × UInt32 := (s.indexId, s.blockRangeStart, s.mergeGeneration)

theorem SegmentMetadata.compare_eq_iff (a b : SegmentMetadata) : SegmentMetadata.compare a b = .eq ↔ a.key = b.key := by
  rw [SegmentMetadata.key, SegmentMetadata.key, Prod.mk.injEq, Prod.mk.injEq]
  constructor
  · exact SegmentMetadata.compare_eq
  · rintro ⟨index, start, generation⟩
    rw [SegmentMetadata.compare_eq_lex]
    simp [compareLex, compareOn, index, start, generation]

/-- Nothing is above the greatest key. -/
theorem SegmentMetadata.IsLast.not_lt {s : SegmentMetadata} (last : s.IsLast) (x : SegmentMetadata) :
    SegmentMetadata.compare s x ≠ .lt := by
  obtain ⟨index, start, generation⟩ := last
  have index : s.indexId.toNat = 2 ^ 16 - 1 := by rw [index]; rfl
  have start : s.blockRangeStart.toNat = 2 ^ 64 - 1 := by rw [start]; rfl
  have generation : s.mergeGeneration.toNat = 2 ^ 32 - 1 := by rw [generation]; rfl
  have index' := x.indexId.toNat_lt
  have start' := x.blockRangeStart.toNat_lt
  have generation' := x.mergeGeneration.toNat_lt
  rw [SegmentMetadata.compare_eq_rank, Ne, Std.compare_eq_lt]
  unfold SegmentMetadata.rank
  omega

theorem SegmentMetadata.isSuccessor_iff (s : SegmentMetadata) :
    IsSuccessor SegmentMetadata.compare s s.successor ↔ ¬ s.IsLast := by
  constructor
  · intro exact last
    have same := congrArg SegmentMetadata.mergeGeneration (exact.last last.not_lt)
    obtain ⟨index, start, generation⟩ := last
    rw [SegmentMetadata.successor, if_neg (not_not.2 generation), if_neg (not_not.2 start), if_neg (not_not.2 index),
      generation] at same
    change (0 : UInt32) = _ at same
    exact absurd same (by decide)
  · intro more
    exact isSuccessor_of_rank SegmentMetadata.compare_eq_rank (SegmentMetadata.rank_successor more)

theorem TimestampEntry.compare_eq_iff (a b : TimestampEntry) : TimestampEntry.compare a b = .eq ↔ a = b := by
  constructor
  · exact TimestampEntry.eq_of_compare
  · rintro rfl
    exact ReflCmp.compare_self

theorem TimestampEntry.IsLast.not_lt {s : TimestampEntry} (last : s.IsLast) (x : TimestampEntry) :
    TimestampEntry.compare s x ≠ .lt := by
  obtain ⟨time, number⟩ := last
  have time : s.timestamp.toNat = 2 ^ 64 - 1 := by rw [time]; rfl
  have number : s.blockNumber.toNat = 2 ^ 64 - 1 := by rw [number]; rfl
  have time' := x.timestamp.toNat_lt
  have number' := x.blockNumber.toNat_lt
  rw [TimestampEntry.compare_eq_rank, Ne, Std.compare_eq_lt]
  unfold TimestampEntry.rank
  omega

theorem TimestampEntry.isSuccessor_iff (s : TimestampEntry) :
    IsSuccessor TimestampEntry.compare s s.successor ↔ ¬ s.IsLast := by
  constructor
  · intro exact last
    have same := congrArg TimestampEntry.blockNumber (exact.last last.not_lt)
    obtain ⟨time, number⟩ := last
    rw [TimestampEntry.successor, if_neg (not_not.2 number), if_neg (not_not.2 time), number] at same
    change (0 : UInt64) = _ at same
    exact absurd same (by decide)
  · intro more
    exact isSuccessor_of_rank TimestampEntry.compare_eq_rank (TimestampEntry.rank_successor more)

/-- **Successor functions**: `compare` is a total order of the key fields, in which `successor` returns
the least key above its argument, for every key but the greatest. -/
theorem successors_exact (s : SegmentMetadata) (t : TimestampEntry) :
    (TransCmp SegmentMetadata.compare ∧ ∀ a b, SegmentMetadata.compare a b = .eq ↔ a.key = b.key) ∧
    (TransCmp TimestampEntry.compare ∧ ∀ a b, TimestampEntry.compare a b = .eq ↔ a = b) ∧
    (IsSuccessor SegmentMetadata.compare s s.successor ↔ ¬ s.IsLast) ∧
    (IsSuccessor TimestampEntry.compare t t.successor ↔ ¬ t.IsLast) :=
  ⟨⟨inferInstance, SegmentMetadata.compare_eq_iff⟩, ⟨inferInstance, TimestampEntry.compare_eq_iff⟩,
    s.isSuccessor_iff, t.isSuccessor_iff⟩

/-- The greatest segment key. -/
def lastSegment : SegmentMetadata :=
  ⟨UInt64.ofNat (2 ^ 64 - 1), 0, 0, 0, 0, UInt32.ofNat (2 ^ 32 - 1), UInt16.ofNat (2 ^ 16 - 1), 0⟩

/-- The greatest entry of the timestamp tracker. -/
def lastEntry : TimestampEntry := ⟨UInt64.ofNat (2 ^ 64 - 1), UInt64.ofNat (2 ^ 64 - 1)⟩

/-- After the greatest key the lower fields start again at zero, below it. -/
theorem successors_wrap :
    SegmentMetadata.compare lastSegment.successor lastSegment = .lt ∧
      ¬ IsSuccessor SegmentMetadata.compare lastSegment lastSegment.successor ∧
    TimestampEntry.compare lastEntry.successor lastEntry = .lt ∧
      ¬ IsSuccessor TimestampEntry.compare lastEntry lastEntry.successor := by
  refine ⟨by decide, ?_, by decide, ?_⟩
  · rw [SegmentMetadata.isSuccessor_iff, not_not]
    exact ⟨rfl, rfl, rfl⟩
  · rw [TimestampEntry.isSuccessor_iff, not_not]
    exact ⟨rfl, rfl⟩

/-! ## The segments of a window -/

/-- A segment of the index that meets the blocks from `startBlock` to `endBlock`. -/
structure SegmentMetadata.Intersects (m : SegmentMetadata) (indexId : UInt16) (startBlock endBlock : UInt64) : Prop where
  index : m.indexId = indexId
  first : m.blockRangeStart ≤ endBlock
  reaches : startBlock < m.blockRangeEnd

/-- A segment of the index that starts before a block and goes on past it. -/
structure SegmentMetadata.Straddles (m : SegmentMetadata) (indexId : UInt16) (startBlock : UInt64) : Prop where
  index : m.indexId = indexId
  before : m.blockRangeStart < startBlock
  past : startBlock < m.blockRangeEnd

/-- The callback comes to exactly the segments that meet the window, once each and in ascending
order. -/
structure EnumeratesWindow {σ : Type} [OrderedStore σ SegmentMetadata SegmentMetadata.compare] (segmentIndex : σ)
    (indexId : UInt16) (startBlock endBlock : UInt64) (visited : List SegmentMetadata) : Prop where
  ascending : visited.Pairwise SegmentMetadata.NotAfter
  once : visited.Nodup
  exact : ∀ m, m ∈ visited ↔ m ∈ records segmentIndex ∧ m.Intersects indexId startBlock endBlock

section Window

variable {σ : Type} [OrderedStore σ SegmentMetadata SegmentMetadata.compare] {segmentIndex : σ} {indexId : UInt16}
  {startBlock endBlock : UInt64}

/-- What starts at a block of the window or later meets the window if it starts in it. -/
theorem SegmentMetadata.wanted_iff {m : SegmentMetadata} (range : m.blockRangeStart < m.blockRangeEnd) :
    m.Wanted indexId startBlock endBlock ↔
      m.Intersects indexId startBlock endBlock ∧ ¬ m.Straddles indexId startBlock := by
  constructor
  · rintro ⟨index, start, last⟩
    refine ⟨⟨index, last, UInt64.lt_of_le_of_lt start range⟩, fun straddles => ?_⟩
    exact UInt64.lt_irrefl _ (UInt64.lt_of_le_of_lt start straddles.before)
  · rintro ⟨⟨index, last, reaches⟩, inside⟩
    refine ⟨index, UInt64.not_lt.1 fun before => inside ⟨index, before, reaches⟩, last⟩

/-- **The segments of a window**: `forEachSegment` ends, and its callback comes to the segments that
meet the window exactly when none of the index straddles the first block. -/
theorem forEachSegment_window (segmentIndex : σ) (indexId : UInt16) (startBlock endBlock : UInt64)
    (ordered : startBlock ≤ endBlock)
    (content : ∀ m ∈ records segmentIndex, m.blockRangeStart < m.blockRangeEnd ∧ m.mergeGeneration.toNat ≤ 65535) :
    ∃ visited, (∀ fuel, (records segmentIndex).length < fuel →
        forEachSegment fuel segmentIndex indexId startBlock endBlock = some visited) ∧
      (EnumeratesWindow segmentIndex indexId startBlock endBlock visited ↔
        ∀ m ∈ records segmentIndex, ¬ m.Straddles indexId startBlock) := by
  have hasNext : ∀ m ∈ records segmentIndex, m.HasNext := by
    intro m stored last
    have small := (content m stored).2
    rw [last] at small
    exact absurd small (by decide)
  obtain ⟨visited, ends⟩ := forEachSegment_ends hasNext indexId startBlock endBlock
  have visits := ends _ (Nat.lt_succ_self _)
  have visited_iff : ∀ m, m ∈ visited ↔ m ∈ records segmentIndex ∧ m.Intersects indexId startBlock endBlock ∧
      ¬ m.Straddles indexId startBlock := by
    intro m
    rw [forEachSegment_iff hasNext visits]
    constructor
    · rintro ⟨stored, wanted, -⟩
      exact ⟨stored, (SegmentMetadata.wanted_iff (content m stored).1).1 wanted⟩
    · rintro ⟨stored, meets, inside⟩
      exact ⟨stored, (SegmentMetadata.wanted_iff (content m stored).1).2 ⟨meets, inside⟩,
        UInt64.le_of_lt meets.reaches⟩
  refine ⟨visited, ends, ?_⟩
  constructor
  · intro enumerates m stored straddles
    -- a straddling segment meets the window as well
    have meets : m.Intersects indexId startBlock endBlock :=
      ⟨straddles.index, UInt64.le_of_lt (UInt64.lt_of_lt_of_le straddles.before ordered), straddles.past⟩
    have mem := (enumerates.exact m).2 ⟨stored, meets⟩
    exact ((visited_iff m).1 mem).2.2 straddles
  · intro inside
    constructor
    · exact forEachSegment_ascending hasNext visits
    · exact (forEachSegment_sound hasNext visits).1
    · intro m
      rw [visited_iff]
      exact ⟨fun ⟨stored, meets, _⟩ => ⟨stored, meets⟩, fun ⟨stored, meets⟩ => ⟨stored, meets, inside m stored⟩⟩

end Window

/-- An index with a segment of the blocks 0 to 9 and one of block 10. -/
def mergedIndex : SortedRecords SegmentMetadata SegmentMetadata.compare :=
  OrderedStore.insert (OrderedStore.insert OrderedStore.empty ⟨0, 10, 0, 0, 0, 1, 3, 1⟩) ⟨10, 11, 0, 0, 0, 0, 3, 1⟩

theorem mergedIndex_content :
    ∀ m ∈ records mergedIndex, m.blockRangeStart < m.blockRangeEnd ∧ m.mergeGeneration.toNat ≤ 65535 := by
  decide

theorem forEachSegment_window_merged : ∃ visited, (∀ fuel, (records mergedIndex).length < fuel →
      forEachSegment fuel mergedIndex 3 0 20 = some visited) ∧ EnumeratesWindow mergedIndex 3 0 20 visited := by
  obtain ⟨visited, ends, exact⟩ := forEachSegment_window mergedIndex 3 0 20 (by decide) mergedIndex_content
  refine ⟨visited, ends, exact.2 fun m _ straddles => ?_⟩
  exact UInt64.not_lt_zero straddles.before

/-- A query from block 5 on passes over the segment of the blocks 0 to 9. -/
theorem forEachSegment_passes_over : ∃ visited, (∀ fuel, (records mergedIndex).length < fuel →
      forEachSegment fuel mergedIndex 3 5 20 = some visited) ∧ visited.map SegmentMetadata.blockRangeStart = [10] ∧
    ¬ EnumeratesWindow mergedIndex 3 5 20 visited := by
  obtain ⟨visited, ends, exact⟩ := forEachSegment_window mergedIndex 3 5 20 (by decide) mergedIndex_content
  refine ⟨visited, ends, ?_, ?_⟩
  · have walked : (forEachSegment 3 mergedIndex 3 5 20).map (·.map SegmentMetadata.blockRangeStart) = some [10] := by decide
    rw [ends 3 (by decide)] at walked
    exact Option.some.inj walked
  · intro enumerates
    have inside := exact.1 enumerates ⟨0, 10, 0, 0, 0, 1, 3, 1⟩ (by decide)
    exact inside ⟨rfl, by decide, by decide⟩

end MagelessChain
