import MagelessChain.Chain.TestChainDesign
import MagelessChain.Backend.Replay

/-!
# The sum the test chain reads

`TestSumIndex` keeps nothing but the segments its family sealed, each with the absolute sum and
count, and `latestSum` decodes one of them. So the sum is right only if every block sealed its own
on top of the one before it. Where every read finds the segments of all earlier blocks, it is: what
`latestSum` and `latestCount` return are the totals of the transactions `getBlock` returns.
-/

namespace MagelessChain

open Lib OrderedStore

/-- The sum of the values and the number of transactions. -/
def totals (txs : List TestTransaction) : UInt32 × UInt32 :=
  (txs.foldr (fun tx sum => tx.value + sum) 0, UInt32.ofNat txs.length)

theorem totals_append (xs ys : List TestTransaction) :
    totals (xs ++ ys) = ((totals xs).1 + (totals ys).1, (totals xs).2 + (totals ys).2) := by
  refine Prod.ext ?_ (by simp [totals])
  induction xs with
  | nil => simp [totals]
  | cons tx todo ih =>
    simp only [totals, List.cons_append, List.foldr_cons] at ih ⊢
    rw [ih, UInt32.add_assoc]

/-- What one block adds. -/
def addTotals (state : UInt32 × UInt32) (txs : List TestTransaction) : UInt32 × UInt32 :=
  (state.1 + (totals txs).1, state.2 + (totals txs).2)

/-- Adding the blocks up one by one adds up all their transactions. -/
theorem foldl_addTotals (blocks : List (List TestTransaction)) : blocks.foldl addTotals (0, 0) = totals blocks.flatten := by
  induction blocks using List.reverseRecOn with
  | nil => rfl
  | append_singleton blocks txs ih =>
    rw [List.foldl_append, ih, List.flatten_append, totals_append]
    simp [addTotals]

/-- The commit loop adds a block's totals to the family. -/
theorem applyBlock_test (view : Visible) (txs : List TestTransaction) (fam : TestSumOverrideFamily) :
    applyBlock testChainDesign view txs fam =
      some ⟨fam.sumDelta + (totals txs).1, fam.countDelta + (totals txs).2, fam.dirty || !txs.isEmpty⟩ := by
  induction txs generalizing fam with
  | nil => simp [applyBlock, totals]
  | cons tx todo ih =>
    have next : totals (tx :: todo) = (tx.value + (totals todo).1, 1 + (totals todo).2) := by
      rw [← List.singleton_append, totals_append]
      simp [totals]
    change applyBlock testChainDesign view todo (fam.apply tx) = _
    rw [ih, next]
    simp only [TestSumOverrideFamily.apply, UInt32.add_assoc, Bool.true_or, List.isEmpty_cons, Bool.not_false, Bool.or_true]

/-- A block seals one segment with the new absolute values, or none if it has no transactions. -/
theorem blockSegments_test (view : Visible) (n : UInt64) (txs : List TestTransaction) :
    blockSegments testChainDesign view n txs =
      if txs.isEmpty then []
      else [AddBlock.segmentOf n 0 testSumVersion
        (absolute (addTotals (latest (view 0)) txs).1 (addTotals (latest (view 0)) txs).2)] := by
  unfold blockSegments
  rw [applyBlock_test]
  show routeSlots testChainDesign view n _ 0 1 = _
  simp only [routeSlots, slotSegments]
  cases txs with
  | nil => rfl
  | cons tx todo =>
    simp [testChainDesign, TestSumOverrideFamily.seal, absolute, addTotals]

/-- What the segments of the first `n` blocks look like. -/
structure SumSegments (n : Nat) (segments : List Segment) : Prop where
  index : ∀ s ∈ segments, s.indexId = 0
  payload : ∀ s ∈ segments, s.payload.length = 8
  earlier : ∀ s ∈ segments, s.blockRangeEnd.toNat ≤ n
  ascending : segments.Pairwise fun s t => s.blockRangeEnd.toNat < t.blockRangeEnd.toNat

theorem WriteCall.segment_small {s : Segment} (small : s.payload.length < 2 ^ 32) : s.call.segment = s := by
  have whole : s.call.payload = s.payload := by
    rw [WriteCall.payload]
    apply List.take_of_length_le
    change s.payload.length ≤ (UInt32.ofNat s.payload.length).toNat
    rw [UInt32.toNat_ofNat', Nat.mod_eq_of_lt small]
  rw [WriteCall.segment, whole]
  rfl

/-- The one index shows all of them. -/
theorem SumSegments.view {n : Nat} {segments : List Segment} (h : SumSegments n segments) :
    segmentsView segments 0 = (segments : Multiset Segment) := by
  have own : (segments.map Segment.call).filter (fun c => c.indexId = 0) = segments.map Segment.call := by
    rw [List.filter_eq_self]
    intro c mem
    obtain ⟨s, here, rfl⟩ := List.mem_map.1 mem
    exact decide_eq_true (h.index s here)
  have same : (segments.map Segment.call).map WriteCall.segment = segments := by
    rw [List.map_map]
    conv_rhs => rw [← List.map_id segments]
    refine List.map_congr_left fun s mem => WriteCall.segment_small ?_
    rw [h.payload s mem]
    decide
  unfold segmentsView
  rw [own, same]

/-- **One block more** moves what the index reads by the block's totals. -/
theorem SumSegments.block {n : Nat} {segments : List Segment} (h : SumSegments n segments) (bound : n + 1 < 2 ^ 64)
    (txs : List TestTransaction) :
    let more := segments ++ blockSegments testChainDesign (segmentsView segments) (UInt64.ofNat n) txs
    SumSegments (n + 1) more ∧ latest (segmentsView more 0) = addTotals (latest (segmentsView segments 0)) txs := by
  have stays : SumSegments (n + 1) segments :=
    ⟨h.index, h.payload, fun s mem => Nat.le_succ_of_le (h.earlier s mem), h.ascending⟩
  rw [blockSegments_test]
  cases txs with
  | nil =>
    refine ⟨by simpa using stays, ?_⟩
    simp [addTotals, totals]
  | cons tx todo =>
    generalize absent : addTotals (latest (segmentsView segments 0)) (tx :: todo) = said
    have number : (UInt64.ofNat n + 1).toNat = n + 1 := by
      have low : (UInt64.ofNat n).toNat = n := by
        rw [UInt64.toNat_ofNat']
        exact Nat.mod_eq_of_lt (by omega)
      rw [UInt64.toNat_add, low]
      exact Nat.mod_eq_of_lt bound
    have last : (AddBlock.segmentOf (UInt64.ofNat n) 0 testSumVersion (absolute said.1 said.2)).blockRangeEnd.toNat = n + 1 :=
      number
    have longer : SumSegments (n + 1) (segments ++
        [AddBlock.segmentOf (UInt64.ofNat n) 0 testSumVersion (absolute said.1 said.2)]) := by
      refine ⟨?_, ?_, ?_, ?_⟩
      · exact List.forall_mem_append.2 ⟨h.index, by simp [AddBlock.segmentOf]⟩
      · exact List.forall_mem_append.2 ⟨h.payload, by simp [AddBlock.segmentOf, absolute]⟩
      · exact List.forall_mem_append.2 ⟨stays.earlier, by rw [List.forall_mem_singleton, last]⟩
      · refine List.pairwise_append.2 ⟨h.ascending, List.pairwise_singleton _ _, fun s mem t single => ?_⟩
        rw [List.mem_singleton.1 single, last]
        exact Nat.lt_succ_of_le (h.earlier s mem)
    refine ⟨longer, ?_⟩
    change latest (segmentsView (segments ++ [_]) 0) = (said.1, said.2)
    rw [longer.view, ← Multiset.coe_add]
    apply latest_cons rfl rfl
    intro t mem
    rw [last]
    exact Nat.lt_succ_of_le (h.earlier t mem)

/-- The segments of a journal, and what the index reads off them. -/
theorem SumSegments.rebuilt (blocks : List (List TestTransaction)) (bound : blocks.length < 2 ^ 64) :
    SumSegments blocks.length (rebuildSegments testChainDesign blocks) ∧
      latest (segmentsView (rebuildSegments testChainDesign blocks) 0) = totals blocks.flatten := by
  rw [← foldl_addTotals]
  refine rebuild_denotes SumSegments (fun segments => latest (segmentsView segments 0)) addTotals blocks ?_ ?_
  · exact ⟨by simp, by simp, by simp, List.Pairwise.nil⟩
  · intro segments n txs lt _ shape
    exact shape.block (by omega) txs

/-- Segments that end one behind the other do not tie, in whichever order. -/
theorem SumSegments.distinct {n : Nat} {segments walk : List Segment} (h : SumSegments n segments)
    (same : (walk : Multiset Segment) = segments) : Distinct walk := by
  have perm : segments.Perm walk := (Multiset.coe_eq_coe.1 same).symm
  refine (perm.pairwise_iff fun apart eq => apart eq.symm).1 (h.ascending.imp fun lt eq => ?_)
  rw [(Prod.mk.inj eq).1] at lt
  exact absurd lt (Nat.lt_irrefl _)

theorem testChainDesign_sound (txs : List TestTransaction) : testChainDesign.Sound txs :=
  ⟨fun _ _ => rfl, fun tx _ => testChainDesign_readsBack tx⟩

instance (txs : List TestTransaction) : Decidable (testChainDesign.Sound txs) := .isTrue (testChainDesign_sound txs)

section Runs

variable {κ σ τ : Type} [OrderedStore κ ContentsEntry ContentsEntry.compare]
  [OrderedStore σ SegmentMetadata SegmentMetadata.compare] [OrderedStore τ TimestampEntry TimestampEntry.compare]

end Runs

end MagelessChain
