import MagelessChain.Backend.RoundTrip

/-!
# What a failed `addBlock` leaves

A block that is rejected or fails verification leaves no trace. Once it is in the journal it
stays there: when the second round of applies, a `seal` or `Catalog::writeSegment` throws, the
block is committed and only the segments of the slots before the failing one have been routed.
-/

namespace MagelessChain

open Lib

variable {τ Tx Ov : Type} [OrderedStore τ TimestampEntry TimestampEntry.compare]

/-- The stores of a backend that a commit changes are the same. -/
def Unchanged (b b' : Backend τ) : Prop :=
  b'.metadata.currentBlockHeight = b.metadata.currentBlockHeight ∧
  b'.metadata.lastBlockTimestamp = b.metadata.lastBlockTimestamp ∧
  b'.epochs = b.epochs ∧ b'.timestamps = b.timestamps ∧ b'.submitted = b.submitted

/-- The block is committed: it is the next one of the header, the tracker and the journal. Of the
slots of some override `ov`, the first `i` are routed. -/
structure CommittedUpTo (d : ChainDesign Tx Ov) (b b' : Backend τ) (txs : List Tx) (millis : UInt64) (i : Nat)
    (ov : Ov) : Prop where
  stored : ∃ segments, Routed d b.metadata.currentBlockHeight ov i segments ∧
    Stored b b' b.metadata.currentBlockHeight millis
      (trackBlock b.timestamps millis b.metadata.currentBlockHeight) segments
  journal : ∀ blocks, Journal d b blocks → blocks.length < maxBlocks → Fits d b (epochBlocks blocks) txs →
    Journal d b' (blocks ++ [txs])

section Outcomes

variable {d : ChainDesign Tx Ov} {config : BlockchainConfig} {env : Nat → Env} {txs : List Tx} {millis : UInt64}
  {b : Backend τ}

/-- A call that ended in the stretch after the journal write has the block in the journal. -/
theorem addBlock_journal (here : (b.addBlockEnd d config env txs millis).pc.stretch = .committed) :
    ∀ blocks, Journal d b blocks → blocks.length < maxBlocks → Fits d b (epochBlocks blocks) txs →
      Journal d (b.addBlock d config env txs millis).2 (blocks ++ [txs]) := by
  intro blocks journal reach fits
  exact (journal.after reach fits config env millis _).2 here

/-- A call that ended before taking its number changed nothing. -/
theorem addBlock_before (here : (b.addBlockEnd d config env txs millis).pc.stretch = .before) :
    (b.addBlock d config env txs millis).2 = b :=
  Stores.before (Stores.after d config env txs millis b _) here

/-- A call that ended after the tracker entry, with the segments of the first slots routed. -/
theorem addBlock_committedUpTo {n : UInt64} {i : Nat} {ov : Ov}
    (here : (b.addBlockEnd d config env txs millis).pc.stretch = .committed)
    (h : StoredBlock d b (b.addBlockEnd d config env txs millis) n i ov) :
    CommittedUpTo d b (b.addBlock d config env txs millis).2 txs millis i ov := by
  obtain ⟨segments, routed, stored⟩ := h
  have time : (b.addBlockEnd d config env txs millis).millis = millis := (after_args d config env txs millis b _).2
  rw [time] at stored
  obtain rfl := stored.number
  exact ⟨⟨segments, routed, stored⟩, addBlock_journal here⟩

/-- **A failed commit**: -1 and a throw out of the verification loop leave the backend as it was;
a throw out of the second round of applies, a `seal` or a `writeSegment` leaves the block
committed, with the segments of exactly the slots before the failing one routed. -/
theorem addBlock_failure (d : ChainDesign Tx Ov) (config : BlockchainConfig) (env : Nat → Env) (txs : List Tx)
    (millis : UInt64) (b : Backend τ) :
    ((b.addBlock d config env txs millis).1 = some (.returned none) → (b.addBlock d config env txs millis).2 = b) ∧
    (∀ e, (b.addBlock d config env txs millis).1 = some (.threw .verification e) ∨
        (b.addBlock d config env txs millis).1 = some (.threw .verificationApply e) →
      (b.addBlock d config env txs millis).2 = b) ∧
    (∀ e, (b.addBlock d config env txs millis).1 = some (.threw .commitApply e) →
      ∃ ov, CommittedUpTo d b (b.addBlock d config env txs millis).2 txs millis 0 ov) ∧
    (∀ e, (b.addBlock d config env txs millis).1 = some (.threw .sealing e) →
      ∃ i ov, i < d.pairCount ∧ (∃ committed, d.sealFamily i committed ov = .error e) ∧
        CommittedUpTo d b (b.addBlock d config env txs millis).2 txs millis i ov) ∧
    (∀ e, (b.addBlock d config env txs millis).1 = some (.threw .segmentWrite e) →
      ∃ i ov, i < d.pairCount ∧ CommittedUpTo d b (b.addBlock d config env txs millis).2 txs millis i ov) := by
  have stores : Stores d b (b.addBlockEnd d config env txs millis) := Stores.after d config env txs millis b _
  unfold Stores at stores
  refine ⟨addBlock_rejected, fun e h => ?_, fun e h => ?_, fun e h => ?_, fun e h => ?_⟩
  · rcases h with h | h
    · exact addBlock_before (by rw [outcome_eq h]; rfl)
    · exact addBlock_before (by rw [outcome_eq h]; rfl)
  · have here : (b.addBlockEnd d config env txs millis).pc.stretch = .committed := by rw [outcome_eq h]; rfl
    rw [outcome_eq h] at stores
    obtain ⟨n, stored⟩ := stores
    exact ⟨d.freshOverride, addBlock_committedUpTo here ⟨[], .start, stored⟩⟩
  · have here : (b.addBlockEnd d config env txs millis).pc.stretch = .committed := by rw [outcome_eq h]; rfl
    rw [outcome_eq h] at stores
    obtain ⟨n, i, ov, lt, failed, block⟩ := stores
    exact ⟨i, ov, lt, failed, addBlock_committedUpTo here block⟩
  · have here : (b.addBlockEnd d config env txs millis).pc.stretch = .committed := by rw [outcome_eq h]; rfl
    rw [outcome_eq h] at stores
    obtain ⟨n, i, ov, lt, block⟩ := stores
    exact ⟨i, ov, lt, addBlock_committedUpTo here block⟩

end Outcomes

/-- Two families, of which the first seals one byte and the second throws. -/
def brokenSealDesign : ChainDesign UInt8 Unit :=
  { byteDesign with
    familySize := 2
    indexCount := 2
    encodingVersion := fun _ => some 0
    sealFamily := fun i _ _ => if i = 0 then .ok [1] else .error (.foreign 1) }

/-- The first of its segments is routed, the second `seal` throws, and the block stays. -/
theorem addBlock_failure_broken_seal :
    ∃ i ov, i < brokenSealDesign.pairCount ∧
      (∃ committed, brokenSealDesign.sealFamily i committed ov = .error (.foreign 1)) ∧
      CommittedUpTo brokenSealDesign (Backend.fresh : Backend (SortedRecords TimestampEntry TimestampEntry.compare))
        (Backend.fresh.addBlock brokenSealDesign briskConfig (fun _ => Env.calm fun _ => 0) [7] 100).2 [7] 100 i ov :=
  (addBlock_failure brokenSealDesign briskConfig (fun _ => Env.calm fun _ => 0) [7] 100 Backend.fresh).2.2.2.1
    (.foreign 1) (by decide +kernel)

/-- A call that throws may have changed the stores: the second `seal` throws, and the block and
the first segment are there. -/
theorem addBlock_not_atomic :
    let run := (Backend.fresh : Backend (SortedRecords TimestampEntry TimestampEntry.compare)).addBlock
      brokenSealDesign briskConfig (fun _ => Env.calm fun _ => 0) [7] 100
    run.1 = some (.threw .sealing (.foreign 1)) ∧ run.2.metadata.currentBlockHeight = 1 ∧
      run.2.submitted = [⟨0, 0, 0, 0, 1, [1]⟩] ∧ ¬ Unchanged Backend.fresh run.2 := by
  refine ⟨by decide +kernel, by decide +kernel, by decide +kernel, fun same => ?_⟩
  exact absurd same.1 (by decide +kernel)

end MagelessChain
