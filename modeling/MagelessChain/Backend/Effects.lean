import MagelessChain.Backend.Phases

/-!
# What a call of `addBlock` has done to the other stores

Beside the epoch files, `addBlock` changes the metadata header, the timestamp tracker and the
segments handed to the catalog. `Stores` says for every program counter which of these changes
have happened, against the backend the call started from. With the epoch files this gives the
journal a call leaves; `addBlock_returns` is the run in which nothing fails.
-/

namespace MagelessChain

open Lib

variable {τ Tx Ov : Type}

/-- `segments` are what `sealOverrideToSegments` routed for the first `i` slots of the override
`ov`: a family whose payload is empty or whose index is null is passed over. -/
inductive Routed (d : ChainDesign Tx Ov) (n : UInt64) (ov : Ov) : Nat → List Segment → Prop where
  | start : Routed d n ov 0 []
  | pass {i : Nat} {segments : List Segment} {committed : Multiset Segment} {payload : Bytes} :
      Routed d n ov i segments → d.sealFamily i committed ov = .ok payload →
      (payload.length = 0 ∨ d.encodingVersion (UInt16.ofNat i) = none) → Routed d n ov (i + 1) segments
  | route {i : Nat} {segments : List Segment} {committed : Multiset Segment} {payload : Bytes} {version : UInt16} :
      Routed d n ov i segments → d.sealFamily i committed ov = .ok payload → payload.length ≠ 0 →
      d.encodingVersion (UInt16.ofNat i) = some version →
      Routed d n ov (i + 1) (segments ++ [AddBlock.segmentOf n i version payload])

/-- The stores of `b'` against those of `b`, once block `n` has its number: the time and the
tracker are the given ones, and `segments` have been handed to the catalog since. -/
structure Stored (b b' : Backend τ) (n time : UInt64) (tracker : τ) (segments : List Segment) : Prop where
  number : n = b.metadata.currentBlockHeight
  height : b'.metadata.currentBlockHeight = n + 1
  time : b'.metadata.lastBlockTimestamp = time
  tracker : b'.timestamps = tracker
  submitted : b'.submitted = b.submitted ++ segments

/-- Using an epoch file touches no other store. -/
theorem Stored.withEpoch {b b' : Backend τ} {n time : UInt64} {tracker : τ} {segments : List Segment}
    (h : Stored b b' n time tracker segments) (e : UInt32) (use : EpochFile → Image → EpochFile × Image) :
    Stored b (b'.withEpoch e use) n time tracker segments := by
  obtain ⟨number, height, time, tracker, submitted⟩ := h
  unfold Backend.withEpoch
  split <;> exact ⟨number, height, time, tracker, submitted⟩

theorem Stored.getEpochFile {b b' : Backend τ} {n time : UInt64} {tracker : τ} {segments : List Segment}
    (h : Stored b b' n time tracker segments) (m : UInt64) (outcome : OpenOutcome) :
    Stored b (b'.getEpochFile m outcome).2 n time tracker segments := by
  obtain ⟨number, height, time, tracker, submitted⟩ := h
  unfold Backend.getEpochFile
  split
  · exact ⟨number, height, time, tracker, submitted⟩
  · split <;> exact ⟨number, height, time, tracker, submitted⟩

variable [OrderedStore τ TimestampEntry TimestampEntry.compare]

/-- Block `n` is in the header and in the tracker, and the segments of the first slots are routed. -/
def StoredBlock (d : ChainDesign Tx Ov) (b : Backend τ) (c : Commit τ Tx Ov) (n : UInt64) (i : Nat) (ov : Ov) : Prop :=
  ∃ segments, Routed d n ov i segments ∧ Stored b c.backend n c.millis (trackBlock b.timestamps c.millis n) segments

/-- What has been stored at each point of a call that started from `b`. -/
def Stores (d : ChainDesign Tx Ov) (b : Backend τ) (c : Commit τ Tx Ov) : Prop :=
  match c.pc with
  | .enter | .verify _ _ | .verifyApply _ _ _ | .takeNumber | .returned none | .threw .verification _
  | .threw .verificationApply _ | .died .gateDivision => c.backend = b
  | .openEpoch n | .blockHeader n | .transactions n _ | .nextSlot n | .setTimestamp n =>
    Stored b c.backend n b.metadata.lastBlockTimestamp b.timestamps []
  | .threw .epochOpen _ | .threw .transactionWrite _ | .died .nullPointer =>
    ∃ n, Stored b c.backend n b.metadata.lastBlockTimestamp b.timestamps []
  | .track n => Stored b c.backend n c.millis b.timestamps []
  | .threw .trackerInsert _ => ∃ n, Stored b c.backend n c.millis b.timestamps []
  | .commitApply n _ _ => Stored b c.backend n c.millis (trackBlock b.timestamps c.millis n) []
  | .threw .commitApply _ => ∃ n, Stored b c.backend n c.millis (trackBlock b.timestamps c.millis n) []
  | .sealing n i ov => i ≤ d.pairCount ∧ StoredBlock d b c n i ov
  | .writeSegment n i ov version payload => i < d.pairCount ∧ payload.length ≠ 0 ∧
      d.encodingVersion (UInt16.ofNat i) = some version ∧
      (∃ committed, d.sealFamily i committed ov = .ok payload) ∧ StoredBlock d b c n i ov
  | .threw .sealing e => ∃ n i ov, i < d.pairCount ∧ (∃ committed, d.sealFamily i committed ov = .error e) ∧
      StoredBlock d b c n i ov
  | .threw .segmentWrite _ => ∃ n i ov, i < d.pairCount ∧ StoredBlock d b c n i ov
  | .report n | .sync n | .finish n | .returned (some n) => ∃ ov, StoredBlock d b c n d.pairCount ov
  | .died .reportDivision => ∃ n ov, StoredBlock d b c n d.pairCount ov

section Steps

variable {d : ChainDesign Tx Ov} {config : BlockchainConfig} {b : Backend τ}

/-- **The stores at every step.** -/
theorem Stores.step {c : Commit τ Tx Ov} (h : Stores d b c) (env : Env) :
    Stores d b (AddBlock.step d config env c) := by
  obtain ⟨txs, millis, duration, pc, b'⟩ := c
  cases pc with
  | enter =>
    simp only [AddBlock.step]
    split <;> exact h
  | verify todo ov =>
    cases todo with
    | nil => exact h
    | cons tx todo =>
      simp only [AddBlock.step]
      split <;> exact h
  | verifyApply tx todo ov =>
    simp only [AddBlock.step]
    split <;> exact h
  | takeNumber =>
    obtain rfl : b' = b := h
    exact ⟨rfl, rfl, rfl, rfl, (List.append_nil _).symm⟩
  | openEpoch n =>
    have stored := Stored.getEpochFile h n env.epochOpen
    simp only [AddBlock.step]
    split <;> (rename_i eq; rw [eq] at stored)
    · exact stored
    · exact ⟨n, stored⟩
    · exact ⟨n, stored⟩
  | blockHeader n =>
    simp only [AddBlock.step, Stores]
    exact Stored.withEpoch h _ _
  | transactions n todo =>
    cases todo with
    | nil =>
      simp only [AddBlock.step]
      split <;> exact h
    | cons tx todo =>
      have stored := Stored.withEpoch h (epochOf n) fun file img =>
        ({ file with cursor := file.cursor + (d.write tx).1.length }, img.write file.cursor (d.write tx).1)
      simp only [AddBlock.step]
      split
      · exact stored
      · exact ⟨n, stored⟩
  | nextSlot n =>
    simp only [AddBlock.step, Stores]
    exact Stored.withEpoch h _ _
  | setTimestamp n =>
    obtain ⟨number, height, -, tracker, submitted⟩ := h
    exact ⟨number, height, rfl, tracker, submitted⟩
  | track n =>
    simp only [AddBlock.step]
    split
    · exact ⟨n, h⟩
    · obtain ⟨number, height, time, tracker, submitted⟩ := h
      exact ⟨number, height, time, by rw [← tracker], submitted⟩
  | commitApply n todo ov =>
    cases todo with
    | nil => exact ⟨Nat.zero_le _, [], .start, h⟩
    | cons tx todo =>
      simp only [AddBlock.step]
      split
      · exact h
      · exact ⟨n, h⟩
  | sealing n i ov =>
    obtain ⟨le, segments, routed, stored⟩ := h
    simp only [AddBlock.step]
    split
    · rename_i lt
      split
      · rename_i e failed
        exact ⟨n, i, ov, lt, ⟨_, failed⟩, segments, routed, stored⟩
      · rename_i payload sealed
        split
        · rename_i empty
          exact ⟨lt, segments, routed.pass sealed (.inl empty), stored⟩
        · rename_i nonempty
          split
          · rename_i null
            exact ⟨lt, segments, routed.pass sealed (.inr null), stored⟩
          · rename_i version registered
            exact ⟨lt, nonempty, registered, ⟨_, sealed⟩, segments, routed, stored⟩
    · rename_i ge
      obtain rfl : i = d.pairCount := by omega
      exact ⟨ov, segments, routed, stored⟩
  | writeSegment n i ov version payload =>
    obtain ⟨lt, nonempty, registered, ⟨committed, sealed⟩, segments, routed, stored⟩ := h
    simp only [AddBlock.step]
    split
    · exact ⟨n, i, ov, lt, segments, routed, stored⟩
    · refine ⟨lt, _, routed.route sealed nonempty registered, ?_⟩
      obtain ⟨number, height, time, tracker, submitted⟩ := stored
      exact ⟨number, height, time, tracker, by rw [← List.append_assoc, ← submitted]⟩
  | report n =>
    simp only [AddBlock.step]
    split
    · exact ⟨n, h⟩
    · exact h
  | sync n =>
    obtain ⟨ov, segments, routed, number, height, time, tracker, submitted⟩ := h
    exact ⟨ov, segments, routed, number, height, time, tracker, submitted⟩
  | finish n =>
    obtain ⟨ov, segments, routed, number, height, time, tracker, submitted⟩ := h
    exact ⟨ov, segments, routed, number, height, time, tracker, submitted⟩
  | returned result => cases result <;> exact h
  | threw site e => cases site <;> exact h
  | died signal => cases signal <;> exact h

/-- The stores after any number of steps. -/
theorem Stores.after (d : ChainDesign Tx Ov) (config : BlockchainConfig) (env : Nat → Env) (txs : List Tx)
    (millis : UInt64) (b : Backend τ) (k : Nat) :
    Stores d b ((AddBlock.machine d config).after env k (AddBlock.start txs millis b)) := by
  have start : Stores d b (AddBlock.start txs millis b : Commit τ Tx Ov) := rfl
  exact (AddBlock.machine d config).after_induction env start (fun _ _ h => h.step _) k

/-- Before the height is taken, nothing is stored. -/
theorem Stores.before {c : Commit τ Tx Ov} (h : Stores d b c) (here : c.pc.stretch = .before) : c.backend = b := by
  obtain ⟨txs, millis, duration, pc, b'⟩ := c
  cases pc with
  | enter | verify | verifyApply | takeNumber => exact h
  | returned result =>
    cases result with
    | none => exact h
    | some n => cases here
  | threw site e => cases site <;> first | exact h | cases here
  | died signal => cases signal <;> first | exact h | cases here
  | _ => cases here

/-- Once the block is written, the height is the next one. -/
theorem Stores.committed {c : Commit τ Tx Ov} (h : Stores d b c) (here : c.pc.stretch = .committed) :
    c.backend.metadata.currentBlockHeight = b.metadata.currentBlockHeight + 1 := by
  have next : ∀ {n time tracker segments}, Stored b c.backend n time tracker segments →
      c.backend.metadata.currentBlockHeight = b.metadata.currentBlockHeight + 1 := fun stored => by
    rw [stored.height, stored.number]
  obtain ⟨txs, millis, duration, pc, b'⟩ := c
  cases pc with
  | setTimestamp n => exact next h
  | track n => exact next h
  | commitApply n todo ov => exact next h
  | sealing n i ov => obtain ⟨-, segments, -, stored⟩ := h; exact next stored
  | writeSegment n i ov version payload => obtain ⟨-, -, -, -, segments, -, stored⟩ := h; exact next stored
  | report n => obtain ⟨ov, segments, -, stored⟩ := h; exact next stored
  | sync n => obtain ⟨ov, segments, -, stored⟩ := h; exact next stored
  | finish n => obtain ⟨ov, segments, -, stored⟩ := h; exact next stored
  | returned result =>
    cases result with
    | none => cases here
    | some n => obtain ⟨ov, segments, -, stored⟩ := h; exact next stored
  | threw site e =>
    cases site with
    | trackerInsert => obtain ⟨n, stored⟩ := h; exact next stored
    | commitApply => obtain ⟨n, stored⟩ := h; exact next stored
    | sealing => obtain ⟨n, i, ov, -, -, segments, -, stored⟩ := h; exact next stored
    | segmentWrite => obtain ⟨n, i, ov, -, segments, -, stored⟩ := h; exact next stored
    | _ => cases here
  | died signal =>
    cases signal with
    | reportDivision => obtain ⟨n, ov, segments, -, stored⟩ := h; exact next stored
    | _ => cases here
  | _ => cases here

/-- Segments are routed at `writeSegment` only. -/
theorem AddBlock.step_submitted {config : BlockchainConfig} {env : Env} {c : Commit τ Tx Ov}
    (elsewhere : ∀ n i ov version payload, c.pc ≠ .writeSegment n i ov version payload) :
    (AddBlock.step d config env c).backend.submitted = c.backend.submitted := by
  have used : ∀ (b : Backend τ) (e : UInt32) (use : EpochFile → Image → EpochFile × Image),
      (b.withEpoch e use).submitted = b.submitted := by
    intro b e use
    unfold Backend.withEpoch
    split <;> rfl
  have opened : ∀ (b : Backend τ) (n : UInt64), (b.getEpochFile n env.epochOpen).2.submitted = b.submitted := by
    intro b n
    unfold Backend.getEpochFile
    split
    · rfl
    · split <;> rfl
  obtain ⟨txs, millis, duration, pc, b⟩ := c
  cases pc with
  | enter => simp only [AddBlock.step]; split <;> rfl
  | verify todo ov =>
    cases todo with
    | nil => rfl
    | cons tx todo => simp only [AddBlock.step]; split <;> rfl
  | verifyApply tx todo ov => simp only [AddBlock.step]; split <;> rfl
  | openEpoch n =>
    have same := opened b n
    simp only [AddBlock.step]
    split <;> (rename_i eq; rw [eq] at same; exact same)
  | blockHeader n => exact used _ _ _
  | transactions n todo =>
    cases todo with
    | nil => rfl
    | cons tx todo => exact used _ _ _
  | nextSlot n => exact used _ _ _
  | track n => simp only [AddBlock.step]; split <;> rfl
  | commitApply n todo ov =>
    cases todo with
    | nil => rfl
    | cons tx todo => simp only [AddBlock.step]; split <;> rfl
  | sealing n i ov =>
    simp only [AddBlock.step]
    split
    · split
      · rfl
      · split
        · rfl
        · split <;> rfl
    · rfl
  | writeSegment n i ov version payload => exact absurd rfl (elsewhere n i ov version payload)
  | report n => simp only [AddBlock.step]
  | _ => rfl

end Steps

/-! ## The journal across a call -/

section Calls

variable {d : ChainDesign Tx Ov} {config : BlockchainConfig} {env : Nat → Env} {txs : List Tx} {millis : UInt64}
  {b : Backend τ} {blocks : List (List Tx)}

/-- A rejected block changes nothing. -/
theorem addBlock_rejected (h : (b.addBlock d config env txs millis).1 = some (.returned none)) :
    (b.addBlock d config env txs millis).2 = b := by
  have stores : Stores d b (b.addBlockEnd d config env txs millis) := Stores.after d config env txs millis b _
  unfold Stores at stores
  rw [outcome_eq h] at stores
  exact stores

/-- What a call that returned a number has stored. -/
theorem addBlock_stored {n : UInt64} (h : (b.addBlock d config env txs millis).1 = some (.returned (some n))) :
    ∃ ov segments, Routed d n ov d.pairCount segments ∧ Stored b (b.addBlock d config env txs millis).2 n millis
      (trackBlock b.timestamps millis n) segments := by
  have stores : Stores d b (b.addBlockEnd d config env txs millis) := Stores.after d config env txs millis b _
  have args : (b.addBlockEnd d config env txs millis).millis = millis := (after_args d config env txs millis b _).2
  unfold Stores StoredBlock at stores
  rw [outcome_eq h, args] at stores
  exact stores

/-- A call stopped outside the writing stretch leaves the old journal or the new one. -/
theorem Journal.after (journal : Journal d b blocks) (reach : blocks.length < maxBlocks)
    (fits : Fits d b (epochBlocks blocks) txs) (config : BlockchainConfig) (env : Nat → Env) (millis : UInt64) (k : Nat) :
    let c := (AddBlock.machine d config).after env k (AddBlock.start txs millis b)
    (c.pc.stretch = .before → Journal d c.backend blocks) ∧
      (c.pc.stretch = .committed → Journal d c.backend (blocks ++ [txs])) := by
  have slot := (length_epochBlocks_next journal.height reach).symm
  have files := journal.files.after fits slot config env millis k
  have stores := Stores.after d config env txs millis b k
  refine ⟨fun here => ?_, fun here => ?_⟩
  · exact ⟨journal.bound, by rw [stores.before here]; exact journal.height, files.1 here⟩
  · refine ⟨?_, ?_, ?_⟩
    · rw [List.length_append, List.length_singleton]
      exact reach
    · unfold maxBlocks at reach
      rw [stores.committed here, UInt64.toNat_add, journal.height, List.length_append, List.length_singleton]
      exact Nat.mod_eq_of_lt (by simp; omega)
    · rw [← epochBlocks_append journal.height reach]
      exact files.2 here

/-- A block that got a number is the next one of the journal. -/
theorem Journal.addBlock {n : UInt64} (journal : Journal d b blocks) (reach : blocks.length < maxBlocks)
    (fits : Fits d b (epochBlocks blocks) txs)
    (h : (b.addBlock d config env txs millis).1 = some (.returned (some n))) :
    n.toNat = blocks.length ∧ Journal d (b.addBlock d config env txs millis).2 (blocks ++ [txs]) := by
  obtain ⟨ov, segments, -, stored⟩ := addBlock_stored h
  refine ⟨by rw [stored.number, journal.height], ?_⟩
  have after := journal.after reach fits config env millis ((AddBlock.machine d config).rank (AddBlock.start txs millis b))
  exact after.2 (by
    change (b.addBlockEnd d config env txs millis).pc.stretch = _
    rw [outcome_eq h]
    rfl)

end Calls

/-! ## The run in which nothing fails -/

/-- No call into the application throws or refuses. -/
structure ChainDesign.Smooth (d : ChainDesign Tx Ov) : Prop where
  verifies : ∀ visible ov tx, d.verify visible ov tx = true
  applies : ∀ visible tx ov, ∃ ov' result, d.apply visible tx ov = (ov', .ok result)
  writes : ∀ tx, (d.write tx).2 = none
  seals : ∀ i committed ov, ∃ payload, d.sealFamily i committed ov = .ok payload

/-- No storage call fails. -/
def Env.Quiet (env : Env) : Prop := env.epochOpen = .opens ∧ env.trackerInsert = none ∧ env.writeSegment = none

/-- A call that will return a block number. -/
def Underway (config : BlockchainConfig) (c : Commit τ Tx Ov) : Prop :=
  match c.pc with
  | .enter => gate config c.txs.length (c.millis - c.backend.metadata.lastBlockTimestamp) = .pass ∧
      c.millis - c.backend.metadata.lastBlockTimestamp ≠ 0
  | .returned (some _) => True
  | .returned none | .threw _ _ | .died _ => False
  | _ => c.duration ≠ 0

theorem Underway.step {d : ChainDesign Tx Ov} {config : BlockchainConfig} {env : Env} {c : Commit τ Tx Ov}
    (smooth : d.Smooth) (quiet : env.Quiet) (h : Underway config c) :
    Underway config (AddBlock.step d config env c) := by
  obtain ⟨txs, millis, duration, pc, b⟩ := c
  obtain ⟨opens, tracks, routes⟩ := quiet
  cases pc with
  | enter =>
    simp only [AddBlock.step]
    rw [h.1]
    exact h.2
  | verify todo ov =>
    cases todo with
    | nil => exact h
    | cons tx todo =>
      simp only [AddBlock.step]
      rw [if_pos (smooth.verifies _ _ _)]
      exact h
  | verifyApply tx todo ov =>
    obtain ⟨ov', result, applied⟩ := smooth.applies env.visible tx ov
    simp only [AddBlock.step, applied]
    exact h
  | openEpoch n =>
    simp only [AddBlock.step, Backend.getEpochFile, opens]
    split
    · exact h
    · rename_i eq
      split at eq <;> simp at eq
    · rename_i eq
      split at eq <;> simp at eq
  | transactions n todo =>
    cases todo with
    | nil =>
      simp only [AddBlock.step]
      split <;> exact h
    | cons tx todo =>
      simp only [AddBlock.step, smooth.writes]
      exact h
  | track n =>
    simp only [AddBlock.step, tracks]
    exact h
  | commitApply n todo ov =>
    cases todo with
    | nil => exact h
    | cons tx todo =>
      obtain ⟨ov', result, applied⟩ := smooth.applies env.visible tx ov
      simp only [AddBlock.step, applied]
      exact h
  | sealing n i ov =>
    obtain ⟨payload, sealed⟩ := smooth.seals i (env.visible (UInt16.ofNat i)) ov
    simp only [AddBlock.step, sealed]
    split
    · split
      · exact h
      · split <;> exact h
    · exact h
  | writeSegment n i ov version payload =>
    simp only [AddBlock.step, routes]
    exact h
  | report n =>
    simp only [AddBlock.step]
    rw [if_neg h]
    exact h
  | finish n => trivial
  | returned result => cases result <;> exact h
  | _ => exact h

/-- **A call no part of which fails** returns the next block number. -/
theorem addBlock_returns {d : ChainDesign Tx Ov} {config : BlockchainConfig} {env : Nat → Env} {txs : List Tx}
    {millis : UInt64} {b : Backend τ} (smooth : d.Smooth) (quiet : ∀ i, (env i).Quiet)
    (passes : gate config txs.length (millis - b.metadata.lastBlockTimestamp) = .pass)
    (later : millis - b.metadata.lastBlockTimestamp ≠ 0) :
    (b.addBlock d config env txs millis).1 = some (.returned (some b.metadata.currentBlockHeight)) := by
  have done := (AddBlock.machine d config).halted_run env (AddBlock.start txs millis b)
  have stores : Stores d b (b.addBlockEnd d config env txs millis) := Stores.after d config env txs millis b _
  have underway : Underway config (b.addBlockEnd d config env txs millis) :=
    (AddBlock.machine d config).run_induction (s := AddBlock.start txs millis b) env ⟨passes, later⟩
      fun k _ h => h.step smooth (quiet k)
  change AddBlock.halted (b.addBlockEnd d config env txs millis) at done
  simp only [Backend.addBlock, Commit.outcome]
  generalize b.addBlockEnd d config env txs millis = c at done stores underway ⊢
  obtain ⟨txs, millis, duration, pc, b'⟩ := c
  cases pc with
  | returned result =>
    cases result with
    | none => exact absurd underway id
    | some n =>
      obtain ⟨ov, segments, -, stored⟩ := stores
      simp [stored.number]
  | threw site e => exact absurd underway id
  | died signal => exact absurd underway id
  | _ => exact absurd done id

end MagelessChain
