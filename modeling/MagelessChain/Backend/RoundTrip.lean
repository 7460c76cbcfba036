import MagelessChain.Backend.Effects
import Mathlib.Data.List.Induction

/-!
# The journal round trip

Runs of whole backend operations from an empty data directory: calls of `addBlock` that return,
reads, evictions from the epoch cache, clean closes and reopens. A run keeps the history of what
each `addBlock` was handed and what it returned. While the blocks are within reach of the
`uint32_t` epoch numbers, `getBlock` answers from the history.
-/

namespace MagelessChain

open Lib

variable {τ Tx Ov : Type}

/-- The blocks `addBlock` returned a number for, with their numbers. -/
abbrev History (Tx : Type) := List (UInt64 × List Tx)

/-- The transaction lists of a history. -/
def History.blocks (history : History Tx) : List (List Tx) := history.map Prod.snd

/-- The numbers of a history count its entries. -/
def History.Numbered (history : History Tx) : Prop :=
  ∀ i (hi : i < history.length), (history[i]).1.toNat = i

theorem History.Numbered.snoc {history : History Tx} {n : UInt64} {txs : List Tx} (h : history.Numbered)
    (number : n.toNat = history.length) : History.Numbered (history ++ [(n, txs)]) := by
  intro i hi
  rw [List.length_append, List.length_singleton] at hi
  rcases Nat.lt_succ_iff_lt_or_eq.1 hi with lt | rfl
  · rw [List.getElem_append_left lt]
    exact h i lt
  · simpa using number

/-- `getBlock` answers from the history: below the height with what was committed under that
number, from the height on with a range error. -/
def ReadsHistory (d : ChainDesign Tx Ov) (b : Backend τ) (history : History Tx) : Prop :=
  (∀ n txs, (n, txs) ∈ history → n < b.metadata.currentBlockHeight ∧ (b.getBlock d n .opens).1 = .ok txs) ∧
  (∀ n < b.metadata.currentBlockHeight, ∃ txs, (n, txs) ∈ history) ∧
  ∀ n outcome, b.metadata.currentBlockHeight ≤ n →
    (b.getBlock d n outcome).1 = .error (.rangeError "Block number out of range")

/-- A journal that is a history is read as one. -/
theorem Journal.readsHistory {d : ChainDesign Tx Ov} {b : Backend τ} {history : History Tx}
    (journal : Journal d b history.blocks) (numbered : history.Numbered)
    (reads : ∀ entry ∈ history, ∀ tx ∈ entry.2, d.ReadsBack tx) : ReadsHistory d b history := by
  have length : history.blocks.length = history.length := List.length_map _
  have height : b.metadata.currentBlockHeight.toNat = history.length := by rw [journal.height, length]
  refine ⟨fun n txs mem => ?_, fun n below => ?_, fun n outcome above => ?_⟩
  · obtain ⟨i, hi, entry⟩ := List.getElem_of_mem mem
    have number : n.toNat = i := by rw [← numbered i hi, entry]
    have inside : n.toNat < history.blocks.length := by omega
    have block : history.blocks[n.toNat] = txs := by simp [History.blocks, number, entry]
    refine ⟨by rw [UInt64.lt_iff_toNat_lt, height]; omega, ?_⟩
    rw [journal.getBlock_eq inside, block]
    rw [block]
    exact reads _ mem
  · have inside : n.toNat < history.length := by rw [UInt64.lt_iff_toNat_lt, height] at below; exact below
    have number : (history[n.toNat]).1 = n := UInt64.toNat_inj.1 (numbered _ inside)
    exact ⟨_, List.mem_iff_getElem.2 ⟨n.toNat, inside, Prod.ext number rfl⟩⟩
  · rw [UInt64.le_iff_toNat_le, height, ← length] at above
    exact journal.getBlock_range above outcome

variable [OrderedStore τ TimestampEntry TimestampEntry.compare]

/-- A run of whole operations that leaves a backend and a history. Each appended block fits its
epoch file. -/
inductive Run (d : ChainDesign Tx Ov) : Backend τ → History Tx → Prop where
  | start : Run d Backend.fresh []
  | committed {b : Backend τ} {history : History Tx} {config : BlockchainConfig} {env : Nat → Env} {txs : List Tx}
      {millis n : UInt64} : Run d b history → Fits d b (epochBlocks history.blocks) txs →
      (b.addBlock d config env txs millis).1 = some (.returned (some n)) →
      Run d (b.addBlock d config env txs millis).2 (history ++ [(n, txs)])
  | rejected {b : Backend τ} {history : History Tx} {config : BlockchainConfig} {env : Nat → Env} {txs : List Tx}
      {millis : UInt64} : Run d b history → (b.addBlock d config env txs millis).1 = some (.returned none) →
      Run d (b.addBlock d config env txs millis).2 history
  | getBlock {b : Backend τ} {history : History Tx} (n : UInt64) (outcome : OpenOutcome) :
      Run d b history → Run d (b.getBlock d n outcome).2 history
  | timeWindow {b b' : Backend τ} {history : History Tx} {fuel : Nat} {startMillis endMillis : UInt64}
      {outcome : UInt64 → OpenOutcome} {result : Except Exn (List Tx)} : Run d b history →
      b.getTransactionsByTimeWindow d fuel startMillis endMillis outcome = some (result, b') → Run d b' history
  | evict {b : Backend τ} {history : History Tx} (epoch : UInt32) : Run d b history → Run d (b.evict epoch) history
  | reopen {b : Backend τ} {history : History Tx} : Run d b history → Run d b.reopen history

/-- **The journal over a whole run** is its history. -/
theorem Run.journal {d : ChainDesign Tx Ov} {b : Backend τ} {history : History Tx} (run : Run d b history)
    (reach : history.length ≤ maxBlocks) : Journal d b history.blocks ∧ history.Numbered := by
  induction run with
  | start => exact ⟨Journal.fresh d, fun i hi => absurd hi (by simp)⟩
  | @committed b history config env txs millis n run fits returned ih =>
    rw [List.length_append, List.length_singleton] at reach
    obtain ⟨journal, numbered⟩ := ih (by omega)
    have room : history.blocks.length < maxBlocks := by rw [History.blocks, List.length_map]; omega
    obtain ⟨number, journal'⟩ := journal.addBlock room fits returned
    rw [History.blocks, List.length_map] at number
    exact ⟨by simpa [History.blocks] using journal', numbered.snoc number⟩
  | rejected run returned ih =>
    rw [addBlock_rejected returned]
    exact ih reach
  | getBlock n outcome run ih => exact ⟨(ih reach).1.getBlock n outcome, (ih reach).2⟩
  | timeWindow run returned ih => exact ⟨(ih reach).1.timeWindow returned, (ih reach).2⟩
  | evict epoch run ih => exact ⟨(ih reach).1.evict epoch, (ih reach).2⟩
  | reopen run ih => exact ⟨(ih reach).1.reopen, (ih reach).2⟩

/-- **Journal round trip**: after any run of at most 2^48 blocks, across any epoch boundaries
on the way, every committed block is read back and nothing else is. -/
theorem journal_round_trip (d : ChainDesign Tx Ov) (b : Backend τ) (history : History Tx) (run : Run d b history)
    (reach : history.length ≤ maxBlocks) (reads : ∀ entry ∈ history, ∀ tx ∈ entry.2, d.ReadsBack tx) :
    ReadsHistory d b history := by
  obtain ⟨journal, numbered⟩ := run.journal reach
  exact journal.readsHistory numbered reads

/-! ## Past the last epoch number

A chain of 2^48 one-byte blocks, closed and reopened after each, so that each epoch file grows by
the MiB its constructor maps past the end. The next block goes to epoch 0 again. -/

section Wrap

/-- The epoch files of a call that started from `b` with the file of its block closed. -/
def Grown (b : Backend τ) (c : Commit τ Tx Ov) : Prop :=
  match c.pc with
  | .enter | .verify _ _ | .verifyApply _ _ _ | .takeNumber => c.backend = b
  | .openEpoch n => n = b.metadata.currentBlockHeight ∧ c.backend.epochs = b.epochs ∧
      c.backend.openEpochs = b.openEpochs
  | .threw _ _ | .died _ | .returned none => True
  | _ => ∀ e, b.fileLength e + (if e = epochOf b.metadata.currentBlockHeight then 1024 * 1024 else 0) ≤
      c.backend.fileLength e

theorem Grown.step {d : ChainDesign Tx Ov} {config : BlockchainConfig} {env : Env} {b : Backend τ}
    {c : Commit τ Tx Ov} (closed : b.openEpochs (epochOf b.metadata.currentBlockHeight) = none) (h : Grown b c) :
    Grown b (AddBlock.step d config env c) := by
  obtain ⟨txs, millis, duration, pc, b'⟩ := c
  cases pc with
  | enter =>
    simp only [AddBlock.step]
    split <;> first | exact h | trivial
  | verify todo ov =>
    cases todo with
    | nil => exact h
    | cons tx todo =>
      simp only [AddBlock.step]
      split <;> first | exact h | trivial
  | verifyApply tx todo ov =>
    simp only [AddBlock.step]
    split <;> first | exact h | trivial
  | takeNumber =>
    obtain rfl : b' = b := h
    exact ⟨rfl, rfl, rfl⟩
  | openEpoch n =>
    obtain ⟨rfl, epochs, opens⟩ := h
    have same : ∀ e, b'.fileLength e = b.fileLength e := fun e => by unfold Backend.fileLength; rw [epochs]
    have closed' : b'.openEpochs (epochOf b.metadata.currentBlockHeight) = none := by
      rw [← closed]
      exact congrFun opens _
    simp only [AddBlock.step, Backend.getEpochFile, closed']
    cases env.epochOpen with
    | opens =>
      intro e
      simp only [fileLength_openEpoch, same]
      exact Nat.le_refl _
    | null => trivial
    | throws e => trivial
  | blockHeader n =>
    intro e
    simp only [AddBlock.step, fileLength_withEpoch]
    exact h e
  | transactions n todo =>
    cases todo with
    | nil =>
      simp only [AddBlock.step]
      split <;> exact h
    | cons tx todo =>
      simp only [AddBlock.step]
      split
      · intro e
        simp only [fileLength_withEpoch]
        exact h e
      · trivial
  | nextSlot n =>
    intro e
    simp only [AddBlock.step, fileLength_withEpoch]
    exact h e
  | track n =>
    simp only [AddBlock.step]
    split <;> first | exact h | trivial
  | commitApply n todo ov =>
    cases todo with
    | nil => exact h
    | cons tx todo =>
      simp only [AddBlock.step]
      split <;> first | exact h | trivial
  | sealing n i ov =>
    simp only [AddBlock.step]
    split
    · split
      · trivial
      · split
        · exact h
        · split <;> exact h
    · exact h
  | writeSegment n i ov version payload =>
    simp only [AddBlock.step]
    split <;> first | exact h | trivial
  | report n =>
    simp only [AddBlock.step]
    split <;> first | exact h | trivial
  | returned result => cases result <;> exact h
  | _ => exact h

/-- A committed block grows the file it went to, if that was closed. -/
theorem addBlock_fileLength {d : ChainDesign Tx Ov} {config : BlockchainConfig} {env : Nat → Env} {txs : List Tx}
    {millis n : UInt64} {b : Backend τ} (closed : b.openEpochs (epochOf b.metadata.currentBlockHeight) = none)
    (h : (b.addBlock d config env txs millis).1 = some (.returned (some n))) (e : UInt32) :
    b.fileLength e + (if e = epochOf b.metadata.currentBlockHeight then 1024 * 1024 else 0) ≤
      (b.addBlock d config env txs millis).2.fileLength e := by
  have grown : Grown b (b.addBlockEnd d config env txs millis) :=
    (AddBlock.machine d config).run_induction (P := Grown b) (s := AddBlock.start txs millis b) env rfl
      fun _ _ h => h.step closed
  unfold Grown at grown
  rw [outcome_eq h] at grown
  exact grown e

/-- Blocks that take one page each stand page by page. -/
theorem offsetOf_pages {d : ChainDesign Tx Ov} {blocks : List (List Tx)}
    (page : ∀ txs ∈ blocks, d.blockSize txs = 66) : d.offsetOf blocks = 266240 + 4096 * blocks.length := by
  induction blocks using List.reverseRecOn with
  | nil => exact offsetOf_nil
  | append_singleton blocks txs ih =>
    rw [offsetOf_snoc, ih fun xs hx => page xs (List.mem_append_left _ hx), page txs (by simp), roundUp,
      List.length_append, List.length_singleton]
    omega

/-- A target of one block every 100 ms. -/
def briskConfig : BlockchainConfig := ⟨100, 1⟩

theorem byteDesign_smooth : byteDesign.Smooth :=
  ⟨fun _ _ _ => rfl, fun _ _ _ => ⟨_, _, rfl⟩, fun _ => rfl, fun _ _ _ => ⟨_, rfl⟩⟩

/-- One call with one transaction, 100 ms after the last block. -/
theorem addBlock_byte {b : Backend τ} {millis : UInt64} (tx : UInt8)
    (later : millis - b.metadata.lastBlockTimestamp = 100) :
    (b.addBlock byteDesign briskConfig (fun _ => Env.calm fun _ => 0) [tx] millis).1 =
      some (.returned (some b.metadata.currentBlockHeight)) := by
  apply addBlock_returns byteDesign_smooth (fun _ => ⟨rfl, rfl, rfl⟩)
  · rw [later]
    change gate briskConfig 1 100 = .pass
    decide
  · rw [later]; decide

/-- `i` blocks of one zero byte each. -/
def zeroHistory (i : Nat) : History UInt8 := (List.range i).map fun j => (UInt64.ofNat j, [0])

theorem zeroHistory_blocks (i : Nat) : (zeroHistory i).blocks = List.replicate i [0] := by
  simp [zeroHistory, History.blocks, List.eq_replicate_iff]

theorem zeroHistory_succ (i : Nat) : zeroHistory (i + 1) = zeroHistory i ++ [(UInt64.ofNat i, [0])] := by
  simp [zeroHistory, List.range_succ]

theorem page_zero {blocks : List (List UInt8)} {i : Nat} (h : blocks.Sublist (List.replicate i [0])) :
    ∀ txs ∈ blocks, byteDesign.blockSize txs = 66 := by
  intro txs mem
  rw [List.eq_of_mem_replicate (h.subset mem)]
  rfl

/-- The state of the long run after `i` blocks. -/
structure LongRun (i : Nat) (b : Backend τ) : Prop where
  run : Run byteDesign b (zeroHistory i)
  closed : ∀ e, b.openEpochs e = none
  time : b.metadata.lastBlockTimestamp = UInt64.ofNat (100 * i)
  grown : ∀ e, (epochBlocks (zeroHistory i).blocks e).length * (1024 * 1024) ≤ b.fileLength e

/-- Every next block fits, whatever byte it carries. -/
theorem LongRun.fits {i : Nat} {b : Backend τ} (h : LongRun i b) (tx : UInt8) :
    Fits byteDesign b (epochBlocks (zeroHistory i).blocks) [tx] := by
  have size : byteDesign.blockSize [tx] = 66 := rfl
  have grown := h.grown (epochOf b.metadata.currentBlockHeight)
  have count : (epochBlocks (zeroHistory i).blocks (epochOf b.metadata.currentBlockHeight)).length ≤ 65536 := by
    unfold epochBlocks
    exact List.length_take_le _ _
  have zeros : (epochBlocks (zeroHistory i).blocks (epochOf b.metadata.currentBlockHeight)).Sublist
      (List.replicate i [0]) := by
    rw [zeroHistory_blocks]
    exact (List.take_sublist _ _).trans (List.drop_sublist _ _)
  have pages := offsetOf_pages (page_zero zeros)
  refine ⟨by rw [pages, size]; omega, ?_⟩
  rw [pages, size, Backend.mappedLength, h.closed]
  dsimp only
  omega

theorem LongRun.later {i : Nat} {b : Backend τ} (h : LongRun i b) :
    UInt64.ofNat (100 * (i + 1)) - b.metadata.lastBlockTimestamp = 100 := by
  rw [h.time, Nat.mul_add, UInt64.ofNat_add, UInt64.add_comm]
  exact UInt64.add_sub_cancel _ _

/-- The long run goes on: one block more, and the backend is closed and reopened. -/
def longNext (i : Nat) (b : Backend τ) : Backend τ :=
  (b.addBlock byteDesign briskConfig (fun _ => Env.calm fun _ => 0) [0] (UInt64.ofNat (100 * (i + 1)))).2.reopen

/-- The backend of the long run after `i` blocks. -/
def longBackend : Nat → Backend τ
  | 0 => Backend.fresh
  | i + 1 => longNext i (longBackend i)

theorem LongRun.step {i : Nat} {b : Backend τ} (h : LongRun i b) (reach : i < maxBlocks) : LongRun (i + 1) (longNext i b) := by
  have length : (zeroHistory i).length = i := by simp [zeroHistory]
  obtain ⟨journal, -⟩ := h.run.journal (by omega)
  have bound : (zeroHistory i).blocks.length < maxBlocks := by rw [History.blocks, List.length_map, length]; exact reach
  have height : b.metadata.currentBlockHeight = UInt64.ofNat i := by
    rw [← UInt64.toNat_inj, journal.height, History.blocks, List.length_map, length]
    unfold maxBlocks at reach
    simp
    omega
  have returned := addBlock_byte 0 h.later
  have closed := h.closed (epochOf b.metadata.currentBlockHeight)
  have grown := addBlock_fileLength closed returned
  refine ⟨?_, fun _ => rfl, ?_, fun e => ?_⟩
  · rw [zeroHistory_succ, ← height]
    exact (h.run.committed (h.fits 0) returned).reopen
  · obtain ⟨ov, segments, -, stored⟩ := addBlock_stored returned
    exact stored.time
  · have before := h.grown e
    have number : b.metadata.currentBlockHeight.toNat = (zeroHistory i).blocks.length := journal.height
    have longer : (zeroHistory (i + 1)).blocks = (zeroHistory i).blocks ++ [[0]] := by
      rw [zeroHistory_succ]; simp [History.blocks]
    rw [longer]
    refine Nat.le_trans ?_ (grown e)
    by_cases own : e = epochOf b.metadata.currentBlockHeight
    · rw [if_pos own, own, epochBlocks_snoc number bound, List.length_append, List.length_singleton, ← own,
        Nat.add_mul, Nat.one_mul]
      exact Nat.add_le_add_right before _
    · rw [if_neg own, epochBlocks_snoc_ne number bound own]
      exact before

theorem longRun (i : Nat) (reach : i ≤ maxBlocks) : LongRun i (longBackend i : Backend τ) := by
  induction i with
  | zero =>
    refine ⟨.start, fun _ => rfl, rfl, fun e => ?_⟩
    simp [zeroHistory, History.blocks, epochBlocks]
  | succ i ih => exact (ih (by omega)).step (by omega)

/-- A chain of one block more than an epoch is read back whole. -/
theorem journal_round_trip_two_epochs : ∃ b : Backend (SortedRecords TimestampEntry TimestampEntry.compare),
    Run byteDesign b (zeroHistory (blocksPerEpoch + 1)) ∧
      ReadsHistory byteDesign b (zeroHistory (blocksPerEpoch + 1)) := by
  have reach : blocksPerEpoch + 1 ≤ maxBlocks := by decide
  have long : LongRun (blocksPerEpoch + 1) (longBackend (blocksPerEpoch + 1) :
    Backend (SortedRecords TimestampEntry TimestampEntry.compare)) := longRun _ reach
  refine ⟨_, long.run, journal_round_trip byteDesign _ _ long.run ?_ fun _ _ tx _ => byteDesign_readsBack tx⟩
  rw [zeroHistory, List.length_map, List.length_range]
  exact reach

/-- The file of epoch 0, read as one with no block in it yet: its first slot is set. -/
theorem EpochHolds.nil {d : ChainDesign Tx Ov} {img : Image} {blocks : List (List Tx)} (h : EpochHolds d img blocks) :
    EpochHolds d img [] where
  count := Nat.zero_le _
  small := by simp
  fits := by simp
  slots := by simp
  next room := by
    rw [offsetOf_nil]
    cases blocks with
    | nil => simpa [offsetOf_nil] using h.next room
    | cons txs rest => simpa [offsetOf_nil] using h.slots 0 (by simp)
  held := by simp

/-- The backend of the long run after one block more, which carries the byte 1. -/
def overwritten (i : Nat) (b : Backend τ) : Backend τ :=
  (b.addBlock byteDesign briskConfig (fun _ => Env.calm fun _ => 0) [1] (UInt64.ofNat (100 * (i + 1)))).2

/-- The number after the last goes to the first slot of epoch 0. -/
theorem LongRun.first {i : Nat} {b : Backend τ} (h : LongRun i b) (full : i = maxBlocks) :
    epochOf b.metadata.currentBlockHeight = 0 ∧ slotOf b.metadata.currentBlockHeight = 0 := by
  have length : (zeroHistory i).length = i := by simp [zeroHistory]
  obtain ⟨journal, -⟩ := h.run.journal (by omega)
  have height : b.metadata.currentBlockHeight.toNat = 2 ^ 48 := by
    rw [journal.height, History.blocks, List.length_map, length, full]
    rfl
  rw [← UInt32.toNat_inj, epochOf_toNat, slotOf_eq, height]
  decide

/-- The files hold the journal, and so also the journal without the blocks of epoch 0. -/
theorem LongRun.files {i : Nat} {b : Backend τ} (h : LongRun i b) (full : i = maxBlocks) :
    Files byteDesign b (Function.update (epochBlocks (zeroHistory i).blocks) 0 []) := by
  have length : (zeroHistory i).length = i := by simp [zeroHistory]
  obtain ⟨journal, -⟩ := h.run.journal (by omega)
  refine ⟨fun e => ?_, fun e file opened => by simp [h.closed e] at opened⟩
  have held := journal.files.holds e
  by_cases zero : e = 0
  · subst zero
    rw [Function.update_self]
    cases onDisk : b.epochs 0 with
    | none => rfl
    | some disk =>
      rw [onDisk] at held
      exact ⟨held.1.nil, fun j hj => absurd hj (by simp)⟩
  · rw [Function.update_of_ne zero]
    exact held

/-- Block 0 now reads as the new block. -/
theorem LongRun.overwritten {i : Nat} {b : Backend τ} (h : LongRun i b) (full : i = maxBlocks)
    (inRange : 0 < (overwritten i b).metadata.currentBlockHeight) :
    ((overwritten i b).getBlock byteDesign 0 .opens).1 = .ok [1] := by
  obtain ⟨epoch, slot⟩ := h.first full
  have fits : Fits byteDesign b (Function.update (epochBlocks (zeroHistory i).blocks) 0 []) [1] := by
    refine ⟨?_, ?_⟩
    · rw [epoch, Function.update_self, offsetOf_nil]; decide
    · rw [epoch, Function.update_self, offsetOf_nil, Backend.mappedLength, h.closed]
      exact Nat.le_trans (by decide) (Nat.le_add_left _ _)
  have after := (h.files full).after fits (by rw [slot, epoch, Function.update_self]; rfl) briskConfig
    (fun _ => Env.calm fun _ => 0) (UInt64.ofNat (100 * (i + 1)))
    ((AddBlock.machine byteDesign briskConfig).rank (AddBlock.start [1] (UInt64.ofNat (100 * (i + 1))) b))
  have files := after.2 (by
    change (b.addBlockEnd byteDesign briskConfig _ [1] _).pc.stretch = _
    rw [outcome_eq (addBlock_byte 1 h.later)]
    rfl)
  refine Files.getBlock_eq files inRange ?_ fun tx _ => byteDesign_readsBack tx
  rw [Content.append, epoch, Function.update_self, show epochOf 0 = 0 from rfl, Function.update_self]
  rfl

/-- The block after 2^48 others is written over block 0, which `getBlock` then reads as the new
one. -/
theorem journal_wraps : ∃ (b : Backend (SortedRecords TimestampEntry TimestampEntry.compare)) (history : History UInt8),
    Run byteDesign b history ∧ (∀ entry ∈ history, ∀ tx ∈ entry.2, byteDesign.ReadsBack tx) ∧
      ¬ ReadsHistory byteDesign b history := by
  obtain ⟨i, full⟩ : ∃ i, i = maxBlocks := ⟨_, rfl⟩
  have long : LongRun i (longBackend i : Backend (SortedRecords TimestampEntry TimestampEntry.compare)) :=
    longRun i (by omega)
  refine ⟨_, _, long.run.committed (long.fits 1) (addBlock_byte 1 long.later),
    fun _ _ tx _ => byteDesign_readsBack tx, fun reads => ?_⟩
  have positive : 0 < i := by rw [full]; decide
  have mem : ((0 : UInt64), [(0 : UInt8)]) ∈ zeroHistory i :=
    List.mem_map.2 ⟨0, List.mem_range.2 positive, rfl⟩
  obtain ⟨inRange, first⟩ := reads.1 0 [0] (List.mem_append_left _ mem)
  have second := long.overwritten full inRange
  rw [overwritten, first] at second
  simp at second

end Wrap

end MagelessChain
