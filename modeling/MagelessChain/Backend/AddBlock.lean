import MagelessChain.Backend.State
import MagelessChain.Storage.EpochAppend
import MagelessChain.Lib.Machine

/-!
# `BlockchainBackend::addBlock`, effect by effect

`addBlock` changes one store after another, with calls in between that may throw. It is
modelled as a step machine: a configuration holds the arguments and locals of the call, a
program counter and the backend, and each step is one effect of the source or one call it
makes. What the surroundings do at a step comes in as its `Env`: which committed segments a
read sees, and whether a storage call fails. A run stopped after any number of steps is the
backend a crash, an exception or a reader in between finds.
-/

namespace MagelessChain

open Lib

/-- The calls of `addBlock` that may throw. -/
inductive Site where
  | verification
  | verificationApply
  | epochOpen
  | transactionWrite
  | trackerInsert
  | commitApply
  | sealing
  | segmentWrite
  deriving DecidableEq, Repr

/-- What ends the process inside `addBlock`: dividing by the size of an empty list in the gate,
using a null epoch file, or dividing by an elapsed time of zero in the report. -/
inductive Signal where
  | gateDivision
  | nullPointer
  | reportDivision
  deriving DecidableEq, Repr

/-- Where a call of `addBlock` stands. `todo` are the transactions a loop has not reached. -/
inductive Pc (Tx Ov : Type) where
  /-- read the clock, pass the timing gate -/
  | enter
  /-- the verification loop: verify the next transaction, then apply it -/
  | verify (todo : List Tx) (ov : Ov)
  | verifyApply (tx : Tx) (todo : List Tx) (ov : Ov)
  /-- `header->currentBlockHeight++` -/
  | takeNumber
  /-- `getEpochFile(blockNumber)` -/
  | openEpoch (n : UInt64)
  /-- the three effects of `appendBlock` -/
  | blockHeader (n : UInt64)
  | transactions (n : UInt64) (todo : List Tx)
  | nextSlot (n : UInt64)
  /-- `header->lastBlockTimestamp = millis` -/
  | setTimestamp (n : UInt64)
  /-- `timestampTracker.addBlock(millis, blockNumber)` -/
  | track (n : UInt64)
  /-- the second loop of applies -/
  | commitApply (n : UInt64) (todo : List Tx) (ov : Ov)
  /-- `sealOverrideToSegments` at slot `i`: seal the family, then write its segment -/
  | sealing (n : UInt64) (i : Nat) (ov : Ov)
  | writeSegment (n : UInt64) (i : Nat) (ov : Ov) (version : UInt16) (payload : Bytes)
  /-- `log.debug`, which divides by the elapsed time -/
  | report (n : UInt64)
  /-- `msync` of the metadata header -/
  | sync (n : UInt64)
  /-- `lastBlockTime = duration` -/
  | finish (n : UInt64)
  /-- the call returned: `none` for -1, else the block number -/
  | returned (result : Option UInt64)
  | threw (site : Site) (e : Exn)
  | died (signal : Signal)
  deriving Repr

/-- What the surroundings do at one step. -/
structure Env where
  visible : Visible
  epochOpen : OpenOutcome
  trackerInsert : Option Exn
  writeSegment : Option Exn

/-- No call fails, and reads see `visible`. -/
def Env.calm (visible : Visible) : Env := ⟨visible, .opens, none, none⟩

/-- A call of `addBlock`: its argument, its clock reading, its locals and the backend. -/
structure Commit (τ Tx Ov : Type) where
  txs : List Tx
  millis : UInt64
  duration : UInt64
  pc : Pc Tx Ov
  backend : Backend τ

/-- How the timing gate decides. -/
inductive Gate where
  | pass
  | reject
  | divideByZero
  deriving DecidableEq, Repr

def longTimeMillis : Nat := 1000 * 3600
def wantedTxPerBlock : Nat := 180
def maxTxPerBlock : Nat := 1024

/-- `(uint32_t)transactions.size()`, the divisor of the block time. -/
def narrowSize (size : Nat) : Nat := (UInt32.ofNat size).toNat

/-- `targetBlockTimeMs * targetThroughput / size`, kept between 100 ms and 600 s. -/
def blockTime (config : BlockchainConfig) (size : Nat) : Nat :=
  max (min (config.targetBlockTimeMs.toNat * config.targetThroughput.toNat / narrowSize size) (600 * 1000)) 100

/-- The checks at the head of `addBlock`. -/
def gate (config : BlockchainConfig) (size : Nat) (duration : UInt64) : Gate :=
  if size = maxTxPerBlock then .pass
  else if narrowSize size = 0 then .divideByZero
  else if duration.toNat < blockTime config size ∨
      (duration.toNat > longTimeMillis ∧ size > wantedTxPerBlock / 2) ∨ size > maxTxPerBlock then .reject
  else .pass

theorem narrowSize_eq {size : Nat} (few : size ≤ maxTxPerBlock) : narrowSize size = size := by
  rw [narrowSize, UInt32.toNat_ofNat']
  unfold maxTxPerBlock at few
  omega

theorem blockTime_le (config : BlockchainConfig) (size : Nat) : blockTime config size ≤ 600000 := by
  unfold blockTime
  omega

theorem le_blockTime (config : BlockchainConfig) (size : Nat) : 100 ≤ blockTime config size := by
  unfold blockTime
  omega

namespace AddBlock

variable {τ Tx Ov : Type} [OrderedStore τ TimestampEntry TimestampEntry.compare]

/-- The call before its first step. -/
def start (txs : List Tx) (millis : UInt64) (b : Backend τ) : Commit τ Tx Ov := ⟨txs, millis, 0, .enter, b⟩

/-- The segment `sealOverrideToSegments` hands to `Catalog::writeSegment` for slot `i`. -/
def segmentOf (n : UInt64) (i : Nat) (version : UInt16) (payload : Bytes) : Segment :=
  ⟨UInt16.ofNat i, version, 0, n, n + 1, payload⟩

/-- One effect of `addBlock`. -/
def step (d : ChainDesign Tx Ov) (config : BlockchainConfig) (env : Env) (c : Commit τ Tx Ov) : Commit τ Tx Ov :=
  let b := c.backend
  match c.pc with
  | .enter =>
    let duration := c.millis - b.metadata.lastBlockTimestamp
    match gate config c.txs.length duration with
    | .pass => { c with duration, pc := .verify c.txs d.freshOverride }
    | .reject => { c with duration, pc := .returned none }
    | .divideByZero => { c with duration, pc := .died .gateDivision }
  | .verify [] _ => { c with pc := .takeNumber }
  | .verify (tx :: todo) ov =>
    if d.verify env.visible ov tx then { c with pc := .verifyApply tx todo ov }
    else { c with pc := .threw .verification (.runtimeError "Transaction verification failed") }
  | .verifyApply tx todo ov =>
    match d.apply env.visible tx ov with
    | (ov, .ok _) => { c with pc := .verify todo ov }
    | (_, .error e) => { c with pc := .threw .verificationApply e }
  | .takeNumber =>
    let n := b.metadata.currentBlockHeight
    { c with
      pc := .openEpoch n
      backend := { b with metadata := { b.metadata with currentBlockHeight := n + 1 } } }
  | .openEpoch n =>
    match b.getEpochFile n env.epochOpen with
    | (.ok (some _), b) => { c with pc := .blockHeader n, backend := b }
    | (.ok none, b) => { c with pc := .died .nullPointer, backend := b }
    | (.error e, b) => { c with pc := .threw .epochOpen e, backend := b }
  | .blockHeader n =>
    { c with
      pc := .transactions n c.txs
      backend := b.withEpoch (epochOf n) fun file img =>
        ({ file with cursor := (beginBlock img n c.millis c.txs.length).2 },
          (beginBlock img n c.millis c.txs.length).1) }
  | .transactions n [] => { c with pc := if hasNextSlot n then .nextSlot n else .setTimestamp n }
  | .transactions n (tx :: todo) =>
    { c with
      pc := match (d.write tx).2 with
        | none => .transactions n todo
        | some e => .threw .transactionWrite e
      backend := b.withEpoch (epochOf n) fun file img =>
        ({ file with cursor := file.cursor + (d.write tx).1.length }, img.write file.cursor (d.write tx).1) }
  | .nextSlot n =>
    { c with
      pc := .setTimestamp n
      backend := b.withEpoch (epochOf n) fun file img => (file, setNextSlot img n file.cursor) }
  | .setTimestamp n =>
    { c with
      pc := .track n
      backend := { b with metadata := { b.metadata with lastBlockTimestamp := c.millis } } }
  | .track n =>
    match env.trackerInsert with
    | some e => { c with pc := .threw .trackerInsert e }
    | none =>
      { c with
        pc := .commitApply n c.txs d.freshOverride
        backend := { b with timestamps := trackBlock b.timestamps c.millis n } }
  | .commitApply n [] ov => { c with pc := .sealing n 0 ov }
  | .commitApply n (tx :: todo) ov =>
    match d.apply env.visible tx ov with
    | (ov, .ok _) => { c with pc := .commitApply n todo ov }
    | (_, .error e) => { c with pc := .threw .commitApply e }
  | .sealing n i ov =>
    if i < d.pairCount then
      match d.sealFamily i (env.visible (UInt16.ofNat i)) ov with
      | .error e => { c with pc := .threw .sealing e }
      | .ok payload =>
        if payload.length = 0 then { c with pc := .sealing n (i + 1) ov }
        else
          match d.encodingVersion (UInt16.ofNat i) with
          | none => { c with pc := .sealing n (i + 1) ov }
          | some version => { c with pc := .writeSegment n i ov version payload }
    else { c with pc := .report n }
  | .writeSegment n i ov version payload =>
    match env.writeSegment with
    | some e => { c with pc := .threw .segmentWrite e }
    | none =>
      { c with
        pc := .sealing n (i + 1) ov
        backend := { b with submitted := b.submitted ++ [segmentOf n i version payload] } }
  | .report n => { c with pc := if c.duration = 0 then .died .reportDivision else .sync n }
  | .sync n => { c with pc := .finish n, backend := { b with durableMetadata := b.metadata } }
  | .finish n => { c with pc := .returned (some n), backend := { b with lastBlockTime := c.duration } }
  | .returned _ | .threw _ _ | .died _ => c

/-- The call has ended. -/
def halted (c : Commit τ Tx Ov) : Prop :=
  match c.pc with
  | .returned _ | .threw _ _ | .died _ => True
  | _ => False

/-- How many steps a call still takes at most, over `t` transactions and `p` paired families. -/
def pcRank (t p : Nat) : Pc Tx Ov → Nat
  | .enter => 14 + 2 * p + 4 * t
  | .verify todo _ => 13 + 2 * p + 2 * t + 2 * todo.length
  | .verifyApply _ todo _ => 14 + 2 * p + 2 * t + 2 * todo.length
  | .takeNumber => 12 + 2 * p + 2 * t
  | .openEpoch _ => 11 + 2 * p + 2 * t
  | .blockHeader _ => 10 + 2 * p + 2 * t
  | .transactions _ todo => 9 + 2 * p + t + todo.length
  | .nextSlot _ => 8 + 2 * p + t
  | .setTimestamp _ => 7 + 2 * p + t
  | .track _ => 6 + 2 * p + t
  | .commitApply _ todo _ => 5 + 2 * p + todo.length
  | .sealing _ i _ => 4 + 2 * (p - i)
  | .writeSegment _ i _ _ _ => 5 + 2 * (p - (i + 1))
  | .report _ => 3
  | .sync _ => 2
  | .finish _ => 1
  | .returned _ | .threw _ _ | .died _ => 0

theorem pcRank_step (d : ChainDesign Tx Ov) (config : BlockchainConfig) (env : Env) (c : Commit τ Tx Ov)
    (going : ¬ halted c) :
    pcRank (step d config env c).txs.length d.pairCount (step d config env c).pc <
      pcRank c.txs.length d.pairCount c.pc := by
  obtain ⟨txs, millis, duration, pc, b⟩ := c
  cases pc with
  | enter =>
    simp only [step]
    split
    · simp only [pcRank]; omega
    · simp [pcRank]
    · simp [pcRank]
  | verify todo ov =>
    cases todo with
    | nil => simp [step, pcRank]
    | cons tx todo => simp only [step]; split <;> simp only [pcRank, List.length_cons] <;> omega
  | verifyApply tx todo ov => simp only [step]; split <;> simp [pcRank]
  | takeNumber => simp [step, pcRank]
  | openEpoch n => simp only [step]; split <;> simp [pcRank]
  | blockHeader n => simp [step, pcRank]; omega
  | transactions n todo =>
    cases todo with
    | nil => simp only [step]; split <;> simp only [pcRank] <;> omega
    | cons tx todo => simp only [step]; split <;> simp [pcRank]
  | nextSlot n => simp [step, pcRank]
  | setTimestamp n => simp [step, pcRank]
  | track n => simp only [step]; split <;> simp [pcRank]
  | commitApply n todo ov =>
    cases todo with
    | nil => simp [step, pcRank]
    | cons tx todo => simp only [step]; split <;> simp [pcRank]
  | sealing n i ov =>
    simp only [step]
    split
    · split
      · simp [pcRank]
      · split
        · simp only [pcRank]; omega
        · split <;> simp only [pcRank] <;> omega
    · simp only [pcRank]; omega
  | writeSegment n i ov version payload => simp only [step]; split <;> simp [pcRank]
  | report n => simp only [step]; split <;> simp [pcRank]
  | sync n => simp [step, pcRank]
  | finish n => simp [step, pcRank]
  | returned result => exact absurd trivial going
  | threw site e => exact absurd trivial going
  | died signal => exact absurd trivial going

theorem step_of_halted (d : ChainDesign Tx Ov) (config : BlockchainConfig) (env : Env) (c : Commit τ Tx Ov)
    (done : halted c) : step d config env c = c := by
  obtain ⟨txs, millis, duration, pc, b⟩ := c
  cases pc <;> first | rfl | exact absurd done id

/-- The machine of `addBlock`. -/
def machine (d : ChainDesign Tx Ov) (config : BlockchainConfig) : Machine Env (Commit τ Tx Ov) where
  step := step d config
  halted := halted
  rank c := pcRank c.txs.length d.pairCount c.pc
  rank_step := pcRank_step d config
  step_halted := step_of_halted d config

/-! ## `appendBlock` -/

section Append

variable {d : ChainDesign Tx Ov} {config : BlockchainConfig} {n : UInt64}

omit [OrderedStore τ TimestampEntry TimestampEntry.compare] in
/-- Two uses of an epoch file one after the other. -/
theorem withEpoch_withEpoch (b : Backend τ) (e : UInt32) (first second : EpochFile → Image → EpochFile × Image) :
    (b.withEpoch e first).withEpoch e second = b.withEpoch e fun file img => second (first file img).1 (first file img).2 := by
  unfold Backend.withEpoch
  cases opened : b.openEpochs e with
  | none => simp only [opened]
  | some file =>
    cases onDisk : b.epochs e with
    | none => simp only [opened, onDisk]
    | some disk => simp only [Function.update_self, Function.update_idem]

omit [OrderedStore τ TimestampEntry TimestampEntry.compare] in
theorem withEpoch_self (b : Backend τ) (e : UInt32) : (b.withEpoch e fun file img => (file, img)) = b := by
  unfold Backend.withEpoch
  split
  · rename_i file disk opened onDisk
    have files : Function.update b.openEpochs e (some file) = b.openEpochs := by
      rw [← opened]
      exact Function.update_eq_self _ _
    have disks : Function.update b.epochs e (some disk) = b.epochs := by
      rw [← onDisk]
      exact Function.update_eq_self _ _
    simp only [files, disks]
  · rfl

/-- The steps over the transactions are the loop of `appendBlock`. -/
theorem transactions_steps (todo : List Tx) (writes : ∀ tx ∈ todo, (d.write tx).2 = none) :
    ∀ {c : Commit τ Tx Ov}, c.pc = .transactions n todo → (machine d config).LeadsTo c { c with
      pc := .transactions n []
      backend := c.backend.withEpoch (epochOf n) fun file img =>
        ({ file with cursor := (appendTransactions d todo img file.cursor).2.1 },
          (appendTransactions d todo img file.cursor).1) } := by
  induction todo with
  | nil =>
    intro c here
    obtain ⟨txs, millis, duration, pc, b⟩ := c
    obtain rfl : pc = _ := here
    have same := withEpoch_self b (epochOf n)
    change (machine d config).LeadsTo _ ⟨txs, millis, duration, .transactions n [], b.withEpoch (epochOf n) fun file img => (file, img)⟩
    rw [same]
    exact .refl _
  | cons tx rest ih =>
    intro c here
    obtain ⟨txs, millis, duration, pc, b⟩ := c
    obtain rfl : pc = _ := here
    have wrote := writes tx List.mem_cons_self
    refine .trans (.step fun env => by simp only [machine, step, wrote]; rfl) ?_
    have more := ih (fun tx mem => writes tx (List.mem_cons_of_mem _ mem)) (c := ⟨txs, millis, duration, .transactions n rest,
      b.withEpoch (epochOf n) fun file img =>
        ({ file with cursor := file.cursor + (d.write tx).1.length }, img.write file.cursor (d.write tx).1)⟩) rfl
    simp only [withEpoch_withEpoch] at more
    simpa only [appendTransactions, wrote] using more

/-- **The steps of `appendBlock`**: where the transactions are written without exceptions, they do to the
open epoch file what the function does. -/
theorem appendBlock_steps {c : Commit τ Tx Ov} (here : c.pc = .blockHeader n) (writes : ∀ tx ∈ c.txs, (d.write tx).2 = none) :
    (machine d config).LeadsTo c { c with
      pc := .setTimestamp n
      backend := c.backend.withEpoch (epochOf n) fun file img =>
        ((file.appendBlock d img n c.millis c.txs).1, (file.appendBlock d img n c.millis c.txs).2.1) } := by
  obtain ⟨txs, millis, duration, pc, b⟩ := c
  obtain rfl : pc = _ := here
  have begun : (machine d config).LeadsTo (⟨txs, millis, duration, .blockHeader n, b⟩ : Commit τ Tx Ov) ⟨txs, millis, duration,
      .transactions n txs, b.withEpoch (epochOf n) fun file img =>
        ({ file with cursor := (beginBlock img n millis txs.length).2 }, (beginBlock img n millis txs.length).1)⟩ :=
    .step fun _ => rfl
  have written := begun.trans (transactions_steps txs writes rfl)
  simp only [withEpoch_withEpoch] at written
  have finished := written.trans (.step fun _ => rfl)
  simp only [appendBlock_returns _ _ _ _ writes]
  by_cases more : hasNextSlot n = true
  · simp only [more, if_true] at finished ⊢
    have last := finished.trans (.step fun _ => rfl)
    simpa only [withEpoch_withEpoch] using last
  · simpa only [more, Bool.false_eq_true, if_false] using finished

end Append

end AddBlock

/-- How a call ended. -/
inductive Outcome where
  | returned (result : Option UInt64)
  | threw (site : Site) (e : Exn)
  | died (signal : Signal)
  deriving DecidableEq, Repr

/-- The outcome of a call that has ended. -/
def Commit.outcome {τ Tx Ov : Type} (c : Commit τ Tx Ov) : Option Outcome :=
  match c.pc with
  | .returned result => some (.returned result)
  | .threw site e => some (.threw site e)
  | .died signal => some (.died signal)
  | _ => none

/-- A call with an outcome stands at its end. -/
theorem outcome_eq {τ Tx Ov : Type} {c : Commit τ Tx Ov} {outcome : Outcome} (h : c.outcome = some outcome) :
    c.pc = match outcome with
      | .returned result => .returned result
      | .threw site e => .threw site e
      | .died signal => .died signal := by
  unfold Commit.outcome at h
  split at h <;> simp_all
  all_goals subst h; rfl

namespace Backend

variable {τ Tx Ov : Type} [OrderedStore τ TimestampEntry TimestampEntry.compare]

/-- The last configuration of a call of `addBlock`. -/
def addBlockEnd (d : ChainDesign Tx Ov) (config : BlockchainConfig) (env : Nat → Env) (txs : List Tx)
    (millis : UInt64) (b : Backend τ) : Commit τ Tx Ov :=
  (AddBlock.machine d config).run env (AddBlock.start txs millis b)

/-- `BlockchainBackend::addBlock`: how the call ends and the backend it leaves. -/
def addBlock (d : ChainDesign Tx Ov) (config : BlockchainConfig) (env : Nat → Env) (txs : List Tx)
    (millis : UInt64) (b : Backend τ) : Option Outcome × Backend τ :=
  ((b.addBlockEnd d config env txs millis).outcome, (b.addBlockEnd d config env txs millis).backend)

/-- Every call of `addBlock` ends. -/
theorem addBlock_ends (d : ChainDesign Tx Ov) (config : BlockchainConfig) (env : Nat → Env) (txs : List Tx)
    (millis : UInt64) (b : Backend τ) : (b.addBlock d config env txs millis).1.isSome := by
  have done := (AddBlock.machine d config).halted_run env (AddBlock.start txs millis b)
  change AddBlock.halted (b.addBlockEnd d config env txs millis) at done
  unfold AddBlock.halted at done
  simp only [addBlock, Commit.outcome]
  split at done <;> simp_all

end Backend

end MagelessChain
