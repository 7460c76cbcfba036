import MagelessChain.Backend.RoundTrip

/-!
# Queries by time

`getTransactionsByTimeWindow` walks the timestamp tracker and reads each block it finds from the
journal. Over runs of `addBlock` under any clock the tracker has one entry for each recorded
block, whatever the order of their timestamps, and the query returns the blocks of its window in
the order of the tracker. Where the journal has wrapped around, it reads the wrong block.
-/

namespace MagelessChain

open Lib OrderedStore

variable {τ Tx Ov : Type}

/-- The recorded blocks, each with its timestamp. The number of a block is its place. -/
abbrev TimedBlocks (Tx : Type) := List (UInt64 × List Tx)

namespace TimedBlocks

/-- The transaction lists of the recorded blocks. -/
def blocks (log : TimedBlocks Tx) : List (List Tx) := log.map Prod.snd

/-- The transactions of block `n`. -/
def block (log : TimedBlocks Tx) (n : UInt64) : List Tx := (log.blocks[n.toNat]?).getD []

/-- An entry of the tracker that names a recorded block and its timestamp. -/
def Records (log : TimedBlocks Tx) (e : TimestampEntry) : Prop :=
  ∃ txs, log[e.blockNumber.toNat]? = some (e.timestamp, txs)

theorem Records.lt {log : TimedBlocks Tx} {e : TimestampEntry} (h : log.Records e) :
    e.blockNumber.toNat < log.length := by
  obtain ⟨txs, found⟩ := h
  exact (List.getElem?_eq_some_iff.1 found).1

/-- One block more has one entry more. -/
theorem records_snoc {log : TimedBlocks Tx} {n millis : UInt64} {txs : List Tx} (number : n.toNat = log.length)
    (e : TimestampEntry) : TimedBlocks.Records (log ++ [(millis, txs)]) e ↔ e = ⟨millis, n⟩ ∨ log.Records e := by
  unfold Records
  rcases Nat.lt_trichotomy e.blockNumber.toNat log.length with lt | same | gt
  · rw [List.getElem?_append_left lt]
    refine ⟨.inr, ?_⟩
    rintro (rfl | found)
    · exact absurd number (Nat.ne_of_lt lt)
    · exact found
  · have here : n = e.blockNumber := UInt64.toNat_inj.1 (number.trans same.symm)
    have none : log[log.length]? = none := List.getElem?_eq_none (Nat.le_refl _)
    rw [same, List.getElem?_append_right (Nat.le_refl _), Nat.sub_self, none, here]
    simp only [List.getElem?_cons_zero, Option.some.injEq, Prod.mk.injEq, reduceCtorEq, exists_false, or_false]
    constructor
    · rintro ⟨-, time, -⟩
      rw [time]
    · intro eq
      exact ⟨txs, by rw [eq], rfl⟩
  · have past : (log ++ [(millis, txs)])[e.blockNumber.toNat]? = none :=
      List.getElem?_eq_none (by rw [List.length_append, List.length_singleton]; omega)
    have past' : log[e.blockNumber.toNat]? = none := List.getElem?_eq_none (by omega)
    rw [past, past']
    simp only [reduceCtorEq, exists_false, or_false, false_iff]
    rintro rfl
    exact absurd number (Nat.ne_of_gt gt)

end TimedBlocks

/-- What a query of the window is to visit: exactly the entries of the blocks recorded in it, in
ascending order of timestamp and block number. -/
structure WindowExact (log : TimedBlocks Tx) (startMillis endMillis : UInt64) (entries : List TimestampEntry) : Prop where
  sorted : entries.Pairwise (fun a b => TimestampEntry.compare a b = .lt)
  exact : ∀ e, e ∈ entries ↔ log.Records e ∧ startMillis ≤ e.timestamp ∧ e.timestamp ≤ endMillis

section Frames

variable {d : ChainDesign Tx Ov}

theorem getEpochFile_timestamps (b : Backend τ) (n : UInt64) (outcome : OpenOutcome) :
    (b.getEpochFile n outcome).2.timestamps = b.timestamps := by
  unfold Backend.getEpochFile
  split
  · rfl
  · split <;> rfl

theorem withEpoch_timestamps (b : Backend τ) (e : UInt32) (use : EpochFile → Image → EpochFile × Image) :
    (b.withEpoch e use).timestamps = b.timestamps := by
  unfold Backend.withEpoch
  split <;> rfl

/-- Reading a block touches neither the header nor the tracker. -/
theorem getBlock_frame (b : Backend τ) (n : UInt64) (outcome : OpenOutcome) :
    (b.getBlock d n outcome).2.metadata = b.metadata ∧ (b.getBlock d n outcome).2.timestamps = b.timestamps := by
  have header := getEpochFile_metadata b n outcome
  have tracker := getEpochFile_timestamps b n outcome
  unfold Backend.getBlock
  split
  · exact ⟨rfl, rfl⟩
  · split <;> (rename_i eq; rw [eq] at header tracker)
    · exact ⟨header, tracker⟩
    · exact ⟨header, tracker⟩
    · rw [withEpoch_metadata, withEpoch_timestamps]
      exact ⟨header, tracker⟩

theorem collectBlocks_frame (outcome : UInt64 → OpenOutcome) : ∀ (numbers : List UInt64) (b : Backend τ),
    (b.collectBlocks d outcome numbers).2.metadata = b.metadata ∧
      (b.collectBlocks d outcome numbers).2.timestamps = b.timestamps := by
  intro numbers
  induction numbers with
  | nil => intro b; exact ⟨rfl, rfl⟩
  | cons n rest ih =>
    intro b
    have first := getBlock_frame (d := d) b n (outcome n)
    unfold Backend.collectBlocks
    split
    · rename_i e b' eq
      rw [eq] at first
      exact first
    · rename_i txs b' eq
      rw [eq] at first
      have more := ih b'
      split <;> (rename_i eq'; rw [eq'] at more; exact ⟨more.1.trans first.1, more.2.trans first.2⟩)

theorem collectBlocks_singleton {outcome : UInt64 → OpenOutcome} {b : Backend τ} {n : UInt64} {txs : List Tx}
    (read : (b.getBlock d n (outcome n)).1 = .ok txs) : (b.collectBlocks d outcome [n]).1 = .ok txs := by
  rw [Backend.collectBlocks, show b.getBlock d n (outcome n) = (.ok txs, (b.getBlock d n (outcome n)).2) from
    Prod.ext read rfl]
  simp [Backend.collectBlocks]

/-- Reading one committed block after the other. -/
theorem Journal.collectBlocks_eq {log : TimedBlocks Tx}
    (reads : ∀ block ∈ log, ∀ tx ∈ block.2, d.ReadsBack tx) : ∀ (numbers : List UInt64) {b : Backend τ},
    Journal d b log.blocks → (∀ n ∈ numbers, n.toNat < log.length) →
    (b.collectBlocks d (fun _ => .opens) numbers).1 = .ok (numbers.flatMap log.block) := by
  intro numbers
  induction numbers with
  | nil => intro b journal inside; rfl
  | cons n rest ih =>
    intro b journal inside
    have here : n.toNat < log.blocks.length := by
      rw [TimedBlocks.blocks, List.length_map]
      exact inside n List.mem_cons_self
    have block : log.blocks[n.toNat] = log.block n := by simp [TimedBlocks.block, here]
    have reads_block : ∀ tx ∈ log.blocks[n.toNat], d.ReadsBack tx := by
      obtain ⟨entry, mem, eq⟩ := List.mem_map.1 (List.getElem_mem here)
      rw [← eq]
      exact reads entry mem
    have first := journal.getBlock_eq here reads_block
    rw [block] at first
    have journal' := journal.getBlock n .opens
    have more := ih journal' fun m mem => inside m (List.mem_cons_of_mem _ mem)
    rw [Backend.collectBlocks]
    rw [show b.getBlock d n .opens = (.ok (log.block n), (b.getBlock d n .opens).2) from Prod.ext first rfl]
    dsimp only
    rw [show (b.getBlock d n .opens).2.collectBlocks d (fun _ => .opens) rest = (.ok (rest.flatMap log.block),
      ((b.getBlock d n .opens).2.collectBlocks d (fun _ => .opens) rest).2) from Prod.ext more rfl]
    rfl

end Frames

/-- A call that ended with its block in the journal and in the tracker. -/
def Commit.Recorded (c : Commit τ Tx Ov) : Prop := c.pc.stretch = .committed ∧ ∀ e, c.pc ≠ .threw .trackerInsert e

variable [OrderedStore τ TimestampEntry TimestampEntry.compare]

theorem timeWindow_frame {d : ChainDesign Tx Ov} {b b' : Backend τ} {fuel : Nat} {startMillis endMillis : UInt64}
    {outcome : UInt64 → OpenOutcome} {result : Except Exn (List Tx)}
    (h : b.getTransactionsByTimeWindow d fuel startMillis endMillis outcome = some (result, b')) :
    b'.metadata = b.metadata ∧ b'.timestamps = b.timestamps := by
  unfold Backend.getTransactionsByTimeWindow at h
  split at h
  · cases h
    exact ⟨rfl, rfl⟩
  · obtain ⟨numbers, -, eq⟩ := Option.map_eq_some_iff.1 h
    have frame := collectBlocks_frame (d := d) outcome numbers b
    rw [eq] at frame
    exact frame

/-- What a call that recorded its block has stored. -/
theorem Stores.recorded {d : ChainDesign Tx Ov} {b : Backend τ} {c : Commit τ Tx Ov} (h : Stores d b c)
    (ended : AddBlock.halted c) (recorded : c.Recorded) :
    ∃ n segments, Stored b c.backend n c.millis (trackBlock b.timestamps c.millis n) segments := by
  obtain ⟨here, tracked⟩ := recorded
  obtain ⟨txs, millis, duration, pc, b'⟩ := c
  cases pc with
  | returned result =>
    cases result with
    | none => cases here
    | some n => obtain ⟨ov, segments, -, stored⟩ := h; exact ⟨n, segments, stored⟩
  | threw site e =>
    cases site with
    | trackerInsert => exact absurd rfl (tracked e)
    | commitApply => obtain ⟨n, stored⟩ := h; exact ⟨n, [], stored⟩
    | sealing => obtain ⟨n, i, ov, -, -, segments, -, stored⟩ := h; exact ⟨n, segments, stored⟩
    | segmentWrite => obtain ⟨n, i, ov, -, segments, -, stored⟩ := h; exact ⟨n, segments, stored⟩
    | _ => cases here
  | died signal =>
    cases signal with
    | reportDivision => obtain ⟨n, ov, segments, -, stored⟩ := h; exact ⟨n, segments, stored⟩
    | _ => cases here
  | _ => exact absurd ended id

/-- A run of whole operations under any clock, with the blocks it recorded. A call of `addBlock`
may return or throw; it has changed nothing, or it has its block in the journal and the tracker. -/
inductive TimedRun (d : ChainDesign Tx Ov) : Backend τ → TimedBlocks Tx → Prop where
  | start : TimedRun d Backend.fresh []
  | recorded {b : Backend τ} {log : TimedBlocks Tx} {config : BlockchainConfig} {env : Nat → Env} {txs : List Tx}
      {millis : UInt64} : TimedRun d b log → Fits d b (epochBlocks log.blocks) txs →
      (b.addBlockEnd d config env txs millis).Recorded →
      TimedRun d (b.addBlock d config env txs millis).2 (log ++ [(millis, txs)])
  | unchanged {b : Backend τ} {log : TimedBlocks Tx} {config : BlockchainConfig} {env : Nat → Env} {txs : List Tx}
      {millis : UInt64} : TimedRun d b log → (b.addBlockEnd d config env txs millis).pc.stretch = .before →
      TimedRun d (b.addBlock d config env txs millis).2 log
  | getBlock {b : Backend τ} {log : TimedBlocks Tx} (n : UInt64) (outcome : OpenOutcome) :
      TimedRun d b log → TimedRun d (b.getBlock d n outcome).2 log
  | timeWindow {b b' : Backend τ} {log : TimedBlocks Tx} {fuel : Nat} {startMillis endMillis : UInt64}
      {outcome : UInt64 → OpenOutcome} {result : Except Exn (List Tx)} : TimedRun d b log →
      b.getTransactionsByTimeWindow d fuel startMillis endMillis outcome = some (result, b') → TimedRun d b' log
  | evict {b : Backend τ} {log : TimedBlocks Tx} (epoch : UInt32) : TimedRun d b log → TimedRun d (b.evict epoch) log
  | reopen {b : Backend τ} {log : TimedBlocks Tx} : TimedRun d b log → TimedRun d b.reopen log

/-- The tracker has one entry for each recorded block, and the height counts them. -/
structure Tracked (b : Backend τ) (log : TimedBlocks Tx) : Prop where
  height : b.metadata.currentBlockHeight.toNat = log.length
  entries : ∀ e, e ∈ records b.timestamps ↔ log.Records e

theorem Tracked.frame {b b' : Backend τ} {log : TimedBlocks Tx} (h : Tracked b log) (header : b'.metadata = b.metadata)
    (tracker : b'.timestamps = b.timestamps) : Tracked b' log :=
  ⟨by rw [header]; exact h.height, by rw [tracker]; exact h.entries⟩

/-- A recorded block gets an entry of its own, also at a time that is in the tracker already. -/
theorem Tracked.record {b b' : Backend τ} {log : TimedBlocks Tx} {n millis : UInt64} {segments : List Segment}
    {txs : List Tx} (h : Tracked b log) (room : log.length + 1 < 2 ^ 64)
    (stored : Stored b b' n millis (trackBlock b.timestamps millis n) segments) : Tracked b' (log ++ [(millis, txs)]) := by
  have number : n.toNat = log.length := by rw [stored.number, h.height]
  refine ⟨?_, fun e => ?_⟩
  · rw [stored.height, UInt64.toNat_add, number, List.length_append, List.length_singleton]
    exact Nat.mod_eq_of_lt room
  · have fresh : ∀ r ∈ records b.timestamps, TimestampEntry.compare r ⟨millis, n⟩ ≠ .eq := by
      intro r here same
      have named := ((h.entries r).1 here).lt
      rw [TimestampEntry.eq_of_compare same, number] at named
      exact Nat.lt_irrefl _ named
    rw [TimedBlocks.records_snoc number, ← h.entries e, stored.tracker]
    exact mem_insert _ _ fresh e

/-- **The tracker over a whole run** has exactly the recorded blocks. -/
theorem TimedRun.tracked {d : ChainDesign Tx Ov} {b : Backend τ} {log : TimedBlocks Tx} (run : TimedRun d b log)
    (room : log.length < 2 ^ 64) : Tracked b log := by
  induction run with
  | start =>
    refine ⟨rfl, fun e => ?_⟩
    rw [show (Backend.fresh : Backend τ).timestamps = OrderedStore.empty from rfl, records_empty]
    simp [TimedBlocks.Records]
  | @recorded b log config env txs millis run fits recorded ih =>
    rw [List.length_append, List.length_singleton] at room
    have stores : Stores d b (b.addBlockEnd d config env txs millis) := Stores.after d config env txs millis b _
    have ended := (AddBlock.machine d config).halted_run env (AddBlock.start txs millis b)
    obtain ⟨n, segments, stored⟩ := stores.recorded ended recorded
    rw [show (b.addBlockEnd d config env txs millis).millis = millis from (after_args d config env txs millis b _).2] at stored
    exact (ih (by omega)).record room stored
  | @unchanged b log config env txs millis run here ih =>
    have stores : Stores d b (b.addBlockEnd d config env txs millis) := Stores.after d config env txs millis b _
    have same : (b.addBlock d config env txs millis).2 = b := stores.before here
    rw [same]
    exact ih room
  | @getBlock b log n outcome run ih =>
    have frame := getBlock_frame (d := d) b n outcome
    exact (ih room).frame frame.1 frame.2
  | timeWindow run returned ih =>
    have frame := timeWindow_frame returned
    exact (ih room).frame frame.1 frame.2
  | evict epoch run ih => exact (ih room).frame rfl rfl
  | reopen run ih => exact (ih room).frame rfl rfl

/-- **The journal over a whole run** has the recorded blocks. -/
theorem TimedRun.journal {d : ChainDesign Tx Ov} {b : Backend τ} {log : TimedBlocks Tx} (run : TimedRun d b log)
    (reach : log.length ≤ maxBlocks) : Journal d b log.blocks := by
  induction run with
  | start => exact Journal.fresh d
  | @recorded b log config env txs millis run fits recorded ih =>
    rw [List.length_append, List.length_singleton] at reach
    have room : log.blocks.length < maxBlocks := by rw [TimedBlocks.blocks, List.length_map]; omega
    have after := (ih (by omega)).after room fits config env millis
      ((AddBlock.machine d config).rank (AddBlock.start txs millis b))
    have longer : TimedBlocks.blocks (log ++ [(millis, txs)]) = log.blocks ++ [txs] := by simp [TimedBlocks.blocks]
    rw [longer]
    exact after.2 recorded.1
  | @unchanged b log config env txs millis run here ih =>
    have stores : Stores d b (b.addBlockEnd d config env txs millis) := Stores.after d config env txs millis b _
    have same : (b.addBlock d config env txs millis).2 = b := stores.before here
    rw [same]
    exact ih reach
  | getBlock n outcome run ih => exact (ih reach).getBlock n outcome
  | timeWindow run returned ih => exact (ih reach).timeWindow returned
  | evict epoch run ih => exact (ih reach).evict epoch
  | reopen run ih => exact (ih reach).reopen

/-- The query of the window does what it is for: it ends, with the transactions of exactly the
blocks recorded in the window, in the order of the tracker, and asks for no number from the
height on. -/
def WindowReads (d : ChainDesign Tx Ov) (b : Backend τ) (log : TimedBlocks Tx) (startMillis endMillis : UInt64) : Prop :=
  ∃ entries enough, WindowExact log startMillis endMillis entries ∧
    (∀ e ∈ entries, e.blockNumber < b.metadata.currentBlockHeight) ∧
    ∀ fuel, enough ≤ fuel → ∃ b', b.getTransactionsByTimeWindow d fuel startMillis endMillis (fun _ => .opens) =
      some (.ok (entries.flatMap fun e => log.block e.blockNumber), b')

/-- The block numbers of a window come from its entries. -/
theorem Tracked.window {b : Backend τ} {log : TimedBlocks Tx} (h : Tracked b log) (room : log.length < 2 ^ 64)
    (startMillis endMillis : UInt64) : ∃ entries, WindowExact log startMillis endMillis entries ∧
      ∀ fuel, (records b.timestamps).length < fuel →
        getBlocksInWindow fuel b.timestamps startMillis endMillis = some (entries.map TimestampEntry.blockNumber) := by
  have small : ∀ r ∈ records b.timestamps, r.blockNumber.toNat + 1 < 2 ^ 64 := by
    intro r here
    have := ((h.entries r).1 here).lt
    omega
  obtain ⟨entries, sorted, exact, ends⟩ := getBlocksInWindow_exact small startMillis endMillis
  refine ⟨entries, ⟨sorted, fun e => ?_⟩, ends⟩
  rw [exact e, h.entries e]

/-- A query of a run of at most 2^48 blocks reads its window. -/
theorem TimedRun.windowReads {d : ChainDesign Tx Ov} {b : Backend τ} {log : TimedBlocks Tx} (run : TimedRun d b log)
    (reach : log.length ≤ maxBlocks) (reads : ∀ block ∈ log, ∀ tx ∈ block.2, d.ReadsBack tx)
    {startMillis endMillis : UInt64} (ordered : startMillis ≤ endMillis) :
    WindowReads d b log startMillis endMillis := by
  have room : log.length < 2 ^ 64 := by unfold maxBlocks at reach; omega
  have tracked := run.tracked room
  obtain ⟨entries, exact, ends⟩ := tracked.window room startMillis endMillis
  have inside : ∀ n ∈ entries.map TimestampEntry.blockNumber, n.toNat < log.length := by
    intro n mem
    obtain ⟨e, visited, rfl⟩ := List.mem_map.1 mem
    exact ((exact.exact e).1 visited).1.lt
  refine ⟨entries, (records b.timestamps).length + 1, exact, fun e visited => ?_, fun fuel enough => ?_⟩
  · rw [UInt64.lt_iff_toNat_lt, tracked.height]
    exact inside _ (List.mem_map_of_mem visited)
  · have collected := Journal.collectBlocks_eq reads _ (run.journal reach) inside
    rw [List.flatMap_map] at collected
    rw [Backend.getTransactionsByTimeWindow, if_neg (UInt64.not_lt.2 ordered), ends fuel enough]
    exact ⟨_, congrArg some (Prod.ext collected rfl)⟩

/-- **The time window**: after any run of at most 2^48 blocks under any clock, a query returns the
transactions of exactly the blocks recorded in its window, in ascending order of timestamp and
block number. -/
theorem time_window_exact (d : ChainDesign Tx Ov) (b : Backend τ) (log : TimedBlocks Tx) (run : TimedRun d b log)
    (reach : log.length ≤ maxBlocks) (reads : ∀ block ∈ log, ∀ tx ∈ block.2, d.ReadsBack tx)
    (startMillis endMillis : UInt64) (ordered : startMillis ≤ endMillis) :
    WindowReads d b log startMillis endMillis :=
  run.windowReads reach reads ordered

/-- A call that returned a number has recorded its block. -/
theorem recorded_of_returned {d : ChainDesign Tx Ov} {config : BlockchainConfig} {env : Nat → Env} {txs : List Tx}
    {millis n : UInt64} {b : Backend τ} (h : (b.addBlock d config env txs millis).1 = some (.returned (some n))) :
    (b.addBlockEnd d config env txs millis).Recorded := by
  have ended := outcome_eq h
  refine ⟨by rw [ended]; rfl, fun e threw => ?_⟩
  rw [ended] at threw
  cases threw

/-- A block at 500 ms, and one after the clock was set back to 200 ms. -/
def setBackBackend : Backend (SortedRecords TimestampEntry TimestampEntry.compare) :=
  ((Backend.fresh.addBlock byteDesign briskConfig (fun _ => Env.calm fun _ => 0) [7] 500).2.addBlock byteDesign briskConfig
    (fun _ => Env.calm fun _ => 0) [8] 200).2

theorem time_window_exact_set_back : TimedRun byteDesign setBackBackend [(500, [7]), (200, [8])] ∧
    WindowReads byteDesign setBackBackend [(500, [7]), (200, [8])] 100 600 := by
  have first : TimedRun byteDesign ((Backend.fresh : Backend (SortedRecords TimestampEntry TimestampEntry.compare)).addBlock
      byteDesign briskConfig (fun _ => Env.calm fun _ => 0) [7] 500).2 ([] ++ [(500, [7])]) :=
    .recorded .start ⟨by decide +kernel, by decide +kernel⟩ (recorded_of_returned (n := 0) (by decide +kernel))
  have run : TimedRun byteDesign setBackBackend ([(500, [7])] ++ [(200, [8])]) :=
    .recorded first ⟨by decide +kernel, by decide +kernel⟩ (recorded_of_returned (n := 1) (by decide +kernel))
  exact ⟨run, time_window_exact byteDesign _ _ run (by decide) (fun _ _ tx _ => byteDesign_readsBack tx) 100 600 (by decide)⟩

/-! ## Past the last epoch number -/

section Wrap

/-- The blocks of the long run with their timestamps. -/
def timedZeros (i : Nat) : TimedBlocks UInt8 := (List.range i).map fun j => (UInt64.ofNat (100 * (j + 1)), [0])

theorem timedZeros_succ (i : Nat) : timedZeros (i + 1) = timedZeros i ++ [(UInt64.ofNat (100 * (i + 1)), [0])] := by
  simp [timedZeros, List.range_succ]

theorem timedZeros_blocks (i : Nat) : (timedZeros i).blocks = (zeroHistory i).blocks := by
  simp [timedZeros, zeroHistory, TimedBlocks.blocks, History.blocks, Function.comp_def]

/-- The long run under its clock. -/
theorem longTimedRun (i : Nat) (reach : i ≤ maxBlocks) : TimedRun byteDesign (longBackend i : Backend τ) (timedZeros i) := by
  induction i with
  | zero => exact .start
  | succ i ih =>
    have long : LongRun i (longBackend i : Backend τ) := longRun i (by omega)
    have fits := long.fits 0
    rw [← timedZeros_blocks] at fits
    rw [timedZeros_succ]
    exact ((ih (by omega)).recorded fits (recorded_of_returned (addBlock_byte 0 long.later))).reopen

/-- The long run and one block more, which carries the byte 1. -/
def timedWrap (i : Nat) : TimedBlocks UInt8 := timedZeros i ++ [(UInt64.ofNat (100 * (i + 1)), [1])]

theorem getElem?_timedWrap {i k : Nat} {time : UInt64} {txs : List UInt8} (h : (timedWrap i)[k]? = some (time, txs)) :
    k ≤ i ∧ time = UInt64.ofNat (100 * (k + 1)) := by
  have length : (timedZeros i).length = i := by simp [timedZeros]
  rcases Nat.lt_or_ge k i with lt | ge
  · rw [timedWrap, List.getElem?_append_left (by omega)] at h
    simp only [timedZeros, List.getElem?_map, List.getElem?_range lt, Option.map_some, Option.some.injEq,
      Prod.mk.injEq] at h
    exact ⟨Nat.le_of_lt lt, h.1.symm⟩
  · rw [timedWrap, List.getElem?_append_right (by omega), length] at h
    obtain ⟨inside, eq⟩ := List.getElem?_eq_some_iff.1 h
    obtain rfl : k = i := by simp at inside; omega
    simp only [Nat.sub_self, List.getElem_cons_zero, Prod.mk.injEq] at eq
    exact ⟨Nat.le_refl _, eq.1.symm⟩

theorem timedWrap_zero {i : Nat} (positive : 0 < i) : (timedWrap i)[0]? = some (100, [0]) := by
  rw [timedWrap, List.getElem?_append_left (by simpa [timedZeros] using positive)]
  simp [timedZeros, positive]

theorem eq_zero_of_ofNat {k : Nat} (reach : k ≤ maxBlocks) (h : UInt64.ofNat (100 * (k + 1)) = 100) : k = 0 := by
  have small : 100 * (k + 1) < UInt64.size := by
    unfold maxBlocks at reach
    simp only [UInt64.size]
    omega
  have same := congrArg UInt64.toNat h
  rw [UInt64.toNat_ofNat_of_lt' small] at same
  have hundred : (100 : UInt64).toNat = 100 := by decide
  omega

/-- Block 0 is the only one recorded at 100 ms. -/
theorem windowExact_first {i : Nat} {entries : List TimestampEntry} (positive : 0 < i) (reach : i ≤ maxBlocks)
    (h : WindowExact (timedWrap i) 100 100 entries) : entries = [⟨100, 0⟩] := by
  have only : ∀ e, e ∈ entries ↔ e = ⟨100, 0⟩ := by
    intro e
    rw [h.exact e]
    constructor
    · rintro ⟨⟨txs, found⟩, first, last⟩
      obtain ⟨bound, time⟩ := getElem?_timedWrap found
      have at_100 : e.timestamp = 100 := UInt64.le_antisymm last first
      have number := eq_zero_of_ofNat (Nat.le_trans bound reach) (time.symm.trans at_100)
      obtain ⟨timestamp, blockNumber⟩ := e
      rw [TimestampEntry.mk.injEq]
      exact ⟨at_100, UInt64.toNat_inj.1 number⟩
    · rintro rfl
      exact ⟨⟨[0], timedWrap_zero positive⟩, UInt64.le_refl _, UInt64.le_refl _⟩
  have nodup := nodup_of_sorted h.sorted
  have perm : entries.Perm [⟨100, 0⟩] :=
    (List.perm_ext_iff_of_nodup nodup (List.pairwise_singleton _ _)).2 fun e => by rw [only e, List.mem_singleton]
  exact List.perm_singleton.1 perm

/-- The block after 2^48 others is written over block 0, and the query of the time block 0 was
recorded at returns the other block's transactions. -/
theorem time_window_wraps : ∃ (b : Backend (SortedRecords TimestampEntry TimestampEntry.compare)) (log : TimedBlocks UInt8),
    TimedRun byteDesign b log ∧ log.length < 2 ^ 63 ∧ (∀ block ∈ log, ∀ tx ∈ block.2, byteDesign.ReadsBack tx) ∧
      ¬ WindowReads byteDesign b log 100 100 := by
  obtain ⟨i, full⟩ : ∃ i, i = maxBlocks := ⟨_, rfl⟩
  have long : LongRun i (longBackend i : Backend (SortedRecords TimestampEntry TimestampEntry.compare)) :=
    longRun i (by omega)
  have fits := long.fits 1
  rw [← timedZeros_blocks] at fits
  have returned := addBlock_byte 1 long.later
  have run : TimedRun byteDesign (overwritten i (longBackend i)) (timedWrap i) :=
    (longTimedRun i (by omega)).recorded fits (recorded_of_returned returned)
  have positive : 0 < i := by rw [full]; exact Nat.two_pow_pos 48
  have length : (timedWrap i).length = i + 1 := by simp [timedWrap, timedZeros]
  have bound : i + 1 < 2 ^ 63 := by rw [full]; unfold maxBlocks; omega
  refine ⟨_, _, run, by omega, fun _ _ tx _ => byteDesign_readsBack tx, ?_⟩
  rintro ⟨entries, enough, exact, inRange, returns⟩
  obtain rfl := windowExact_first positive (by omega) exact
  have read := long.overwritten full (inRange _ (List.mem_singleton_self _))
  obtain ⟨entries, window, ends⟩ := (run.tracked (by omega)).window (by omega) 100 100
  obtain rfl := windowExact_first positive (by omega) window
  obtain ⟨b', query⟩ := returns (max enough ((records (overwritten i (longBackend i :
    Backend (SortedRecords TimestampEntry TimestampEntry.compare))).timestamps).length + 1)) (Nat.le_max_left _ _)
  rw [Backend.getTransactionsByTimeWindow, if_neg (by decide), ends _ (by omega)] at query
  have result := congrArg Prod.fst (Option.some.inj query)
  have collected : ((overwritten i (longBackend i) :
      Backend (SortedRecords TimestampEntry TimestampEntry.compare)).collectBlocks byteDesign (fun _ => .opens) [0]).1 =
        .ok [1] :=
    collectBlocks_singleton read
  rw [List.map_singleton, collected] at result
  simp [TimedBlocks.block, TimedBlocks.blocks, timedWrap_zero positive] at result

end Wrap

end MagelessChain
