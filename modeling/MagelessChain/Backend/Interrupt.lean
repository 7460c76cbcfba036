import MagelessChain.Backend.RoundTrip

/-!
# Interrupted commits

A call of `addBlock` may stop after any of its effects: it throws, the process dies while the
shared mappings survive, or a reader looks at what is there so far. A `Trace` collects what a
sequence of such calls leaves. As long as every call that is cut off is cut off before the height
is taken or after the block and the slot behind it are written, the chain stays whole; cut off in
between, the next append may land on block 0 of the epoch.
-/

namespace MagelessChain

open Lib

variable {τ Tx Ov : Type} [OrderedStore τ TimestampEntry TimestampEntry.compare]

/-- A call of `addBlock` and the number of effects after which it is looked at or cut off. -/
structure Attempt (Tx : Type) where
  config : BlockchainConfig
  env : Nat → Env
  txs : List Tx
  millis : UInt64
  stop : Nat

/-- What happens to a backend: attempts to commit, restarts of the process, evictions from the
epoch cache and reads. -/
inductive Event (Tx : Type) where
  | attempt (a : Attempt Tx)
  | restart
  | evict (epoch : UInt32)
  | getBlock (n : UInt64) (outcome : OpenOutcome)

/-- A backend, the lists handed in under each block number taken so far, and among them those
whose call returned. -/
structure Trace (τ Tx : Type) where
  backend : Backend τ
  handed : History Tx
  returned : History Tx

/-- Where an attempt stands when it stops. -/
def Attempt.cut (d : ChainDesign Tx Ov) (a : Attempt Tx) (b : Backend τ) : Commit τ Tx Ov :=
  (AddBlock.machine d a.config).after a.env a.stop (AddBlock.start a.txs a.millis b)

/-- The number a call returned, if it did. -/
def Commit.number (c : Commit τ Tx Ov) : Option UInt64 :=
  match c.pc with
  | .returned result => result
  | _ => none

namespace Trace

/-- An empty data directory. -/
def fresh : Trace τ Tx := ⟨Backend.fresh, [], []⟩

/-- The trace after one event. -/
def step (d : ChainDesign Tx Ov) (t : Trace τ Tx) : Event Tx → Trace τ Tx
  | .attempt a =>
    let c := a.cut d t.backend
    { backend := c.backend
      handed := t.handed ++ if c.pc.stretch = .before then [] else [(t.backend.metadata.currentBlockHeight, a.txs)]
      returned := t.returned ++ c.number.toList.map (·, a.txs) }
  | .restart => { t with backend := t.backend.reopen }
  | .evict epoch => { t with backend := t.backend.evict epoch }
  | .getBlock n outcome => { t with backend := (t.backend.getBlock d n outcome).2 }

/-- The trace after a sequence of events. -/
def run (d : ChainDesign Tx Ov) (events : List (Event Tx)) (t : Trace τ Tx) : Trace τ Tx := events.foldl (step d) t

end Trace

/-- An attempt is not stopped between taking its number and writing the slot after its block; a
block it commits fits its epoch file and is in reach of the epoch numbers. -/
def Settles (d : ChainDesign Tx Ov) (t : Trace τ Tx) : Event Tx → Prop
  | .attempt a => (a.cut d t.backend).pc.stretch ≠ .writing ∧
      ((a.cut d t.backend).pc.stretch = .committed →
        t.handed.length < maxBlocks ∧ Fits d t.backend (epochBlocks t.handed.blocks) a.txs)
  | _ => True

/-- Every attempt of a sequence of events settles. -/
def Clean (d : ChainDesign Tx Ov) : Trace τ Tx → List (Event Tx) → Prop
  | _, [] => True
  | t, e :: events => Settles d t e ∧ Clean d (t.step d e) events

/-- The chain is whole: the journal is what was handed in, and what was returned is part of it. -/
structure Whole (d : ChainDesign Tx Ov) (t : Trace τ Tx) : Prop where
  journal : Journal d t.backend t.handed.blocks
  numbered : t.handed.Numbered
  returned : ∀ entry ∈ t.returned, entry ∈ t.handed

theorem Whole.fresh (d : ChainDesign Tx Ov) : Whole d (Trace.fresh : Trace τ Tx) :=
  ⟨Journal.fresh d, fun i hi => absurd hi (by simp [Trace.fresh]), by simp [Trace.fresh]⟩

/-- A call that returned a number has committed the next block. -/
theorem Stores.number {d : ChainDesign Tx Ov} {b : Backend τ} {c : Commit τ Tx Ov} {n : UInt64} (h : Stores d b c)
    (number : c.number = some n) : c.pc.stretch = .committed ∧ n = b.metadata.currentBlockHeight := by
  obtain ⟨txs, millis, duration, pc, b'⟩ := c
  cases pc with
  | returned result =>
    obtain rfl : result = some n := number
    obtain ⟨ov, segments, -, stored⟩ := h
    exact ⟨rfl, stored.number⟩
  | _ => cases number

/-- An attempt that settles keeps the chain whole. -/
theorem Whole.attempt {d : ChainDesign Tx Ov} {t : Trace τ Tx} (h : Whole d t) {a : Attempt Tx}
    (settles : Settles d t (.attempt a)) : Whole d (t.step d (.attempt a)) := by
  obtain ⟨outside, fits⟩ := settles
  have stores : Stores d t.backend (a.cut d t.backend) := Stores.after d a.config a.env a.txs a.millis t.backend _
  match here : (a.cut d t.backend).pc.stretch with
  | .before =>
    have none : (a.cut d t.backend).number = none := by
      by_contra some
      obtain ⟨n, number⟩ := Option.ne_none_iff_exists'.1 some
      rw [(stores.number number).1] at here
      cases here
    have same : t.step d (.attempt a) = t := by
      simp [Trace.step, here, none, stores.before here]
    rw [same]
    exact h
  | .writing => exact absurd here outside
  | .committed =>
    obtain ⟨reach, fits⟩ := fits here
    have length : t.handed.blocks.length = t.handed.length := List.length_map _
    have journal := (h.journal.after (by omega) fits a.config a.env a.millis a.stop).2 here
    have handed : (t.step d (.attempt a)).handed = t.handed ++ [(t.backend.metadata.currentBlockHeight, a.txs)] := by
      simp [Trace.step, here]
    have blocks : (t.step d (.attempt a)).handed.blocks = t.handed.blocks ++ [a.txs] := by
      simp [handed, History.blocks]
    refine ⟨?_, ?_, fun entry mem => ?_⟩
    · rw [blocks]
      exact journal
    · rw [handed]
      exact h.numbered.snoc (by rw [h.journal.height, length])
    · rw [handed]
      rcases List.mem_append.1 mem with mem | mem
      · exact List.mem_append_left _ (h.returned entry mem)
      · obtain ⟨n, number, rfl⟩ := List.mem_map.1 mem
        rw [(stores.number (Option.mem_toList.1 number)).2]
        simp

/-- One event keeps the chain whole. -/
theorem Whole.step {d : ChainDesign Tx Ov} {t : Trace τ Tx} (h : Whole d t) {e : Event Tx} (settles : Settles d t e) :
    Whole d (t.step d e) := by
  cases e with
  | attempt a => exact h.attempt settles
  | restart => exact ⟨h.journal.reopen, h.numbered, h.returned⟩
  | evict epoch => exact ⟨h.journal.evict epoch, h.numbered, h.returned⟩
  | getBlock n outcome => exact ⟨h.journal.getBlock n outcome, h.numbered, h.returned⟩

/-- A clean sequence of events keeps the chain whole. -/
theorem Whole.run {d : ChainDesign Tx Ov} {events : List (Event Tx)} {t : Trace τ Tx} (h : Whole d t)
    (clean : Clean d t events) : Whole d (t.run d events) := by
  induction events generalizing t with
  | nil => exact h
  | cons e events ih => exact ih (h.step clean.1) clean.2

/-- Every block whose call returned is read back with its transactions, and every number below
the height is that of a block that was handed in and is read back. -/
def ChainIntact (d : ChainDesign Tx Ov) (t : Trace τ Tx) : Prop :=
  (∀ n txs, (n, txs) ∈ t.returned → (t.backend.getBlock d n .opens).1 = .ok txs) ∧
  ∀ n < t.backend.metadata.currentBlockHeight, ∃ txs, (n, txs) ∈ t.handed ∧
    (t.backend.getBlock d n .opens).1 = .ok txs

/-- **Interrupted commits**: in every sequence of events in which no attempt stops between the
height increment and the next slot, the chain is intact in the state reached. -/
theorem interrupted_commits_intact (d : ChainDesign Tx Ov) (events : List (Event Tx))
    (clean : Clean d (Trace.fresh : Trace τ Tx) events)
    (reads : ∀ entry ∈ ((Trace.fresh : Trace τ Tx).run d events).handed, ∀ tx ∈ entry.2, d.ReadsBack tx) :
    ChainIntact d ((Trace.fresh : Trace τ Tx).run d events) := by
  have whole := (Whole.fresh d).run clean
  obtain ⟨read, below, -⟩ := whole.journal.readsHistory whole.numbered reads
  refine ⟨fun n txs mem => (read n txs (whole.returned _ mem)).2, fun n lt => ?_⟩
  obtain ⟨txs, mem⟩ := below n lt
  exact ⟨txs, mem, (read n txs mem).2⟩

/-- A call with one transaction, under a quiet environment. -/
def byteAttempt (tx : UInt8) (millis : UInt64) (stop : Nat) : Event UInt8 :=
  .attempt ⟨briskConfig, fun _ => Env.calm fun _ => 0, [tx], millis, stop⟩

/-- One block, a call cut off while it verifies, a restart, and a call cut off once its block and
the next slot are written. -/
def cutEvents : List (Event UInt8) := [byteAttempt 7 100 18, byteAttempt 8 200 3, .restart, byteAttempt 9 200 10]

theorem cut_commits_intact :
    Clean byteDesign (Trace.fresh : Trace (SortedRecords TimestampEntry TimestampEntry.compare) UInt8) cutEvents ∧
      ChainIntact byteDesign ((Trace.fresh : Trace (SortedRecords TimestampEntry TimestampEntry.compare) UInt8).run
        byteDesign cutEvents) := by
  have clean : Clean byteDesign (Trace.fresh : Trace (SortedRecords TimestampEntry TimestampEntry.compare) UInt8)
      cutEvents := by
    refine ⟨⟨by decide +kernel, fun _ => ⟨by decide +kernel, by decide +kernel, by decide +kernel⟩⟩,
      ⟨by decide +kernel, fun committed => absurd committed (by decide +kernel)⟩, trivial,
      ⟨by decide +kernel, fun _ => ⟨by decide +kernel, by decide +kernel, by decide +kernel⟩⟩, trivial⟩
  exact ⟨clean, interrupted_commits_intact byteDesign cutEvents clean fun _ _ tx _ => byteDesign_readsBack tx⟩

/-- One block, a call cut off right after the height increment, and one block more. -/
def tornEvents : List (Event UInt8) := [byteAttempt 7 100 18, byteAttempt 8 200 5, byteAttempt 9 200 18]

/-- What the torn run leaves. -/
def tornTrace : Trace (SortedRecords TimestampEntry TimestampEntry.compare) UInt8 :=
  Trace.fresh.run byteDesign tornEvents

/-- The block after the torn one finds its slot still zero and is written over block 0. -/
theorem torn_commit_overwrites : (0, [7]) ∈ tornTrace.returned ∧
    (tornTrace.backend.getBlock byteDesign 0 .opens).1 = .ok [9] ∧ ¬ ChainIntact byteDesign tornTrace := by
  have first : (0, [7]) ∈ tornTrace.returned := by decide +kernel
  have other : (tornTrace.backend.getBlock byteDesign 0 .opens).1 = .ok [9] := by rfl
  refine ⟨first, other, fun intact => ?_⟩
  have read := intact.1 0 [7] first
  rw [other] at read
  simp at read

end MagelessChain
