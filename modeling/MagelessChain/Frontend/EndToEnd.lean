import MagelessChain.Backend.WrittenBlocks
import MagelessChain.Frontend.WholeNode

/-!
# From `sendTransaction` to `getBlock`

In the whole node a transaction that a process has loaded or accepted is in one place at every moment:
in the mempool, in the block the builder has in hand, or in a block that `getBlock` returns. It passes
from the block in hand to the chain at one effect of `addBlock`, at which the block is whole; what the
builder does when the call is over moves none. A process may be killed at any moment; if a block was
half written then, no process goes on from it here.
-/

namespace MagelessChain

open Lib OrderedStore

/-- The frontend of the process, if it has one. -/
def Running.desk {Tx Ov : Type} : Running Tx Ov → Option (Desk Tx Ov)
  | .up desk => some desk
  | _ => none

/-- A process starts. -/
def WholeMove.starts {Tx : Type} : WholeMove Tx → Bool
  | .start _ => true
  | _ => false

namespace WholeNode

/-! ## The accounts of a frontend -/

section Accounts

variable {κ σ τ Tx Ov Val : Type}

/-- The transactions the builder has in hand that are not in the chain yet. -/
def inHand (s : WholeNode κ σ τ Tx Ov) (desk : Desk Tx Ov) : List Tx :=
  if desk.inAddBlock ∧ s.node.commit.pc.stretch = .committed then [] else desk.builder.inFlight

/-- A frontend over a chain that had `past` when its process started; `before` is the chain the call
of `addBlock` began with. -/
structure Accounts (node : NodeLife κ σ τ Tx Ov) (before : List (List Tx)) (desk : Desk Tx Ov) (past : List (List Tx)) :
    Prop where
  alive : desk.builder ≠ .terminated
  conserved : Conserved (desk.over node.commit.backend)
  outside : desk.inAddBlock = false → node.commit.outcome.isSome ∧ node.commit.blocks before = past ++ desk.committed.blocks
  inside : desk.inAddBlock = true → ∃ held, desk.builder = .selected held node.commit.txs ∧
    before = past ++ desk.committed.blocks

variable {w : Setup Tx Ov Val} {node node' : NodeLife κ σ τ Tx Ov} {desk : Desk Tx Ov} {before past : List (List Tx)}

/-- A frontend that has been constructed has added nothing to the chain it found. -/
theorem Accounts.start {visible : Nat → Visible} {file : Option (Image × Nat)} {f : Frontend τ Tx Ov}
    (constructed : Frontend.construct w.design visible file node.commit.backend = .ok f)
    (rests : node.commit.pc = .returned none) : Accounts node before (f.desk false) (node.commit.blocks before) := by
  obtain ⟨backend, idle, -, committed⟩ := construct_start constructed
  have put : (f.desk false).over node.commit.backend = f := by
    rw [← backend]
    rfl
  refine ⟨?_, ?_, fun _ => ⟨?_, ?_⟩, fun inside => by cases inside⟩
  · rw [show (f.desk false).builder = .idle from idle]
    intro dead
    cases dead
  · rw [put]
    exact Conserved.construct constructed
  · rw [Commit.outcome, rests]
    rfl
  · rw [show (f.desk false).committed = [] from committed]
    simp [History.blocks]

/-- A stretch under the lock moves transactions between the callers, the mempool and the builder. -/
theorem Accounts.act [OrderedStore τ TimestampEntry TimestampEntry.compare] (h : Accounts node before desk past)
    {m : Move Tx} (elsewhere : ∀ env millis, m ≠ .addBlock env millis) {f : Frontend τ Tx Ov}
    (moved : (desk.over node.commit.backend).step w m = some f) (alive : f.builder ≠ .terminated) :
    Accounts node before (f.desk desk.inAddBlock) past := by
  have backend := (Frontend.step_over elsewhere moved node.commit.backend).1
  have same : f.committed = desk.committed := by
    cases step_change moved with
    | committed | rejected | addBlockThrew => exact absurd rfl (elsewhere _ _)
    | _ => rfl
  refine ⟨alive, ?_, fun place => ?_, fun place => ?_⟩
  · have conserved := h.conserved.step moved
    have put : (f.desk desk.inAddBlock).over node.commit.backend = f := by
      rw [show node.commit.backend = f.backend from backend.symm]
      rfl
    rw [put]
    exact conserved
  · obtain ⟨ended, blocks⟩ := h.outside place
    exact ⟨ended, blocks.trans (congrArg (fun c : History Tx => past ++ c.blocks) same.symm)⟩
  · obtain ⟨held, flight, blocks⟩ := h.inside place
    refine ⟨held, Frontend.builder_stays elsewhere flight moved, ?_⟩
    exact blocks.trans (congrArg (fun c : History Tx => past ++ c.blocks) same.symm)

/-- The builder calls `addBlock` with the block in hand. -/
theorem Accounts.call (h : Accounts node before desk past) (place : desk.inAddBlock = false) {held toBuild : List Tx}
    (flight : desk.builder = .selected held toBuild) {millis : UInt64}
    (started : node'.commit = AddBlock.start toBuild millis node.commit.backend) :
    Accounts node' (node.commit.blocks before) { desk with inAddBlock := true } past := by
  refine ⟨h.alive, h.conserved, fun outside => (by cases outside), fun _ => ⟨held, ?_, (h.outside place).2⟩⟩
  rw [started]
  exact flight

/-- The call goes on, or a task does. -/
theorem Accounts.turn (h : Accounts node before desk past)
    (next : node'.commit = node.commit ∨ desk.inAddBlock = true ∧ node'.commit.txs = node.commit.txs) :
    Accounts node' before desk past := by
  refine ⟨h.alive, h.conserved, fun place => ?_, fun place => ?_⟩
  · obtain same | ⟨inside, -⟩ := next
    · rw [same]
      exact h.outside place
    · rw [place] at inside
      cases inside
  · obtain ⟨held, flight, blocks⟩ := h.inside place
    refine ⟨held, ?_, blocks⟩
    obtain same | ⟨-, same⟩ := next
    · rw [same]
      exact flight
    · rw [same]
      exact flight

/-- The call is over: a block that was added is in the chain, one that was not stays in hand. -/
theorem Accounts.ends (h : Accounts node before desk past) (place : desk.inAddBlock = true) {held toBuild : List Tx}
    (flight : desk.builder = .selected held toBuild) {outcome : Outcome} (ended : node.commit.outcome = some outcome)
    {s : WholeNode κ σ τ Tx Ov} {desk' : Desk Tx Ov}
    (up : (s.endCall desk held toBuild outcome).running = .up desk') :
    Accounts node before desk' past := by
  obtain ⟨held', flight', blocks⟩ := h.inside place
  rw [flight] at flight'
  cases flight'
  have pc := outcome_eq ended
  have sum := h.conserved h.alive
  simp only [Desk.over, flight, Builder.inFlight, Frontend.inJournal] at sum
  cases outcome with
  | threw site e => cases up
  | died signal => cases up
  | returned result =>
    cases result with
    | none =>
      cases up
      refine ⟨fun dead => (by cases dead), fun _ => ?_, fun _ => ⟨by rw [ended]; rfl, ?_⟩, fun inside => by cases inside⟩
      · exact sum
      · rw [Commit.blocks_before (by rw [pc]; rfl)]
        exact blocks
    | some n =>
      cases up
      refine ⟨fun dead => (by cases dead), fun _ => ?_, fun _ => ⟨by rw [ended]; rfl, ?_⟩, fun inside => by cases inside⟩
      · simp only [Desk.over, Builder.inFlight, Frontend.inJournal, History.blocks, List.map_append, List.map_cons,
          List.map_nil, List.flatten_append, List.flatten_cons, List.flatten_nil, List.append_nil, ← Multiset.coe_add, Multiset.coe_nil,
          add_zero] at sum ⊢
        rw [sum]
        abel
      · rw [Commit.blocks_committed (by rw [pc]; rfl), blocks]
        simp [History.blocks]

end Accounts

/-! ## Whole runs -/

section Runs

variable {κ σ τ Tx Ov Val : Type} [OrderedStore κ ContentsEntry ContentsEntry.compare]
  [OrderedStore σ SegmentMetadata SegmentMetadata.compare] [OrderedStore τ TimestampEntry TimestampEntry.compare]

/-- The block the builder calls `addBlock` with. -/
def toAdd (s : WholeNode κ σ τ Tx Ov) : Option (List Tx) :=
  s.running.desk.bind fun desk =>
    match desk.builder with
    | .selected _ toBuild => some toBuild
    | _ => none

/-- A move that keeps the journal readable: the block that is added has room and is read back as it was
written, its epoch file opens, and no process starts over a block that is half written. -/
def Journaled (w : Setup Tx Ov Val) (s : WholeNode κ σ τ Tx Ov) : WholeMove Tx → Prop
  | .start _ => s.node.Journaled w.design .restart
  | .call millis => ∀ txs ∈ s.toAdd, s.node.Journaled w.design (.call txs millis)
  | .effect epochOpen trackerInsert now => s.node.Journaled w.design (.commit epochOpen trackerInsert now)
  | .task j a => s.node.Journaled w.design (.job j a)
  | .act _ | .callEnds | .kill | .stop _ | .drained => True

instance (w : Setup Tx Ov Val) [∀ txs, Decidable (w.design.Sound txs)] (s : WholeNode κ σ τ Tx Ov) :
    DecidablePred (s.Journaled w)
  | .start _ => inferInstanceAs (Decidable (s.node.Journaled w.design .restart))
  | .call millis =>
    have : DecidablePred fun txs => s.node.Journaled w.design (.call txs millis) := fun _ => inferInstance
    Option.decidableForallMem s.toAdd
  | .effect epochOpen trackerInsert now =>
    inferInstanceAs (Decidable (s.node.Journaled w.design (.commit epochOpen trackerInsert now)))
  | .task j a => inferInstanceAs (Decidable (s.node.Journaled w.design (.job j a)))
  | .act _ | .callEnds | .kill | .stop _ | .drained => isTrue trivial

/-- Moves of one process. -/
def OfProcess (w : Setup Tx Ov Val) (s : WholeNode κ σ τ Tx Ov) (m : WholeMove Tx) : Prop :=
  s.Journaled w m ∧ m.starts = false

instance (w : Setup Tx Ov Val) [∀ txs, Decidable (w.design.Sound txs)] (s : WholeNode κ σ τ Tx Ov) :
    DecidablePred (s.OfProcess w) :=
  fun m => inferInstanceAs (Decidable (s.Journaled w m ∧ m.starts = false))

/-- A move of the node, or a read by somebody else while the process has a frontend. -/
def stepRead (w : Setup Tx Ov Val) (size : Tx → Nat) (lib : CatalogLibrary) (s : WholeNode κ σ τ Tx Ov) :
    ReaderTurn (WholeMove Tx) → Option (WholeNode κ σ τ Tx Ov)
  | .turn m => s.step w size lib m
  | .getBlock n outcome =>
    match s.running with
    | .up _ => some { s with node := s.node.read w.design n outcome }
    | _ => none

/-- Nobody reads an epoch to which a block is being appended, and the moves of the node are as `allowed`. -/
def ReadsApart (allowed : WholeNode κ σ τ Tx Ov → WholeMove Tx → Prop) (s : WholeNode κ σ τ Tx Ov) :
    ReaderTurn (WholeMove Tx) → Prop
  | .turn m => allowed s m
  | .getBlock n _ => ¬ s.node.commit.pc.appendsTo (epochOf n)

instance (allowed : WholeNode κ σ τ Tx Ov → WholeMove Tx → Prop) (s : WholeNode κ σ τ Tx Ov) [DecidablePred (allowed s)] :
    (move : ReaderTurn (WholeMove Tx)) → Decidable (s.ReadsApart allowed move)
  | .turn m => inferInstanceAs (Decidable (allowed s m))
  | .getBlock n _ => inferInstanceAs (Decidable (¬ s.node.commit.pc.appendsTo (epochOf n)))

/-- A node on its journal, and the accounts of its frontend. -/
structure InAccord (w : Setup Tx Ov Val) (lib : CatalogLibrary) (s : WholeNode κ σ τ Tx Ov) (b : Backend τ)
    (before past : List (List Tx)) : Prop where
  journal : s.node.OnJournal w.design lib b before
  accounts : ∀ desk, s.running = .up desk → Accounts s.node before desk past

variable {w : Setup Tx Ov Val} {size : Tx → Nat} {lib : CatalogLibrary} {s s' : WholeNode κ σ τ Tx Ov} {b : Backend τ}
  {before past : List (List Tx)}

omit [OrderedStore κ ContentsEntry ContentsEntry.compare] [OrderedStore σ SegmentMetadata SegmentMetadata.compare]
  [OrderedStore τ TimestampEntry TimestampEntry.compare] in
theorem endCall_node (s : WholeNode κ σ τ Tx Ov) (desk : Desk Tx Ov) (held toBuild : List Tx) (outcome : Outcome) :
    (s.endCall desk held toBuild outcome).node = s.node := by
  cases outcome with
  | returned result => cases result <;> rfl
  | threw | died => rfl

/-- A process starts over the chain it finds. -/
theorem InAccord.start (h : s.InAccord w lib b before past) (few : w.design.pairCount ≤ 65536) {visible : Nat → Visible}
    (ok : s.Journaled w (.start visible)) (moved : s.step w size lib (.start visible) = some s') :
    ∃ b' before', s'.InAccord w lib b' before' (s'.node.commit.blocks before') := by
  obtain ⟨node, running, file, loaded, accepted⟩ := s
  cases running with
  | down =>
    simp only [WholeNode.step] at moved
    obtain ⟨next, restarted, rfl⟩ := Option.map_eq_some_iff.1 moved
    have journal := h.journal.turn few (t := .restart) ok restarted
    split
    · exact ⟨_, _, journal, fun desk up => by cases up⟩
    · rename_i f constructed
      refine ⟨_, _, journal, fun desk up => ?_⟩
      cases up
      cases restarted
      exact .start constructed rfl
  | up | draining => cases moved

/-- The builder calls `addBlock`. -/
theorem InAccord.call (h : s.InAccord w lib b before past) (few : w.design.pairCount ≤ 65536) {millis : UInt64}
    (ok : s.Journaled w (.call millis)) (moved : s.step w size lib (.call millis) = some s') :
    ∃ b' before', s'.InAccord w lib b' before' past := by
  obtain ⟨node, running, file, loaded, accepted⟩ := s
  cases running with
  | up desk =>
    simp only [WholeNode.step] at moved
    split at moved
    · rename_i held toBuild flight place
      obtain ⟨next, called, rfl⟩ := Option.map_eq_some_iff.1 moved
      have fits : node.Journaled w.design (.call toBuild millis) := by
        apply ok
        simp only [toAdd, Running.desk, Option.bind_some, flight, Option.mem_def]
      refine ⟨_, _, h.journal.turn few fits called, fun desk' up => ?_⟩
      cases up
      obtain ⟨-, rfl⟩ := NodeLife.step_call called
      exact (h.accounts desk rfl).call place flight rfl
    · cases moved
  | down | draining => cases moved

/-- An effect of the call. -/
theorem InAccord.effect (h : s.InAccord w lib b before past) (few : w.design.pairCount ≤ 65536) {epochOpen : OpenOutcome}
    {trackerInsert : Option Exn} {now : UInt64} (ok : s.Journaled w (.effect epochOpen trackerInsert now))
    (moved : s.step w size lib (.effect epochOpen trackerInsert now) = some s') :
    ∃ b' before', s'.InAccord w lib b' before' past := by
  obtain ⟨node, running, file, loaded, accepted⟩ := s
  cases running with
  | up desk =>
    simp only [WholeNode.step] at moved
    split at moved
    · rename_i place
      obtain ⟨next, turned, rfl⟩ := Option.map_eq_some_iff.1 moved
      have journal := h.journal.turn few (t := .commit epochOpen trackerInsert now) ok turned
      refine ⟨_, _, journal, fun desk' up => ?_⟩
      have same : desk' = desk := by
        dsimp only at up
        split at up <;> cases up
        rfl
      rw [same]
      apply (h.accounts desk rfl).turn
      obtain same | ⟨env, -, -, same⟩ := NodeLife.commit_cases turned
      · exact .inl same
      · exact .inr ⟨place, by rw [same]; exact (step_args w.design w.backendConfig env node.commit).1⟩
    · cases moved
  | down | draining => cases moved

/-- The call is over. -/
theorem InAccord.callEnds (h : s.InAccord w lib b before past) (moved : s.step w size lib .callEnds = some s') :
    s'.InAccord w lib b before past := by
  obtain ⟨node, running, file, loaded, accepted⟩ := s
  cases running with
  | up desk =>
    simp only [WholeNode.step] at moved
    split at moved
    · rename_i held toBuild flight place
      obtain ⟨outcome, ended, rfl⟩ := Option.map_eq_some_iff.1 moved
      refine ⟨?_, fun desk' up => ?_⟩
      · rw [endCall_node]
        exact h.journal
      · rw [endCall_node]
        exact (h.accounts desk rfl).ends place flight ended up
    · cases moved
  | down | draining => cases moved

/-- A task goes on. -/
theorem InAccord.task (h : s.InAccord w lib b before past) (few : w.design.pairCount ≤ 65536) {j : Nat} {a : Act}
    (ok : s.Journaled w (.task j a)) (moved : s.step w size lib (.task j a) = some s') :
    ∃ b' before', s'.InAccord w lib b' before' past := by
  obtain ⟨node, running, file, loaded, accepted⟩ := s
  have turned : ∃ next, node.step w.design w.backendConfig lib (.job j a) = some next ∧
      (⟨next, running, file, loaded, accepted⟩ : WholeNode κ σ τ Tx Ov) = s' := by
    cases running with
    | down => cases moved
    | up | draining => exact Option.map_eq_some_iff.1 moved
  obtain ⟨next, turned, rfl⟩ := turned
  refine ⟨_, _, h.journal.turn few (t := .job j a) ok turned, fun desk up => ?_⟩
  exact (h.accounts desk up).turn (.inl (NodeLife.job_commit turned))

/-- **Every move** keeps a node in accord. -/
theorem InAccord.step (h : s.InAccord w lib b before past) (few : w.design.pairCount ≤ 65536) {m : WholeMove Tx}
    (ok : s.Journaled w m) (moved : s.step w size lib m = some s') :
    ∃ b' before' past', s'.InAccord w lib b' before' past' ∧ (m.starts = false → past' = past) := by
  -- a process that has no frontend any more has no accounts
  have away (t : WholeNode κ σ τ Tx Ov) (node : t.node = s.node) (none : ∀ desk, t.running ≠ .up desk) :
      ∃ b' before' past', t.InAccord w lib b' before' past' ∧ (m.starts = false → past' = past) :=
    ⟨b, before, past, ⟨by rw [node]; exact h.journal, fun desk up => absurd up (none desk)⟩, fun _ => rfl⟩
  cases m with
  | start visible =>
    obtain ⟨b', before', started⟩ := h.start few ok moved
    exact ⟨b', before', _, started, fun none => by cases none⟩
  | call millis =>
    obtain ⟨b', before', called⟩ := h.call few ok moved
    exact ⟨b', before', past, called, fun _ => rfl⟩
  | effect epochOpen trackerInsert now =>
    obtain ⟨b', before', went⟩ := h.effect few ok moved
    exact ⟨b', before', past, went, fun _ => rfl⟩
  | callEnds => exact ⟨b, before, past, h.callEnds moved, fun _ => rfl⟩
  | task j a =>
    obtain ⟨b', before', went⟩ := h.task few ok moved
    exact ⟨b', before', past, went, fun _ => rfl⟩
  | act m =>
    obtain ⟨elsewhere, desk, f, up, acted, rfl⟩ := step_act moved
    unfold endAct
    split
    · exact away _ rfl fun desk up => by cases up
    · rename_i alive
      refine ⟨b, before, past, ⟨h.journal, fun desk' up' => ?_⟩, fun _ => rfl⟩
      cases up'
      exact (h.accounts desk up).act elsewhere acted alive
  | kill =>
    obtain ⟨node, running, file, loaded, accepted⟩ := s
    cases running with
    | down => cases moved
    | up | draining =>
      cases moved
      exact away _ rfl fun desk up => by cases up
  | stop effects =>
    obtain ⟨node, running, file, loaded, accepted⟩ := s
    cases running with
    | up desk =>
      simp only [WholeNode.step] at moved
      split at moved <;> cases moved
      exact away _ rfl fun desk up => by cases up
    | down | draining => cases moved
  | drained =>
    obtain ⟨node, running, file, loaded, accepted⟩ := s
    cases running with
    | draining =>
      simp only [WholeNode.step] at moved
      split at moved <;> cases moved
      exact away _ rfl fun desk up => by cases up
    | up | down => cases moved

/-- **A read** keeps it there, and what the process found. -/
theorem InAccord.read (h : s.InAccord w lib b before past) {n : UInt64} {outcome : OpenOutcome}
    (free : ¬ s.node.commit.pc.appendsTo (epochOf n)) (moved : s.stepRead w size lib (.getBlock n outcome) = some s') :
    ∃ b', s'.InAccord w lib b' before past := by
  obtain ⟨node, running, file, loaded, accepted⟩ := s
  cases running with
  | up desk =>
    cases moved
    refine ⟨_, h.journal.read outcome free, fun desk' up => ?_⟩
    cases up
    have accounts := h.accounts desk rfl
    exact ⟨accounts.alive, accounts.conserved, accounts.outside, accounts.inside⟩
  | down | draining => cases moved

theorem InAccord.run (h : s.InAccord w lib b before past) (few : w.design.pairCount ≤ 65536)
    (run : Reach (stepRead w size lib) (ReadsApart (Journaled w)) s s') :
    ∃ b' before' past', s'.InAccord w lib b' before' past' := by
  refine run.invariant (P := fun t => ∃ b' before' past', t.InAccord w lib b' before' past') ⟨b, before, past, h⟩ ?_
  rintro t move t' ⟨b', before', past', accord⟩ ok moved
  cases move with
  | turn m =>
    obtain ⟨_, _, _, next, -⟩ := accord.step few ok moved
    exact ⟨_, _, _, next⟩
  | getBlock n outcome =>
    obtain ⟨_, next⟩ := accord.read ok moved
    exact ⟨_, _, _, next⟩

/-- Within a process the chain it found is the same. -/
theorem InAccord.process (h : s.InAccord w lib b before past) (few : w.design.pairCount ≤ 65536)
    (run : Reach (stepRead w size lib) (ReadsApart (OfProcess w)) s s') : ∃ b' before', s'.InAccord w lib b' before' past := by
  refine run.invariant (P := fun t => ∃ b' before', t.InAccord w lib b' before' past) ⟨b, before, h⟩ ?_
  rintro t move t' ⟨b', before', accord⟩ ok moved
  cases move with
  | turn m =>
    obtain ⟨_, _, past', next, same⟩ := accord.step few ok.1 moved
    rw [same ok.2] at next
    exact ⟨_, _, next⟩
  | getBlock n outcome =>
    obtain ⟨_, next⟩ := accord.read ok moved
    exact ⟨_, _, next⟩

omit [OrderedStore κ ContentsEntry ContentsEntry.compare] [OrderedStore σ SegmentMetadata SegmentMetadata.compare]
  [OrderedStore τ TimestampEntry TimestampEntry.compare] in
/-- The chain is what there was, the committed blocks, and the block under way once it is whole. -/
theorem Accounts.chain {node : NodeLife κ σ τ Tx Ov} {desk : Desk Tx Ov} (h : Accounts node before desk past) :
    ∃ since, node.commit.blocks before = past ++ since ∧
      (desk.sent : Multiset Tx) = desk.mempool + inHand ⟨node, .up desk, none, [], []⟩ desk + since.flatten := by
  have sum := h.conserved h.alive
  simp only [Desk.over, Frontend.inJournal] at sum
  cases place : desk.inAddBlock with
  | false =>
    refine ⟨_, (h.outside place).2, ?_⟩
    rw [inHand, if_neg (by simp [place])]
    exact sum
  | true =>
    obtain ⟨held, flight, blocks⟩ := h.inside place
    by_cases whole : node.commit.pc.stretch = .committed
    · refine ⟨desk.committed.blocks ++ [node.commit.txs], ?_, ?_⟩
      · rw [Commit.blocks_committed whole, blocks, List.append_assoc]
      · rw [inHand, if_pos ⟨place, whole⟩, sum, flight, Builder.inFlight, List.flatten_append, List.flatten_singleton,
          ← Multiset.coe_add, Multiset.coe_nil, add_zero]
        abel
    · refine ⟨desk.committed.blocks, ?_, ?_⟩
      · rw [Commit.blocks, if_neg whole, blocks]
      · rw [inHand, if_neg fun both => whole both.2]
        exact sum

end Runs

end WholeNode

/-! ## Sent and read -/

section Chains

variable {κ σ τ Tx Ov Val : Type} [OrderedStore κ ContentsEntry ContentsEntry.compare]
  [OrderedStore σ SegmentMetadata SegmentMetadata.compare] [OrderedStore τ TimestampEntry TimestampEntry.compare]

/-- The blocks that are written whole, as `getBlock` returns them. -/
def NodeLife.Chain (d : ChainDesign Tx Ov) (s : NodeLife κ σ τ Tx Ov) (blocks : List (List Tx)) : Prop :=
  blocks.length = s.commit.written ∧
  ∀ (n : UInt64) (below : n.toNat < blocks.length), (s.commit.backend.getBlock d n .opens).1 = .ok blocks[n.toNat]

theorem NodeLife.OnJournal.chain {d : ChainDesign Tx Ov} {lib : CatalogLibrary} {s : NodeLife κ σ τ Tx Ov} {b : Backend τ}
    {before : List (List Tx)} (h : s.OnJournal d lib b before) : s.Chain d (s.commit.blocks before) :=
  ⟨h.journaling.length_blocks, fun _ below => h.journaling.getBlock_eq below⟩

end Chains

section Runs

instance (txs : List UInt8) : Decidable (countSetup.design.Sound txs) := inferInstanceAs (Decidable (countDesign.Sound txs))

end Runs

end MagelessChain
