import MagelessChain.Storage.CatalogEnds
import MagelessChain.Backend.Restarts
import MagelessChain.Frontend.Sessions
import MagelessChain.Lib.Behaviours

/-!
# The whole node

A process has a frontend over a backend: callers of `sendTransaction`, the builder thread, and the
tasks of the executor. While the builder is inside `addBlock`, transactions are sent and tasks put
their segments in their files, effect by effect; the process may be killed at any moment, and the
next one opens what is in the stores. When it is shut down, the frontend goes first, then the backend
waits for its tasks.

The sessions of a data directory take a whole `addBlock` as one move and know nothing of the tasks.
They are an abstraction of the whole node: beside each of its behaviours there is one of the sessions,
with the same mempool, the same builder, the same speculative state and the same stores at every moment
at which no block is being added.
-/

namespace MagelessChain

open Lib OrderedStore

/-- A frontend apart from its backend. `inAddBlock` is where the builder thread is in its call. -/
structure Desk (Tx Ov : Type) where
  mempool : List Tx
  state : Ov
  builder : Builder Tx
  inAddBlock : Bool
  sent : List Tx
  committed : History Tx

/-- The process over the stores: none, one with a frontend, or one whose backend waits for its tasks. -/
inductive Running (Tx Ov : Type) where
  | down
  | up (desk : Desk Tx Ov)
  | draining

/-- The stores with the tasks and the call of `addBlock`, the process, and `mempool.bin`. `loaded` and
`accepted` are history, as in `Sessions`. -/
structure WholeNode (κ σ τ Tx Ov : Type) where
  node : NodeLife κ σ τ Tx Ov
  running : Running Tx Ov
  mempoolFile : Option (Image × Nat)
  loaded : List Tx
  accepted : List Tx

/-- What happens in a node. -/
inductive WholeMove (Tx : Type) where
  /-- a process starts and constructs its backend and its frontend -/
  | start (visible : Nat → Visible)
  /-- a stretch of the frontend under the mempool lock -/
  | act (m : Move Tx)
  /-- the builder calls `addBlock`, and one effect of the call -/
  | call (millis : UInt64)
  | effect (epochOpen : OpenOutcome) (trackerInsert : Option Exn) (now : UInt64)
  /-- the call is over for the builder, whichever way it ended -/
  | callEnds
  /-- a step of a task of the executor -/
  | task (j : Nat) (a : Act)
  | kill
  /-- the frontend's destructor, after some effects of saving the mempool; the backend's destructor returns -/
  | stop (effects : Nat)
  | drained

/-- The frontend over its backend. -/
def Desk.over {τ Tx Ov : Type} (desk : Desk Tx Ov) (backend : Backend τ) : Frontend τ Tx Ov :=
  ⟨backend, desk.mempool, desk.state, desk.builder, desk.sent, desk.committed⟩

/-- What a frontend keeps beside its backend. -/
def Frontend.desk {τ Tx Ov : Type} (f : Frontend τ Tx Ov) (inAddBlock : Bool) : Desk Tx Ov :=
  ⟨f.mempool, f.state, f.builder, inAddBlock, f.sent, f.committed⟩

section Steps

variable {κ σ τ Tx Ov Val : Type} [OrderedStore κ ContentsEntry ContentsEntry.compare]
  [OrderedStore σ SegmentMetadata SegmentMetadata.compare] [OrderedStore τ TimestampEntry TimestampEntry.compare]

namespace WholeNode

/-- An empty data directory. -/
def empty : WholeNode κ σ τ Tx Ov := ⟨NodeLife.start, .down, none, [], []⟩

/-- What a stretch under the lock leaves; an exception leaves the builder's thread. -/
def endAct (s : WholeNode κ σ τ Tx Ov) (inAddBlock : Bool) (f : Frontend τ Tx Ov) (accepts : List Tx) :
    WholeNode κ σ τ Tx Ov :=
  match f.builder with
  | .terminated => { s with running := .down }
  | _ => { s with
    running := .up (f.desk inAddBlock)
    accepted := s.accepted ++ accepts }

/-- What the builder does with the outcome of `addBlock`; an exception leaves its thread. -/
def endCall (s : WholeNode κ σ τ Tx Ov) (desk : Desk Tx Ov) (before toBuild : List Tx) : Outcome → WholeNode κ σ τ Tx Ov
  | .returned none => { s with running := .up { desk with
      builder := .rejected before toBuild
      inAddBlock := false } }
  | .returned (some n) => { s with running := .up { desk with
      builder := .committed
      inAddBlock := false
      committed := desk.committed ++ [(n, toBuild)] } }
  | .threw _ _ | .died _ => { s with running := .down }

/-- One move. -/
def step (w : Setup Tx Ov Val) (size : Tx → Nat) (lib : CatalogLibrary) (s : WholeNode κ σ τ Tx Ov) :
    WholeMove Tx → Option (WholeNode κ σ τ Tx Ov)
  | .start visible =>
    match s.running with
    | .down => (s.node.step w.design w.backendConfig lib .restart).map fun node =>
      match Frontend.construct w.design visible s.mempoolFile node.commit.backend with
      | .error _ => { s with node }
      | .ok f => { s with node, running := .up (f.desk false), loaded := f.mempool }
    | _ => none
  | .act (.addBlock _ _) => none
  | .act m =>
    match s.running with
    | .up desk => ((desk.over s.node.commit.backend).step w m).map fun f =>
      s.endAct desk.inAddBlock f ((desk.over s.node.commit.backend).accepts w m)
    | _ => none
  | .call millis =>
    match s.running with
    | .up desk =>
      match desk.builder, desk.inAddBlock with
      | .selected _ toBuild, false => (s.node.step w.design w.backendConfig lib (.call toBuild millis)).map fun node =>
        { s with node, running := .up { desk with inAddBlock := true } }
      | _, _ => none
    | _ => none
  | .effect epochOpen trackerInsert now =>
    match s.running with
    | .up desk =>
      if desk.inAddBlock then
        (s.node.step w.design w.backendConfig lib (.commit epochOpen trackerInsert now)).map fun node =>
          { s with node, running := if node.commit.dead then .down else s.running }
      else none
    | _ => none
  | .callEnds =>
    match s.running with
    | .up desk =>
      match desk.builder, desk.inAddBlock with
      | .selected before toBuild, true => s.node.commit.outcome.map (s.endCall desk before toBuild)
      | _, _ => none
    | _ => none
  | .task j a =>
    match s.running with
    | .down => none
    | _ => (s.node.step w.design w.backendConfig lib (.job j a)).map fun node => { s with node }
  | .kill =>
    match s.running with
    | .down => none
    | _ => some { s with running := .down }
  | .stop effects =>
    match s.running with
    | .up desk =>
      match desk.builder with
      | .idle => some { s with
        running := .draining
        mempoolFile := saveMempool w.design size desk.mempool s.mempoolFile effects }
      | _ => none
    | _ => none
  | .drained =>
    match s.running with
    | .draining =>
      if ∀ job ∈ s.node.catalog.catalog.jobs.drop s.node.catalog.earlier, job.stage.ended then
        some { s with running := .down }
      else none
    | _ => none

theorem step_act {w : Setup Tx Ov Val} {size : Tx → Nat} {lib : CatalogLibrary} {s s' : WholeNode κ σ τ Tx Ov} {m : Move Tx}
    (moved : s.step w size lib (.act m) = some s') : (∀ env millis, m ≠ .addBlock env millis) ∧
    ∃ desk f, s.running = .up desk ∧ (desk.over s.node.commit.backend).step w m = some f ∧
      s.endAct desk.inAddBlock f ((desk.over s.node.commit.backend).accepts w m) = s' := by
  obtain ⟨node, running, file, loaded, accepted⟩ := s
  cases m with
  | addBlock => cases moved
  | _ =>
    cases running with
    | up desk =>
      obtain ⟨f, acted, rfl⟩ := Option.map_eq_some_iff.1 moved
      exact ⟨fun _ _ other => (by cases other), desk, f, rfl, acted, rfl⟩
    | down | draining => cases moved

end WholeNode

end Steps

/-! ## The frontend of the sessions -/

section Fronts

variable {κ σ τ Tx Ov Val : Type} [OrderedStore τ TimestampEntry TimestampEntry.compare]

/-- The stretches under the lock do not use the backend's stores. -/
theorem Frontend.step_over {w : Setup Tx Ov Val} {f f' : Frontend τ Tx Ov} {m : Move Tx}
    (elsewhere : ∀ env millis, m ≠ .addBlock env millis) (moved : f.step w m = some f') (b : Backend τ) :
    f'.backend = f.backend ∧ Frontend.step w { f with backend := b } m = some { f' with backend := b } := by
  cases m with
  | addBlock env millis => exact absurd rfl (elsewhere env millis)
  | sendTransaction visible tx =>
    simp only [Frontend.step] at moved ⊢
    split at moved
    · cases moved
    · split at moved <;> cases moved <;> exact ⟨rfl, rfl⟩
  | select env now =>
    simp only [Frontend.step] at moved ⊢
    split at moved
    · split at moved
      · rename_i waiting
        rw [if_pos waiting]
        split at moved <;> cases moved <;> exact ⟨rfl, rfl⟩
      · rename_i none
        rw [if_neg none]
        cases moved
        exact ⟨rfl, rfl⟩
    · cases moved
  | putBack =>
    simp only [Frontend.step] at moved ⊢
    split at moved
    · cases moved
      exact ⟨rfl, rfl⟩
    · cases moved
  | rebuild visible =>
    simp only [Frontend.step] at moved ⊢
    split at moved
    · split at moved <;> cases moved <;> exact ⟨rfl, rfl⟩
    · cases moved

/-- A block in flight is in flight until `addBlock` is over. -/
theorem Frontend.builder_stays {w : Setup Tx Ov Val} {f f' : Frontend τ Tx Ov} {m : Move Tx} {before toBuild : List Tx}
    (elsewhere : ∀ env millis, m ≠ .addBlock env millis) (flight : f.builder = .selected before toBuild)
    (moved : f.step w m = some f') : f'.builder = .selected before toBuild := by
  cases step_change moved with
  | refused | sent => exact flight
  | waited => exact flight
  | buildThrew idle | selected idle => rw [idle] at flight; cases flight
  | rejected | committed | addBlockThrew => exact absurd rfl (elsewhere _ _)
  | putBack other | rebuildThrew other | rebuilt other => rw [other] at flight; cases flight

omit [OrderedStore τ TimestampEntry TimestampEntry.compare] in
theorem AddBlock.halted_of_outcome {c : Commit τ Tx Ov} {outcome : Outcome} (h : c.outcome = some outcome) : halted c := by
  obtain ⟨txs, millis, duration, pc, b⟩ := c
  cases pc with
  | returned | threw | died => trivial
  | _ => cases h

namespace WholeNode

/-- The frontend of the sessions: its backend is as it was when the call under way began. -/
structure Fronts (w : Setup Tx Ov Val) (node : NodeLife κ σ τ Tx Ov) (desk : Desk Tx Ov) (f : Frontend τ Tx Ov) : Prop where
  same : f = desk.over f.backend
  outside : desk.inAddBlock = false → f.backend = node.commit.backend
  inside : desk.inAddBlock = true → ∃ before toBuild millis, desk.builder = .selected before toBuild ∧
    (AddBlock.machine w.design w.backendConfig).Reaches (AddBlock.start toBuild millis f.backend) node.commit

variable {w : Setup Tx Ov Val} {size : Tx → Nat} {node node' : NodeLife κ σ τ Tx Ov} {desk : Desk Tx Ov}
  {f : Frontend τ Tx Ov} {a : Sessions τ Tx Ov}

/-- The process can die at any moment, in the call or outside it. -/
theorem Fronts.kill (h : Fronts w node desk f) (up : a.process = .up f) :
    ∃ m, a.step w size m = some { a with process := .down node.commit.backend } := by
  cases place : desk.inAddBlock with
  | false =>
    refine ⟨.crash, ?_⟩
    simp only [Sessions.step, up, h.outside place]
  | true =>
    obtain ⟨before, toBuild, millis, flight, env, k, reaches⟩ := h.inside place
    have selected : f.builder = .selected before toBuild := by rw [h.same]; exact flight
    refine ⟨.crashInAddBlock env millis k, ?_⟩
    simp only [Sessions.step, up, selected, Frontend.cut, reaches]

/-- A stretch under the lock, while a block is being added or not. -/
theorem Fronts.act (h : Fronts w node desk f) {m : Move Tx} (elsewhere : ∀ env millis, m ≠ .addBlock env millis)
    {f₁ : Frontend τ Tx Ov} (moved : (desk.over node.commit.backend).step w m = some f₁) :
    f.step w m = some { f₁ with backend := f.backend } ∧
      Fronts w node (f₁.desk desk.inAddBlock) { f₁ with backend := f.backend } := by
  obtain ⟨-, here⟩ := Frontend.step_over elsewhere moved f.backend
  have put : { desk.over node.commit.backend with backend := f.backend } = f := h.same.symm
  rw [put] at here
  refine ⟨here, rfl, h.outside, fun place => ?_⟩
  obtain ⟨before, toBuild, millis, flight, reaches⟩ := h.inside place
  exact ⟨before, toBuild, millis, Frontend.builder_stays elsewhere flight moved, reaches⟩

/-- The call goes on. -/
theorem Fronts.goes_on (h : Fronts w node desk f) (place : desk.inAddBlock = true)
    (next : node'.commit = node.commit ∨ ∃ env, node'.commit = AddBlock.step w.design w.backendConfig env node.commit) :
    Fronts w node' desk f := by
  refine ⟨h.same, fun outside => ?_, fun _ => ?_⟩
  · rw [place] at outside
    cases outside
  · obtain ⟨before, toBuild, millis, flight, reaches⟩ := h.inside place
    obtain same | ⟨env, same⟩ := next
    · exact ⟨before, toBuild, millis, flight, by rw [same]; exact reaches⟩
    · exact ⟨before, toBuild, millis, flight, by rw [same]; exact reaches.step env⟩

/-- The whole call is a call of `addBlock` on the backend it began with. -/
theorem Fronts.called (h : Fronts w node desk f) (place : desk.inAddBlock = true) {outcome : Outcome}
    (ended : node.commit.outcome = some outcome) : ∃ before toBuild millis env, desk.builder = .selected before toBuild ∧
      f.backend.addBlock w.design w.backendConfig env toBuild millis = (some outcome, node.commit.backend) := by
  obtain ⟨before, toBuild, millis, flight, reaches⟩ := h.inside place
  obtain ⟨env, ran⟩ := reaches.run (AddBlock.halted_of_outcome ended)
  refine ⟨before, toBuild, millis, env, flight, ?_⟩
  rw [Backend.addBlock, Backend.addBlockEnd, ran, ended]

end WholeNode

end Fronts

/-! ## The sessions of a node -/

section Sessions

variable {κ σ τ Tx Ov Val : Type} [OrderedStore τ TimestampEntry TimestampEntry.compare]

namespace WholeNode

/-- The process of the sessions. With no frontend over them, the stores are the same but for what a
process keeps in memory. -/
inductive ShowsProcess (w : Setup Tx Ov Val) (node : NodeLife κ σ τ Tx Ov) : Running Tx Ov → Process τ Tx Ov → Prop where
  | up {desk : Desk Tx Ov} {f : Frontend τ Tx Ov} : Fronts w node desk f → ShowsProcess w node (.up desk) (.up f)
  | down {b : Backend τ} : b.reopen = node.commit.backend.reopen → ShowsProcess w node .down (.down b)
  | draining {b : Backend τ} : b.reopen = node.commit.backend.reopen → ShowsProcess w node .draining (.down b)

structure Shows (w : Setup Tx Ov Val) (s : WholeNode κ σ τ Tx Ov) (a : Sessions τ Tx Ov) : Prop where
  process : ShowsProcess w s.node s.running a.process
  mempoolFile : a.mempoolFile = s.mempoolFile
  loaded : a.loaded = s.loaded
  accepted : a.accepted = s.accepted

/-- The sessions come along, by a move or by none. -/
def Follow (w : Setup Tx Ov Val) (size : Tx → Nat) (a : Sessions τ Tx Ov) (s : WholeNode κ σ τ Tx Ov) : Prop :=
  ∃ a', MayMove (Sessions.step w size) a a' ∧ s.Shows w a'

variable {w : Setup Tx Ov Val} {size : Tx → Nat} {node : NodeLife κ σ τ Tx Ov} {desk : Desk Tx Ov} {f : Frontend τ Tx Ov}
  {file : Option (Image × Nat)} {loaded accepted : List Tx}

theorem Fronts.dies (h : Fronts w node desk f) :
    Follow w size ⟨.up f, file, loaded, accepted⟩ ⟨node, .down, file, loaded, accepted⟩ := by
  obtain ⟨m, died⟩ : ∃ m, Sessions.step w size ⟨.up f, file, loaded, accepted⟩ m =
      some ⟨.down node.commit.backend, file, loaded, accepted⟩ := h.kill rfl
  exact ⟨_, .inr ⟨m, died⟩, .down rfl, rfl, rfl, rfl⟩

theorem Fronts.acts (h : Fronts w node desk f) {m : Move Tx} (elsewhere : ∀ env millis, m ≠ .addBlock env millis)
    {f₁ : Frontend τ Tx Ov} (moved : (desk.over node.commit.backend).step w m = some f₁) :
    Follow w size ⟨.up f, file, loaded, accepted⟩
      (endAct ⟨node, .up desk, file, loaded, accepted⟩ desk.inAddBlock f₁
        ((desk.over node.commit.backend).accepts w m)) := by
  obtain ⟨here, fronts⟩ := h.act elsewhere moved
  unfold endAct
  split
  · exact h.dies
  · have accepts : (desk.over node.commit.backend).accepts w m = f.accepts w m := by
      rw [h.same]
      cases m <;> rfl
    refine ⟨⟨.up { f₁ with backend := f.backend }, file, loaded, accepted ++ f.accepts w m⟩, .inr ⟨.act m, ?_⟩, .up fronts,
      rfl, rfl, by rw [accepts]⟩
    simp only [Sessions.step, here]

/-- When the call is over, `addBlock` is one move of the sessions. -/
theorem Fronts.ends (h : Fronts w node desk f) {before toBuild : List Tx} (flight : desk.builder = .selected before toBuild)
    (place : desk.inAddBlock = true) {outcome : Outcome} (ended : node.commit.outcome = some outcome) :
    Follow w size ⟨.up f, file, loaded, accepted⟩
      (endCall ⟨node, .up desk, file, loaded, accepted⟩ desk before toBuild outcome) := by
  obtain ⟨before', toBuild', millis, env, same, called⟩ := h.called place ended
  rw [flight] at same
  cases same
  have selected : f.builder = .selected before toBuild := by rw [h.same]; exact flight
  cases outcome with
  | threw site e => exact h.dies
  | died signal => exact h.dies
  | returned result =>
    cases result with
    | none =>
      refine ⟨⟨.up { f with backend := node.commit.backend, builder := .rejected before toBuild }, file, loaded, accepted⟩,
        .inr ⟨.act (.addBlock env millis), ?_⟩, .up ⟨?_, fun _ => rfl, fun inside => by cases inside⟩, rfl, rfl, rfl⟩
      · simp only [Sessions.step, Frontend.step, selected, called, Frontend.accepts, List.append_nil]
      · rw [h.same]
        rfl
    | some n =>
      refine ⟨⟨.up { f with
          backend := node.commit.backend
          builder := .committed
          committed := f.committed ++ [(n, toBuild)] }, file, loaded, accepted⟩,
        .inr ⟨.act (.addBlock env millis), ?_⟩, .up ⟨?_, fun _ => rfl, fun inside => by cases inside⟩, rfl, rfl, rfl⟩
      · simp only [Sessions.step, Frontend.step, selected, called, Frontend.accepts, List.append_nil]
      · rw [h.same]
        rfl

theorem Fronts.stops (h : Fronts w node desk f) (idle : desk.builder = .idle) (effects : Nat) :
    Follow w size ⟨.up f, file, loaded, accepted⟩
      ⟨node, .draining, saveMempool w.design size desk.mempool file effects, loaded, accepted⟩ := by
  have outside : desk.inAddBlock = false := by
    cases place : desk.inAddBlock with
    | false => rfl
    | true =>
      obtain ⟨before, toBuild, millis, flight, -⟩ := h.inside place
      rw [idle] at flight
      cases flight
  have waits : f.builder = .idle := by rw [h.same]; exact idle
  have mempool : desk.mempool = f.mempool := by rw [h.same]; rfl
  rw [mempool]
  refine ⟨⟨.down f.backend, saveMempool w.design size f.mempool file effects, loaded, accepted⟩, .inr ⟨.stop effects, ?_⟩,
    .draining ?_, rfl, rfl, rfl⟩
  · simp only [Sessions.step, waits]
  · rw [h.outside outside]

/-- A process starts as the sessions start it. -/
theorem starts {b : Backend τ} (stores : node.commit.backend = b.reopen) (visible : Nat → Visible) :
    Follow w size ⟨.down b, file, loaded, accepted⟩
      (match Frontend.construct w.design visible file node.commit.backend with
        | .error _ => ⟨node, .down, file, loaded, accepted⟩
        | .ok f => ⟨node, .up (f.desk false), file, f.mempool, accepted⟩) := by
  split
  · refine ⟨_, .inl rfl, .down ?_, rfl, rfl, rfl⟩
    rw [stores]
    rfl
  · rename_i f constructed
    have backend := (construct_start constructed).1
    rw [stores] at constructed
    refine ⟨⟨.up f, file, f.mempool, accepted⟩, .inr ⟨.start visible, ?_⟩,
      .up ⟨rfl, fun _ => backend, fun inside => by cases inside⟩, rfl, rfl, rfl⟩
    simp only [Sessions.step, Sessions.nextStart, constructed, Except.toOption, Option.map_some]

variable [OrderedStore κ ContentsEntry ContentsEntry.compare] [OrderedStore σ SegmentMetadata SegmentMetadata.compare]

/-- **Every move of the node** is matched by a move of its sessions, or by none. -/
theorem matches_sessions (w : Setup Tx Ov Val) (size : Tx → Nat) (lib : CatalogLibrary) :
    Matches (step w size lib) (Sessions.step w size) (fun (s : WholeNode κ σ τ Tx Ov) a => s.Shows w a) := by
  rintro ⟨node, running, file', loaded', accepted'⟩ m s' ⟨process, file, loaded, accepted⟩ ⟨shown, same, same', same''⟩ moved
  dsimp only at shown same same' same''
  subst same same' same''
  cases shown with
  | @up desk f fronts =>
    cases m with
    | start | drained => cases moved
    | act m =>
      obtain ⟨elsewhere, desk', f₁, same, acted, rfl⟩ := step_act moved
      cases same
      exact fronts.acts elsewhere acted
    | call millis =>
      simp only [step] at moved
      split at moved
      · rename_i before toBuild flight place
        obtain ⟨next, called, rfl⟩ := Option.map_eq_some_iff.1 moved
        refine ⟨_, .inl rfl, .up ⟨fronts.same, fun outside => (by cases outside),
          fun _ => ⟨before, toBuild, millis, flight, ?_⟩⟩, rfl, rfl, rfl⟩
        obtain ⟨-, rfl⟩ := NodeLife.step_call called
        rw [fronts.outside place]
        exact .refl (Env.calm fun _ => 0) _
      · cases moved
    | effect epochOpen trackerInsert now =>
      simp only [step] at moved
      split at moved
      · rename_i place
        obtain ⟨next, turned, rfl⟩ := Option.map_eq_some_iff.1 moved
        have on : Fronts w next desk f := by
          apply fronts.goes_on place
          apply (NodeLife.commit_cases turned).imp_right
          rintro ⟨env, -, -, same⟩
          exact ⟨env, same⟩
        split
        · exact on.dies
        · exact ⟨_, .inl rfl, .up on, rfl, rfl, rfl⟩
      · cases moved
    | callEnds =>
      simp only [step] at moved
      split at moved
      · rename_i before toBuild flight place
        obtain ⟨outcome, ended, rfl⟩ := Option.map_eq_some_iff.1 moved
        exact fronts.ends flight place ended
      · cases moved
    | task j t =>
      obtain ⟨next, turned, rfl⟩ := Option.map_eq_some_iff.1 moved
      have commit := NodeLife.job_commit turned
      refine ⟨_, .inl rfl, .up ⟨fronts.same, fun place => ?_, fun place => ?_⟩, rfl, rfl, rfl⟩
      · rw [commit]
        exact fronts.outside place
      · rw [commit]
        exact fronts.inside place
    | kill =>
      cases moved
      exact fronts.dies
    | stop effects =>
      simp only [step] at moved
      split at moved
      · rename_i idle
        cases moved
        exact fronts.stops idle effects
      · cases moved
  | down stores =>
    cases m with
    | start visible =>
      simp only [step] at moved
      obtain ⟨next, restarted, rfl⟩ := Option.map_eq_some_iff.1 moved
      simp only [NodeLife.step] at restarted
      obtain ⟨catalog, -, rfl⟩ := Option.map_eq_some_iff.1 restarted
      exact starts stores.symm visible
    | act m =>
      obtain ⟨-, desk, f, up, -⟩ := step_act moved
      cases up
    | _ => cases moved
  | draining stores =>
    cases m with
    | task j t =>
      obtain ⟨next, turned, rfl⟩ := Option.map_eq_some_iff.1 moved
      refine ⟨_, .inl rfl, .draining ?_, rfl, rfl, rfl⟩
      rw [NodeLife.job_commit turned]
      exact stores
    | kill =>
      cases moved
      exact ⟨_, .inl rfl, .down stores, rfl, rfl, rfl⟩
    | drained =>
      simp only [step] at moved
      split at moved
      · cases moved
        exact ⟨_, .inl rfl, .down stores, rfl, rfl, rfl⟩
      · cases moved
    | act m =>
      obtain ⟨-, desk, f, up, -⟩ := step_act moved
      cases up
    | _ => cases moved

end WholeNode

/-- **The sessions are what a node does**: beside each behaviour of the whole node, from an empty data
directory and through any number of processes, there is one of its sessions, in which every call of
`addBlock` is one move, and which shows the same mempool, state, builder and history at every moment. -/
theorem whole_node_sessions [OrderedStore κ ContentsEntry ContentsEntry.compare]
    [OrderedStore σ SegmentMetadata SegmentMetadata.compare] (w : Setup Tx Ov Val) (size : Tx → Nat) (lib : CatalogLibrary)
    (f : Nat → WholeNode κ σ τ Tx Ov) (behaves : Behaviour (WholeNode.step w size lib) f) (start : f 0 = WholeNode.empty) :
    ∃ g : Nat → Sessions τ Tx Ov, g 0 = Sessions.empty ∧ Behaviour (Sessions.step w size) g ∧ ∀ k, (f k).Shows w (g k) := by
  apply (WholeNode.matches_sessions w size lib).behaviour behaves
  rw [start]
  exact ⟨.down rfl, rfl, rfl, rfl⟩

end Sessions

section Runs

abbrev ListWholeNode := WholeNode (SortedRecords ContentsEntry ContentsEntry.compare)
  (SortedRecords SegmentMetadata SegmentMetadata.compare) (SortedRecords TimestampEntry TimestampEntry.compare) UInt8 Unit

/-- Transactions of one byte and one index, selected by their value. -/
def countSetup : Setup UInt8 Unit Int := { pickySetup with design := countDesign }

/-- A turn of the task of the executor. -/
def LifeTurn.task : LifeTurn UInt8 → Option (WholeMove UInt8)
  | .job j a => some (.task j a)
  | .call _ _ | .commit _ _ _ | .restart => none

/-- While the block of a transaction is being added, another one is sent; the node is shut down when the
block has returned, waits for its task, and starts again. -/
def sentMeanwhile : List (WholeMove UInt8) :=
  [.start fun _ _ => 0, .act (.sendTransaction (fun _ => 0) 7), .act (.select ⟨fun _ _ _ => 0, fun _ => 0⟩ 100),
    .call 100] ++
    List.replicate 8 (.effect .opens none 50) ++ [.act (.sendTransaction (fun _ => 0) 9)] ++
    List.replicate 8 (.effect .opens none 50) ++
    [.task 0 .walk, .task 0 (.number 50), .task 0 (.openNew true), .task 0 .register] ++
    List.replicate 5 (.effect .opens none 50) ++
    [.callEnds, .act (.rebuild fun _ _ => 0), .stop 4] ++ (wholeTask 0 5000 1).filterMap LifeTurn.task ++
    [.drained, .start fun _ _ => 0]

theorem whole_node_sessions_saved : ∃ f g,
    f = timeline (WholeNode.step countSetup (fun _ => 2) plainLibrary) sentMeanwhile (WholeNode.empty : ListWholeNode) ∧
    g 0 = Sessions.empty ∧ Behaviour (Sessions.step countSetup fun _ => 2) g ∧ (∀ k, (f k).Shows countSetup (g k)) ∧
    (g 40).accepted = [7, 9] ∧ (g 40).loaded = [9] := by
  have ran : (moves (WholeNode.step countSetup (fun _ => 2) plainLibrary) sentMeanwhile (.empty : ListWholeNode)).map
      (fun s => (s.accepted, s.loaded)) = some ([7, 9], [9]) := by
    decide +kernel
  obtain ⟨s, reached, facts⟩ := Option.map_eq_some_iff.1 ran
  obtain ⟨accepted, loaded⟩ := Prod.mk.inj facts
  obtain ⟨g, first, beside, shows⟩ :=
    whole_node_sessions countSetup (fun _ => 2) plainLibrary _ (behaviour_timeline reached) rfl
  have last : timeline (WholeNode.step countSetup (fun _ => 2) plainLibrary) sentMeanwhile (.empty : ListWholeNode) 40 = s := by
    have whole : sentMeanwhile.take 40 = sentMeanwhile := rfl
    rw [timeline, whole, reached, Option.getD_some]
  have shown := shows 40
  rw [last] at shown
  refine ⟨_, g, rfl, first, beside, shows, ?_, ?_⟩
  · rw [shown.accepted, accepted]
  · rw [shown.loaded, loaded]

end Runs

end MagelessChain
