import MagelessChain.Frontend.Conservation
import MagelessChain.Frontend.MempoolFile

/-!
# The mempool across sessions

A data directory sees one process after another. Each loads `mempool.bin` when it starts and writes
it when it shuts down, and at no other time; the journal grows with every commit. A process may
also die, between two moves, inside `addBlock` or inside the save. So `mempool.bin` is right at the
next start only if the process died holding what it had loaded, or saved all of its mempool.
-/

namespace MagelessChain

open Lib

/-- The process over a data directory, or the stores it left. -/
inductive Process (τ Tx Ov : Type) where
  | down (backend : Backend τ)
  | up (frontend : Frontend τ Tx Ov)

/-- A data directory and its process. `loaded` and `accepted` are history: what the last start
loaded, and the transactions `sendTransaction` has returned for, in all sessions. -/
structure Sessions (τ Tx Ov : Type) where
  process : Process τ Tx Ov
  mempoolFile : Option (Image × Nat)
  loaded : List Tx
  accepted : List Tx

/-- What happens to a data directory. A process that an exception ends crashes where it is thrown. -/
inductive SessionMove (Tx : Type) where
  /-- a process starts and constructs its frontend -/
  | start (visible : Nat → Visible)
  | act (m : Move Tx)
  /-- the process dies between two moves -/
  | crash
  /-- the process dies after some effects of `addBlock` -/
  | crashInAddBlock (env : Nat → Env) (millis : UInt64) (effects : Nat)
  /-- the destructor joins the builder and saves the mempool; the process ends after some effects of that -/
  | stop (effects : Nat)

section Sessions

variable {τ Tx Ov Val : Type} [OrderedStore τ TimestampEntry TimestampEntry.compare]

/-- What `sendTransaction` returns for in a move. -/
def Frontend.accepts (w : Setup Tx Ov Val) (f : Frontend τ Tx Ov) : Move Tx → List Tx
  | .sendTransaction visible tx =>
    match (w.design.apply visible tx f.state).2 with
    | .error _ => []
    | .ok _ => [tx]
  | .select _ _ | .addBlock _ _ | .putBack | .rebuild _ => []

/-- An `addBlock` of the frontend, stopped after some effects. -/
def Frontend.cut (w : Setup Tx Ov Val) (f : Frontend τ Tx Ov) (toBuild : List Tx) (env : Nat → Env) (millis : UInt64)
    (effects : Nat) : Commit τ Tx Ov :=
  (AddBlock.machine w.design w.backendConfig).after env effects (AddBlock.start toBuild millis f.backend)

namespace Sessions

/-- An empty data directory. -/
def empty : Sessions τ Tx Ov := ⟨.down Backend.fresh, none, [], []⟩

/-- The frontend the next process constructs, `none` while one is running and where the
constructor throws. -/
def nextStart (w : Setup Tx Ov Val) (s : Sessions τ Tx Ov) (visible : Nat → Visible) : Option (Frontend τ Tx Ov) :=
  match s.process with
  | .up _ => none
  | .down backend => (Frontend.construct w.design visible s.mempoolFile backend.reopen).toOption

/-- One move, with `Transaction::size`. -/
def step (w : Setup Tx Ov Val) (size : Tx → Nat) (s : Sessions τ Tx Ov) : SessionMove Tx → Option (Sessions τ Tx Ov)
  | .start visible => (s.nextStart w visible).map fun f => { s with process := .up f, loaded := f.mempool }
  | .act m =>
    match s.process with
    | .down _ => none
    | .up f =>
      match f.step w m with
      | none => none
      | some f' =>
        match f'.builder with
        | .terminated => none
        | _ => some { s with process := .up f', accepted := s.accepted ++ f.accepts w m }
  | .crash =>
    match s.process with
    | .down _ => none
    | .up f => some { s with process := .down f.backend }
  | .crashInAddBlock env millis effects =>
    match s.process with
    | .down _ => none
    | .up f =>
      match f.builder with
      | .selected _ toBuild => some { s with process := .down (f.cut w toBuild env millis effects).backend }
      | _ => none
  | .stop effects =>
    match s.process with
    | .down _ => none
    | .up f =>
      match f.builder with
      | .idle => some { s with
          process := .down f.backend
          mempoolFile := saveMempool w.design size f.mempool s.mempoolFile effects }
      | _ => none

end Sessions

/-- The journal as it is read: the height counts the blocks, and `getBlock` returns them. -/
structure Journaled (d : ChainDesign Tx Ov) (b : Backend τ) (blocks : List (List Tx)) : Prop where
  height : b.metadata.currentBlockHeight.toNat = blocks.length
  read : ∀ n (inside : n < blocks.length), (b.getBlock d (UInt64.ofNat n) .opens).1 = .ok blocks[n]

/-- The next start finds the transactions accepted so far, each once, in the mempool it loads or in
the journal. -/
def Restores (w : Setup Tx Ov Val) (s : Sessions τ Tx Ov) : Prop :=
  ∀ visible f, s.nextStart w visible = some f → ∃ blocks, Journaled w.design f.backend blocks ∧
    (f.mempool : Multiset Tx) + blocks.flatten = s.accepted

/-- The next block fits its epoch file, within reach of the epoch numbers. -/
def FitsNext (d : ChainDesign Tx Ov) (b : Backend τ) (txs : List Tx) : Prop :=
  ∀ blocks, Journal d b blocks → blocks.length < maxBlocks ∧ Fits d b (epochBlocks blocks) txs

/-- A crash comes when the frontend holds what it loaded: not while a block is written, and once it
is written, without counting it. A save comes to its end, unless there is nothing to save. -/
def Recoverable (w : Setup Tx Ov Val) (s : Sessions τ Tx Ov) : SessionMove Tx → Prop
  | .start _ => True
  | .act (.addBlock _ _) => ∀ f before toBuild, s.process = .up f → f.builder = .selected before toBuild →
      FitsNext w.design f.backend toBuild
  | .act _ => True
  | .crash => ∀ f, s.process = .up f → (f.mempool : Multiset Tx) + f.builder.inFlight = s.loaded
  | .crashInAddBlock env millis effects => ∀ f before toBuild, s.process = .up f → f.builder = .selected before toBuild →
      match (f.cut w toBuild env millis effects).pc.stretch with
      | .before => (f.mempool : Multiset Tx) + toBuild = s.loaded
      | .writing => False
      | .committed => (f.mempool : Multiset Tx) = s.loaded ∧ FitsNext w.design f.backend toBuild
  | .stop effects => ∀ f, s.process = .up f →
      if effects = 0 then (f.mempool : Multiset Tx) = s.loaded
      else f.mempool = [] ∨ f.mempool.length < 2 ^ 32 ∧ f.mempool.length + 3 ≤ effects

/-- Everything a move can do, case by case. -/
inductive Sessions.Change (w : Setup Tx Ov Val) (size : Tx → Nat) (s : Sessions τ Tx Ov) :
    SessionMove Tx → Sessions τ Tx Ov → Prop where
  | started {visible : Nat → Visible} {b : Backend τ} {f : Frontend τ Tx Ov} (down : s.process = .down b)
      (constructed : Frontend.construct w.design visible s.mempoolFile b.reopen = .ok f) :
      Change w size s (.start visible) { s with process := .up f, loaded := f.mempool }
  | acted {m : Move Tx} {f f' : Frontend τ Tx Ov} (up : s.process = .up f) (moved : f.step w m = some f')
      (alive : f'.builder ≠ .terminated) :
      Change w size s (.act m) { s with process := .up f', accepted := s.accepted ++ f.accepts w m }
  | crashed {f : Frontend τ Tx Ov} (up : s.process = .up f) : Change w size s .crash { s with process := .down f.backend }
  | crashedInAddBlock {env : Nat → Env} {millis : UInt64} {effects : Nat} {f : Frontend τ Tx Ov} {before toBuild : List Tx}
      (up : s.process = .up f) (flight : f.builder = .selected before toBuild) :
      Change w size s (.crashInAddBlock env millis effects)
        { s with process := .down (f.cut w toBuild env millis effects).backend }
  | stopped {effects : Nat} {f : Frontend τ Tx Ov} (up : s.process = .up f) (idle : f.builder = .idle) :
      Change w size s (.stop effects) { s with
        process := .down f.backend
        mempoolFile := saveMempool w.design size f.mempool s.mempoolFile effects }

omit [OrderedStore τ TimestampEntry TimestampEntry.compare] in
theorem nextStart_eq {w : Setup Tx Ov Val} {s : Sessions τ Tx Ov} {visible : Nat → Visible} {f : Frontend τ Tx Ov}
    (starts : s.nextStart w visible = some f) :
    ∃ b, s.process = .down b ∧ Frontend.construct w.design visible s.mempoolFile b.reopen = .ok f := by
  unfold Sessions.nextStart at starts
  split at starts
  · cases starts
  · rename_i b down
    refine ⟨b, down, ?_⟩
    cases constructed : Frontend.construct w.design visible s.mempoolFile b.reopen with
    | error e => simp [constructed, Except.toOption] at starts
    | ok f' =>
      rw [constructed] at starts
      cases starts
      rfl

/-- The cases of a move. -/
theorem session_change {w : Setup Tx Ov Val} {size : Tx → Nat} {s s' : Sessions τ Tx Ov} {m : SessionMove Tx}
    (moved : s.step w size m = some s') : s.Change w size m s' := by
  cases m with
  | start visible =>
    obtain ⟨f, starts, rfl⟩ := Option.map_eq_some_iff.1 moved
    obtain ⟨b, down, constructed⟩ := nextStart_eq starts
    exact .started down constructed
  | act m =>
    simp only [Sessions.step] at moved
    split at moved
    · cases moved
    · rename_i f up
      split at moved
      · cases moved
      · rename_i f' acted
        split at moved
        · cases moved
        · rename_i alive
          cases moved
          exact .acted up acted fun dead => alive dead
  | crash =>
    simp only [Sessions.step] at moved
    split at moved
    · cases moved
    · rename_i f up
      cases moved
      exact .crashed up
  | crashInAddBlock env millis effects =>
    simp only [Sessions.step] at moved
    split at moved
    · cases moved
    · rename_i f up
      split at moved
      · rename_i before toBuild flight
        cases moved
        exact .crashedInAddBlock up flight
      · cases moved
  | stop effects =>
    simp only [Sessions.step] at moved
    split at moved
    · cases moved
    · rename_i f up
      split at moved
      · rename_i idle
        cases moved
        exact .stopped up idle
      · cases moved

/-! ## What every move keeps -/

/-- What a process has left: the transactions accepted are in `mempool.bin` or in the journal. -/
structure Left (w : Setup Tx Ov Val) (s : Sessions τ Tx Ov) (b : Backend τ) (blocks : List (List Tx)) (stored : List Tx) :
    Prop where
  journal : Journal w.design b blocks
  holds : MempoolHolds w.design s.mempoolFile stored
  accepted : (s.accepted : Multiset Tx) = stored + blocks.flatten

/-- A process at work over a journal of `past` blocks: `mempool.bin` has what it loaded, whatever
happened since. -/
structure Working (w : Setup Tx Ov Val) (s : Sessions τ Tx Ov) (f : Frontend τ Tx Ov) (past : List (List Tx)) : Prop where
  alive : f.builder ≠ .terminated
  conserved : Conserved f
  journal : Journal w.design f.backend (past ++ f.committed.blocks)
  holds : MempoolHolds w.design s.mempoolFile s.loaded
  accepted : (s.accepted : Multiset Tx) = f.sent + past.flatten

/-- The state of a data directory and its process. -/
def Sessions.Inv (w : Setup Tx Ov Val) (s : Sessions τ Tx Ov) : Prop :=
  match s.process with
  | .down b => ∃ blocks stored, Left w s b blocks stored
  | .up f => ∃ past, Working w s f past

section Steps

variable {w : Setup Tx Ov Val} {size : Tx → Nat}

theorem Sessions.Inv.empty : (Sessions.empty : Sessions τ Tx Ov).Inv w :=
  ⟨[], [], Journal.fresh w.design, rfl, rfl⟩

omit [OrderedStore τ TimestampEntry TimestampEntry.compare] in
/-- A frontend is constructed with what the file holds. -/
theorem construct_mempool (reads : ∀ tx, w.design.ReadsBack tx) {visible : Nat → Visible} {file : Option (Image × Nat)}
    {txs : List Tx} (holds : MempoolHolds w.design file txs) {b : Backend τ} {f : Frontend τ Tx Ov}
    (constructed : Frontend.construct w.design visible file b = .ok f) : f.mempool = txs := by
  rw [Frontend.construct, loadMempool_held (fun tx _ => reads tx) holds] at constructed
  cases applied : reapply w.design visible 0 txs w.design.freshOverride with
  | error e => simp [applied, Except.map] at constructed
  | ok ov =>
    simp only [applied, Except.map] at constructed
    cases constructed
    rfl

omit [OrderedStore τ TimestampEntry TimestampEntry.compare] in
theorem Left.start {s : Sessions τ Tx Ov} {b : Backend τ} {blocks : List (List Tx)} {stored : List Tx}
    (h : Left w s b blocks stored) (reads : ∀ tx, w.design.ReadsBack tx) {visible : Nat → Visible} {f : Frontend τ Tx Ov}
    (constructed : Frontend.construct w.design visible s.mempoolFile b.reopen = .ok f) :
    Working w { s with process := .up f, loaded := f.mempool } f blocks := by
  obtain ⟨backend, idle, sent, committed⟩ := construct_start constructed
  have mempool := construct_mempool reads h.holds constructed
  refine ⟨by rw [idle]; nofun, Conserved.construct constructed, ?_, mempool ▸ h.holds, ?_⟩
  · rw [backend, committed]
    simpa [History.blocks] using h.journal.reopen
  · rw [sent, mempool]
    exact h.accepted

/-- What `sendTransaction` returns for is sent. -/
theorem sent_step {f f' : Frontend τ Tx Ov} {m : Move Tx} (moved : f.step w m = some f') :
    f'.sent = f.sent ++ f.accepts w m := by
  cases step_change moved with
  | refused _ applied => simp [Frontend.accepts, applied]
  | sent _ applied => simp [Frontend.accepts, applied]
  | _ => simp [Frontend.accepts]

theorem Working.act {s : Sessions τ Tx Ov} {f f' : Frontend τ Tx Ov} {past : List (List Tx)} {m : Move Tx}
    (h : Working w s f past) (allowed : Recoverable w s (.act m)) (up : s.process = .up f) (moved : f.step w m = some f')
    (alive : f'.builder ≠ .terminated) :
    Working w { s with process := .up f', accepted := s.accepted ++ f.accepts w m } f' past := by
  have fits : BlockFits w past f m := by
    cases m with
    | addBlock env millis => exact fun before toBuild flight => allowed f before toBuild up flight _ h.journal
    | _ => trivial
  refine ⟨alive, h.conserved.step moved, h.journal.move fits moved alive, h.holds, ?_⟩
  have accepted := h.accepted
  rw [sent_step moved, ← Multiset.coe_add, ← Multiset.coe_add, accepted]
  abel

omit [OrderedStore τ TimestampEntry TimestampEntry.compare] in
/-- What is accepted is pending or in the journal. -/
theorem Working.pending {s : Sessions τ Tx Ov} {f : Frontend τ Tx Ov} {past : List (List Tx)} (h : Working w s f past) :
    (s.accepted : Multiset Tx) = f.mempool + f.builder.inFlight + (past ++ f.committed.blocks).flatten := by
  rw [h.accepted, h.conserved h.alive, List.flatten_append, ← Multiset.coe_add, Frontend.inJournal]
  abel

omit [OrderedStore τ TimestampEntry TimestampEntry.compare] in
theorem Working.crash {s : Sessions τ Tx Ov} {f : Frontend τ Tx Ov} {past : List (List Tx)} (h : Working w s f past)
    (same : (f.mempool : Multiset Tx) + f.builder.inFlight = s.loaded) :
    Left w { s with process := .down f.backend } f.backend (past ++ f.committed.blocks) s.loaded :=
  ⟨h.journal, h.holds, by rw [← same]; exact h.pending⟩

theorem Working.crashInAddBlock {s : Sessions τ Tx Ov} {f : Frontend τ Tx Ov} {past : List (List Tx)}
    {before toBuild : List Tx} {env : Nat → Env} {millis : UInt64} {effects : Nat} (h : Working w s f past)
    (allowed : Recoverable w s (.crashInAddBlock env millis effects)) (up : s.process = .up f)
    (flight : f.builder = .selected before toBuild) :
    ∃ blocks, Left w { s with process := .down (f.cut w toBuild env millis effects).backend }
      (f.cut w toBuild env millis effects).backend blocks s.loaded := by
  have pending := h.pending
  rw [flight, Builder.inFlight] at pending
  have stores : Stores w.design f.backend (f.cut w toBuild env millis effects) :=
    Stores.after w.design w.backendConfig env toBuild millis f.backend effects
  have condition := allowed f before toBuild up flight
  cases here : (f.cut w toBuild env millis effects).pc.stretch with
  | before =>
    simp only [here] at condition
    refine ⟨past ++ f.committed.blocks, ?_, h.holds, by rw [← condition]; exact pending⟩
    rw [stores.before here]
    exact h.journal
  | writing =>
    simp only [here] at condition
  | committed =>
    simp only [here] at condition
    obtain ⟨same, fits⟩ := condition
    obtain ⟨reach, fits⟩ := fits _ h.journal
    refine ⟨past ++ f.committed.blocks ++ [toBuild], ?_, h.holds, ?_⟩
    · exact (h.journal.after reach fits w.backendConfig env millis effects).2 here
    · rw [List.flatten_append, List.flatten_singleton, ← Multiset.coe_add, ← same]
      change (s.accepted : Multiset Tx) = _
      rw [pending]
      abel

theorem Working.stop {s : Sessions τ Tx Ov} {f : Frontend τ Tx Ov} {past : List (List Tx)} {effects : Nat}
    (h : Working w s f past) (app : Persistable w.design size) (allowed : Recoverable w s (.stop effects))
    (up : s.process = .up f) (idle : f.builder = .idle) :
    ∃ stored, Left w { s with
      process := .down f.backend
      mempoolFile := saveMempool w.design size f.mempool s.mempoolFile effects } f.backend (past ++ f.committed.blocks)
      stored := by
  have pending := h.pending
  rw [idle, Builder.inFlight, Multiset.coe_nil, add_zero] at pending
  have condition := allowed f up
  by_cases unsaved : effects = 0
  · subst unsaved
    rw [if_pos rfl] at condition
    exact ⟨s.loaded, h.journal, h.holds, by rw [← condition]; exact pending⟩
  · rw [if_neg unsaved] at condition
    refine ⟨f.mempool, h.journal, ?_, pending⟩
    obtain empty | ⟨few, complete⟩ := condition
    · obtain ⟨effects, rfl⟩ := Nat.exists_eq_succ_of_ne_zero unsaved
      rw [empty]
      exact saveMempool_empty w.design size s.mempoolFile effects
    · exact saveMempool_complete (fun tx _ => app.persists tx) few s.mempoolFile complete

/-- **Every move** that meets the condition keeps the transactions together. -/
theorem Sessions.Inv.step (app : Persistable w.design size) {s s' : Sessions τ Tx Ov} {m : SessionMove Tx} (h : s.Inv w)
    (allowed : Recoverable w s m) (moved : s.step w size m = some s') : s'.Inv w := by
  unfold Sessions.Inv at h
  cases session_change moved with
  | started down constructed =>
    rw [down] at h
    obtain ⟨blocks, stored, left⟩ := h
    exact ⟨blocks, left.start app.reads constructed⟩
  | acted up acted alive =>
    rw [up] at h
    obtain ⟨past, working⟩ := h
    exact ⟨past, working.act allowed up acted alive⟩
  | crashed up =>
    rw [up] at h
    obtain ⟨past, working⟩ := h
    exact ⟨_, _, working.crash (allowed _ up)⟩
  | crashedInAddBlock up flight =>
    rw [up] at h
    obtain ⟨past, working⟩ := h
    obtain ⟨blocks, left⟩ := working.crashInAddBlock allowed up flight
    exact ⟨blocks, _, left⟩
  | stopped up idle =>
    rw [up] at h
    obtain ⟨past, working⟩ := h
    obtain ⟨stored, left⟩ := working.stop app allowed up idle
    exact ⟨_, stored, left⟩

omit [OrderedStore τ TimestampEntry TimestampEntry.compare] in
/-- A journal is read as it is. -/
theorem Journal.journaled {d : ChainDesign Tx Ov} {b : Backend τ} {blocks : List (List Tx)} (h : Journal d b blocks)
    (reads : ∀ tx, d.ReadsBack tx) : Journaled d b blocks := by
  refine ⟨h.height, fun n inside => ?_⟩
  have number : (UInt64.ofNat n).toNat = n := by
    have bound := h.bound
    unfold maxBlocks at bound
    rw [UInt64.toNat_ofNat', Nat.mod_eq_of_lt (by omega)]
  have read := h.getBlock_eq (n := UInt64.ofNat n) (by rwa [number]) fun tx _ => reads tx
  simpa only [number] using read

/-- **The mempool across sessions**: in every run from an empty data directory whose moves all meet
the condition, what the next start loads and the journal are together what was accepted. -/
theorem mempool_survives (w : Setup Tx Ov Val) (size : Tx → Nat) (app : Persistable w.design size) (s : Sessions τ Tx Ov)
    (reach : Reach (Sessions.step w size) (Recoverable w) Sessions.empty s) : Restores w s := by
  have inv : s.Inv w := reach.invariant Sessions.Inv.empty fun _ _ _ h allowed moved => h.step app allowed moved
  intro visible f starts
  obtain ⟨b, down, constructed⟩ := nextStart_eq starts
  unfold Sessions.Inv at inv
  rw [down] at inv
  obtain ⟨blocks, stored, left⟩ := inv
  refine ⟨blocks, ?_, ?_⟩
  · rw [(construct_start constructed).1]
    exact left.journal.reopen.journaled app.reads
  · rw [construct_mempool app.reads left.holds constructed]
    exact left.accepted.symm

end Steps

end Sessions

/-- Sessions of a frontend over transactions of one byte, each written as two. -/
abbrev ByteSessions : Type := Sessions (SortedRecords TimestampEntry TimestampEntry.compare) UInt8 Unit

theorem pickySetup_persistable : Persistable pickySetup.design fun _ => 2 where
  reads tx := ⟨(byteDesign_readsBack tx).wrote⟩
  writes _ := rfl
  size _ := rfl

/-- A transaction is sent and saved; the next process loads it, and dies before it does anything. -/
theorem mempool_survives_saved : ∃ s : ByteSessions,
    Reach (Sessions.step pickySetup fun _ => 2) (Recoverable pickySetup) Sessions.empty s ∧
      s.accepted = [4] ∧ Restores pickySetup s := by
  have first : Reach (Sessions.step pickySetup fun _ => 2) (Recoverable pickySetup) (Sessions.empty : ByteSessions)
      ⟨.up ⟨Backend.fresh.reopen, [], (), .idle, [], []⟩, none, [], []⟩ :=
    Reach.refl.tail (m := .start fun _ _ => 0) trivial rfl
  have sent : Reach (Sessions.step pickySetup fun _ => 2) (Recoverable pickySetup) (Sessions.empty : ByteSessions)
      ⟨.up ⟨Backend.fresh.reopen, [4], (), .idle, [4], []⟩, none, [], [4]⟩ :=
    first.tail (m := .act (.sendTransaction (fun _ => 0) 4)) trivial rfl
  have saved := sent.tail (m := SessionMove.stop 4) (fun f up => by cases up; exact .inr ⟨by simp, by simp⟩) rfl
  have loaded := saved.tail (m := SessionMove.start fun _ _ => 0) trivial rfl
  have crashed := loaded.tail (m := SessionMove.crash) (fun f up => by cases up; rfl) rfl
  exact ⟨_, crashed, rfl, mempool_survives pickySetup (fun _ => 2) pickySetup_persistable _ crashed⟩

/-- What the next start finds: the mempool, the height, block 0, and what was accepted. -/
def Sessions.findings (s : ByteSessions) : Option (List UInt8 × UInt64 × Option (List UInt8) × List UInt8) :=
  (s.nextStart pickySetup fun _ _ => 0).map fun f => (f.mempool, f.backend.metadata.currentBlockHeight,
    (f.backend.getBlock pickySetup.design 0 .opens).1.toOption, s.accepted)

/-- A transaction is sent, and the process dies. -/
def lostMoves : List (SessionMove UInt8) :=
  [.start fun _ _ => 0, .act (.sendTransaction (fun _ => 0) 4), .crash]

/-- A transaction is sent and saved; the next process loads it, commits it and dies. -/
def repeatedMoves : List (SessionMove UInt8) :=
  [.start fun _ _ => 0, .act (.sendTransaction (fun _ => 0) 4), .stop 4, .start fun _ _ => 0,
    .act (.select ⟨fun _ _ _ => 0, fun _ => 0⟩ 100), .act (.addBlock (fun _ => Env.calm fun _ => 0) 100), .crash]

/-- After the first run the transaction is nowhere; after the second it is in the journal and in
the mempool. -/
theorem mempool_lost_or_repeated :
    (∃ s : ByteSessions, moves (Sessions.step pickySetup fun _ => 2) lostMoves Sessions.empty = some s ∧
      s.findings = some ([], 0, none, [4]) ∧ ¬ Restores pickySetup s) ∧
    ∃ s : ByteSessions, moves (Sessions.step pickySetup fun _ => 2) repeatedMoves Sessions.empty = some s ∧
      s.findings = some ([4], 1, some [4], [4]) ∧ ¬ Restores pickySetup s := by
  have lost : (moves (Sessions.step pickySetup fun _ => 2) lostMoves (Sessions.empty : ByteSessions)).bind
      Sessions.findings = some ([], 0, none, [4]) := by decide +kernel
  have repeated : (moves (Sessions.step pickySetup fun _ => 2) repeatedMoves (Sessions.empty : ByteSessions)).bind
      Sessions.findings = some ([4], 1, some [4], [4]) := by decide +kernel
  obtain ⟨s, reached, found⟩ := Option.bind_eq_some_iff.1 lost
  obtain ⟨s', reached', found'⟩ := Option.bind_eq_some_iff.1 repeated
  refine ⟨⟨s, reached, found, fun restores => ?_⟩, s', reached', found', fun restores => ?_⟩
  · obtain ⟨f, starts, facts⟩ := Option.map_eq_some_iff.1 found
    obtain ⟨blocks, journaled, together⟩ := restores _ f starts
    obtain ⟨mempool, height, -, accepted⟩ : f.mempool = [] ∧ f.backend.metadata.currentBlockHeight = 0 ∧ _ ∧
      s.accepted = [4] := by simpa only [Prod.mk.injEq] using facts
    have none : blocks = [] := List.length_eq_zero_iff.1 (by rw [← journaled.height, height]; rfl)
    rw [mempool, accepted, none] at together
    exact absurd together (by decide)
  · obtain ⟨f, starts, facts⟩ := Option.map_eq_some_iff.1 found'
    obtain ⟨blocks, journaled, together⟩ := restores _ f starts
    obtain ⟨mempool, height, block, accepted⟩ : f.mempool = [4] ∧ f.backend.metadata.currentBlockHeight = 1 ∧
      (f.backend.getBlock pickySetup.design 0 .opens).1.toOption = some [4] ∧ s'.accepted = [4] := by
      simpa only [Prod.mk.injEq] using facts
    have length : blocks.length = 1 := by rw [← journaled.height, height]; rfl
    obtain ⟨only, rfl⟩ := List.length_eq_one_iff.1 length
    have read := journaled.read 0 (by simp)
    rw [show UInt64.ofNat 0 = 0 from rfl] at read
    rw [read] at block
    cases block
    rw [mempool, accepted] at together
    exact absurd together (by decide)

end MagelessChain
