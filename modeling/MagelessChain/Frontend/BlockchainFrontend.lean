import MagelessChain.Backend.RoundTrip
import MagelessChain.Frontend.MEVBuilder

/-!
# The frontend

`blockchain/BlockchainFrontend.cpp`: the mempool, the speculative state and the builder thread.
The parties are the callers of `sendTransaction` and the builder, which holds the mempool lock
while it selects a block, while it puts a rejected one back and while it rebuilds the state, but
not while it calls `addBlock`. Each stretch under the lock, and each `addBlock`, is one move. An
exception that leaves the builder's loop ends the process.
-/

namespace MagelessChain

open Lib

/-- Where the builder thread stands. A block in flight keeps the mempool it was selected from. -/
inductive Builder (Tx : Type) where
  /-- between two iterations -/
  | idle
  /-- holds a block, calls `addBlock` next -/
  | selected (before toBuild : List Tx)
  /-- `addBlock` returned -1, puts the block back next -/
  | rejected (before toBuild : List Tx)
  /-- `addBlock` returned a number, rebuilds the speculative state next -/
  | committed
  /-- an exception left the thread: `std::terminate` -/
  | terminated
  deriving DecidableEq, Repr

/-- A frontend and its backend. `sent` and `committed` are history: the transactions loaded or
sent so far, and the blocks `addBlock` returned a number for. -/
structure Frontend (τ Tx Ov : Type) where
  backend : Backend τ
  mempool : List Tx
  state : Ov
  builder : Builder Tx
  sent : List Tx
  committed : History Tx

/-- The transactions of the block in flight. -/
def Builder.inFlight {Tx : Type} : Builder Tx → List Tx
  | .selected _ toBuild | .rejected _ toBuild => toBuild
  | .idle | .committed | .terminated => []

section Load

variable {Tx Ov : Type} (d : ChainDesign Tx Ov) (visible : Nat → Visible) (img : Image) (fileSize : Nat)

/-- The loop of `loadMempool` over the `count` transactions it still has to read; transactions
that read as null are passed over. -/
def loadLoop : Nat → Nat → Nat → List Tx → Ov → Except Exn (List Tx × Ov)
  | 0, _, _, mempool, ov => .ok (mempool, ov)
  | count + 1, i, cursor, mempool, ov =>
    match d.read img fileSize cursor with
    | .error e => .error e
    | .ok (none, cursor) => loadLoop count (i + 1) cursor mempool ov
    | .ok (some tx, cursor) =>
      match d.apply (visible i) tx ov with
      | (_, .error e) => .error e
      | (ov, .ok _) => loadLoop count (i + 1) cursor (mempool ++ [tx]) ov

end Load

section Frontend

variable {τ Tx Ov Val : Type} [OrderedStore τ TimestampEntry TimestampEntry.compare]

/-- `loadMempool`: the transactions of `mempool.bin`, `none` where it cannot be opened or mapped,
and the state they leave. -/
def loadMempool (d : ChainDesign Tx Ov) (visible : Nat → Visible) (file : Option (Image × Nat)) :
    Except Exn (List Tx × Ov) :=
  match file with
  | none => .ok ([], d.freshOverride)
  | some (img, fileSize) =>
    if fileSize < 4 then .ok ([], d.freshOverride)
    else if img.readWord 0 4 = 0 ∨ fileSize ≤ 4 then .ok ([], d.freshOverride)
    else loadLoop d visible img fileSize (img.readWord 0 4) 0 4 [] d.freshOverride

/-- `BlockchainFrontend::BlockchainFrontend`. -/
def Frontend.construct (d : ChainDesign Tx Ov) (visible : Nat → Visible) (file : Option (Image × Nat))
    (backend : Backend τ) : Except Exn (Frontend τ Tx Ov) :=
  match loadMempool d visible file with
  | .error e => .error e
  | .ok (mempool, state) => .ok ⟨backend, mempool, state, .idle, mempool, []⟩

/-- The loop of `rebuildSpeculativeState` over the mempool from position `i` on. -/
def reapply (d : ChainDesign Tx Ov) (visible : Nat → Visible) : Nat → List Tx → Ov → Except Exn Ov
  | _, [], ov => .ok ov
  | i, tx :: rest, ov =>
    match d.apply (visible i) tx ov with
    | (_, .error e) => .error e
    | (ov, .ok _) => reapply d visible (i + 1) rest ov

/-- The moves of the frontend, with what their surroundings supply: the committed segments the
applies see, the clock, the environment of the builder and of `addBlock`. -/
inductive Move (Tx : Type) where
  | sendTransaction (visible : Visible) (tx : Tx)
  | select (env : BuildEnv) (now : UInt64)
  | addBlock (env : Nat → Env) (millis : UInt64)
  | putBack
  | rebuild (visible : Nat → Visible)

/-- The fixed surroundings of a frontend: the application and the two configurations. -/
structure Setup (Tx Ov Val : Type) where
  design : ChainDesign Tx Ov
  scoring : Scoring Tx Ov Val
  backendConfig : BlockchainConfig
  config : BlockchainConfig

/-- One move; `none` where it is not the turn of that party. -/
def Frontend.step (w : Setup Tx Ov Val) (s : Frontend τ Tx Ov) : Move Tx → Option (Frontend τ Tx Ov)
  | .sendTransaction visible tx =>
    match s.builder with
    | .terminated => none
    | _ =>
      match w.design.apply visible tx s.state with
      -- an exception reaches the caller; what the apply did to the state before it stays
      | (state, .error _) => some { s with state }
      | (state, .ok _) => some { s with state, mempool := s.mempool ++ [tx], sent := s.sent ++ [tx] }
  | .select env now =>
    match s.builder with
    | .idle =>
      if s.mempool.length > 0 then
        match buildBlock w.design w.scoring env s.mempool w.config.targetThroughput.toUInt16 (now + 10) with
        | .error _ => some { s with builder := .terminated }
        | .ok (toBuild, rest) => some { s with
            mempool := rest
            builder := if toBuild.length > 0 then .selected s.mempool toBuild else .idle }
      else some s
    | _ => none
  | .addBlock env millis =>
    match s.builder with
    | .selected before toBuild =>
      let (outcome, backend) := s.backend.addBlock w.design w.backendConfig env toBuild millis
      match outcome with
      | some (.returned none) => some { s with backend, builder := .rejected before toBuild }
      | some (.returned (some n)) => some { s with
          backend
          builder := .committed
          committed := s.committed ++ [(n, toBuild)] }
      | _ => some { s with backend, builder := .terminated }
    | _ => none
  | .putBack =>
    match s.builder with
    | .rejected _ toBuild => some { s with mempool := s.mempool ++ toBuild, builder := .idle }
    | _ => none
  | .rebuild visible =>
    match s.builder with
    | .committed =>
      match reapply w.design visible 0 s.mempool w.design.freshOverride with
      | .error _ => some { s with builder := .terminated }
      | .ok state => some { s with state, builder := .idle }
    | _ => none

section Change

variable (w : Setup Tx Ov Val) (s : Frontend τ Tx Ov)

/-- Everything a move can do to a frontend, case by case. -/
inductive Frontend.Change : Move Tx → Frontend τ Tx Ov → Prop where
  | refused {visible : Visible} {tx : Tx} {state : Ov} {e : Exn} (alive : s.builder ≠ .terminated)
      (applied : w.design.apply visible tx s.state = (state, .error e)) :
      Change (.sendTransaction visible tx) { s with state }
  | sent {visible : Visible} {tx : Tx} {state : Ov} {result : Bool} (alive : s.builder ≠ .terminated)
      (applied : w.design.apply visible tx s.state = (state, .ok result)) :
      Change (.sendTransaction visible tx) { s with state, mempool := s.mempool ++ [tx], sent := s.sent ++ [tx] }
  | waited {env : BuildEnv} {now : UInt64} (idle : s.builder = .idle) : Change (.select env now) s
  | buildThrew {env : BuildEnv} {now : UInt64} (idle : s.builder = .idle) :
      Change (.select env now) { s with builder := .terminated }
  | selected {env : BuildEnv} {now : UInt64} {toBuild rest : List Tx} (idle : s.builder = .idle)
      (built : buildBlock w.design w.scoring env s.mempool w.config.targetThroughput.toUInt16 (now + 10) =
        .ok (toBuild, rest)) (some : toBuild ≠ []) :
      Change (.select env now) { s with mempool := rest, builder := .selected s.mempool toBuild }
  | rejected {env : Nat → Env} {millis : UInt64} {before toBuild : List Tx} (flight : s.builder = .selected before toBuild)
      (returned : (s.backend.addBlock w.design w.backendConfig env toBuild millis).1 = some (.returned none)) :
      Change (.addBlock env millis) { s with builder := .rejected before toBuild }
  | committed {env : Nat → Env} {millis n : UInt64} {before toBuild : List Tx}
      (flight : s.builder = .selected before toBuild)
      (returned : (s.backend.addBlock w.design w.backendConfig env toBuild millis).1 = some (.returned (some n))) :
      Change (.addBlock env millis) { s with
        backend := (s.backend.addBlock w.design w.backendConfig env toBuild millis).2
        builder := .committed
        committed := s.committed ++ [(n, toBuild)] }
  | addBlockThrew {env : Nat → Env} {millis : UInt64} {before toBuild : List Tx}
      (flight : s.builder = .selected before toBuild) :
      Change (.addBlock env millis) { s with
        backend := (s.backend.addBlock w.design w.backendConfig env toBuild millis).2
        builder := .terminated }
  | putBack {before toBuild : List Tx} (flight : s.builder = .rejected before toBuild) :
      Change .putBack { s with mempool := s.mempool ++ toBuild, builder := .idle }
  | rebuildThrew {visible : Nat → Visible} (flight : s.builder = .committed) :
      Change (.rebuild visible) { s with builder := .terminated }
  | rebuilt {visible : Nat → Visible} {state : Ov} (flight : s.builder = .committed)
      (applied : reapply w.design visible 0 s.mempool w.design.freshOverride = .ok state) :
      Change (.rebuild visible) { s with state, builder := .idle }

end Change

/-- The cases of a move. A builder that selects nothing leaves the frontend as it is. -/
theorem step_change {w : Setup Tx Ov Val} {s s' : Frontend τ Tx Ov} {m : Move Tx} (moved : s.step w m = some s') :
    s.Change w m s' := by
  cases m with
  | sendTransaction visible tx =>
    simp only [Frontend.step] at moved
    split at moved
    · cases moved
    · rename_i alive
      split at moved <;> cases moved
      · rename_i applied
        exact .refused (fun dead => alive dead) applied
      · rename_i applied
        exact .sent (fun dead => alive dead) applied
  | select env now =>
    simp only [Frontend.step] at moved
    split at moved
    · rename_i idle
      split at moved
      · split at moved
        · cases moved
          exact .buildThrew idle
        · rename_i toBuild rest built
          by_cases some : toBuild = []
          · subst some
            obtain rfl := buildBlock_nil built
            have same : s' = s := by
              rw [← Option.some.inj moved]
              simp [← idle]
            rw [same]
            exact .waited idle
          · rw [if_pos (List.length_pos_iff.2 some)] at moved
            cases moved
            exact .selected idle built some
      · cases moved
        exact .waited idle
    · cases moved
  | addBlock env millis =>
    simp only [Frontend.step] at moved
    split at moved
    · rename_i before toBuild flight
      split at moved
      · rename_i returned
        rw [addBlock_rejected returned] at moved
        cases moved
        exact .rejected flight returned
      · rename_i n returned
        cases moved
        exact .committed flight returned
      · cases moved
        exact .addBlockThrew flight
    · cases moved
  | putBack =>
    simp only [Frontend.step] at moved
    split at moved
    · rename_i before toBuild flight
      cases moved
      exact .putBack flight
    · cases moved
  | rebuild visible =>
    simp only [Frontend.step] at moved
    split at moved
    · rename_i flight
      split at moved <;> cases moved
      · exact .rebuildThrew flight
      · rename_i applied
        exact .rebuilt flight applied
    · cases moved

end Frontend

end MagelessChain
