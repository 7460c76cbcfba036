import MagelessChain.Frontend.BlockchainFrontend
import Mathlib.Algebra.Order.Group.Multiset
import Mathlib.Tactic.Abel

/-!
# What becomes of the transactions

Every transaction sent or loaded is in exactly one place: the mempool, the block in flight or a
committed block, whatever the order of sends, rejections and commits. A block for which
`addBlock` throws is the exception: the exception leaves the builder thread and ends the process.
-/

namespace MagelessChain

open Lib

variable {τ Tx Ov Val : Type} [OrderedStore τ TimestampEntry TimestampEntry.compare] {w : Setup Tx Ov Val}

/-- The transactions of the committed blocks. -/
def Frontend.inJournal (s : Frontend τ Tx Ov) : List Tx := s.committed.blocks.flatten

/-- Where the transactions sent so far are, while the process lives. -/
def Conserved (s : Frontend τ Tx Ov) : Prop :=
  s.builder ≠ .terminated →
    (s.sent : Multiset Tx) = s.mempool + s.builder.inFlight + s.inJournal

/-- A terminated process makes no move. -/
theorem step_terminated {s : Frontend τ Tx Ov} (dead : s.builder = .terminated) (m : Move Tx) : s.step w m = none := by
  cases m <;> simp [Frontend.step, dead]

/-- A terminated process stays where it is. -/
theorem reach_terminated {allowed : Frontend τ Tx Ov → Move Tx → Prop} {s s' : Frontend τ Tx Ov}
    (dead : s.builder = .terminated) (reach : Reach (Frontend.step w) allowed s s') : s' = s := by
  refine reach.invariant (P := fun s' => s' = s) rfl ?_
  rintro s' m s'' rfl - moved
  rw [step_terminated dead] at moved
  cases moved

/-- A process that is alive at the end was alive all along. -/
theorem alive_of_reach {allowed : Frontend τ Tx Ov → Move Tx → Prop} {s s' : Frontend τ Tx Ov}
    (reach : Reach (Frontend.step w) allowed s s') (alive : s'.builder ≠ .terminated) : s.builder ≠ .terminated := by
  intro dead
  rw [reach_terminated dead reach] at alive
  exact alive dead

/-- A move keeps the transactions together. -/
theorem Conserved.step {s s' : Frontend τ Tx Ov} {m : Move Tx} (h : Conserved s) (moved : s.step w m = some s') :
    Conserved s' := by
  intro alive
  have sum := h fun dead => by simp [step_terminated dead m] at moved
  cases step_change moved with
  | refused => exact sum
  | sent =>
    simp only [Frontend.inJournal, ← Multiset.coe_add] at sum ⊢
    rw [sum]
    abel
  | waited => exact sum
  | buildThrew => exact absurd rfl alive
  | selected idle built =>
    have parts := Multiset.coe_eq_coe.2 (buildBlock_perm built)
    rw [idle] at sum
    simp only [Builder.inFlight, ← Multiset.coe_add, Multiset.coe_nil, add_zero] at sum parts
    simp only [Frontend.inJournal, Builder.inFlight] at sum ⊢
    rw [sum, ← parts]
    abel
  | rejected flight =>
    rw [flight] at sum
    exact sum
  | committed flight =>
    rw [flight] at sum
    simp only [Frontend.inJournal, History.blocks, Builder.inFlight, List.map_append, List.map_cons, List.map_nil,
      List.flatten_append, List.flatten_cons, List.flatten_nil, List.append_nil, ← Multiset.coe_add,
      Multiset.coe_nil, add_zero] at sum ⊢
    rw [sum]
    abel
  | addBlockThrew => exact absurd rfl alive
  | putBack flight =>
    rw [flight] at sum
    simp only [Frontend.inJournal, Builder.inFlight, ← Multiset.coe_add, Multiset.coe_nil, add_zero] at sum ⊢
    exact sum
  | rebuildThrew => exact absurd rfl alive
  | rebuilt flight =>
    rw [flight] at sum
    exact sum

omit [OrderedStore τ TimestampEntry TimestampEntry.compare] in
/-- A frontend just constructed has committed nothing. -/
theorem construct_start {d : ChainDesign Tx Ov} {visible : Nat → Visible} {file : Option (Image × Nat)}
    {backend : Backend τ} {start : Frontend τ Tx Ov} (constructed : Frontend.construct d visible file backend = .ok start) :
    start.backend = backend ∧ start.builder = .idle ∧ start.sent = start.mempool ∧ start.committed = [] := by
  unfold Frontend.construct at constructed
  split at constructed
  · cases constructed
  · cases constructed
    exact ⟨rfl, rfl, rfl, rfl⟩

omit [OrderedStore τ TimestampEntry TimestampEntry.compare] in
/-- A frontend just constructed has its transactions in the mempool. -/
theorem Conserved.construct {d : ChainDesign Tx Ov} {visible : Nat → Visible} {file : Option (Image × Nat)}
    {backend : Backend τ} {start : Frontend τ Tx Ov} (constructed : Frontend.construct d visible file backend = .ok start) :
    Conserved start := by
  obtain ⟨-, idle, sent, committed⟩ := construct_start constructed
  intro _
  simp [idle, sent, committed, Builder.inFlight, Frontend.inJournal, History.blocks]

theorem conserved_of_reach {visible : Nat → Visible} {file : Option (Image × Nat)} {backend : Backend τ}
    {start s : Frontend τ Tx Ov} {allowed : Frontend τ Tx Ov → Move Tx → Prop}
    (constructed : Frontend.construct w.design visible file backend = .ok start)
    (reach : Reach (Frontend.step w) allowed start s) : Conserved s :=
  reach.invariant (Conserved.construct constructed) fun _ _ _ h _ moved => h.step moved

omit [OrderedStore τ TimestampEntry TimestampEntry.compare] in
/-- Where the copies of a transaction are, while the process lives. -/
theorem Conserved.count [DecidableEq Tx] {s : Frontend τ Tx Ov} (h : Conserved s) (alive : s.builder ≠ .terminated) (tx : Tx) :
    s.sent.count tx = s.mempool.count tx + s.builder.inFlight.count tx + s.inJournal.count tx := by
  have sum := congrArg (Multiset.count tx) (h alive)
  simpa only [Multiset.count_add, Multiset.coe_count] using sum

/-- Every `addBlock` is handed a block that fits its epoch file, within reach of the epoch
numbers. -/
def BlockFits (w : Setup Tx Ov Val) (blocks : List (List Tx)) (s : Frontend τ Tx Ov) : Move Tx → Prop
  | .addBlock _ _ => ∀ before toBuild, s.builder = .selected before toBuild →
      (blocks ++ s.committed.blocks).length < maxBlocks ∧
        Fits w.design s.backend (epochBlocks (blocks ++ s.committed.blocks)) toBuild
  | _ => True

/-- What is asked of the block in hand can be decided where it can be of any block. -/
instance {fits : List Tx → Prop} [DecidablePred fits] :
    (builder : Builder Tx) → Decidable (∀ before toBuild, builder = .selected before toBuild → fits toBuild)
  | .selected before toBuild =>
    decidable_of_iff (fits toBuild) ⟨fun h _ _ same => (by cases same; exact h), fun h => h _ _ rfl⟩
  | .idle | .rejected _ _ | .committed | .terminated => .isTrue fun _ _ other => (by cases other)

instance (blocks : List (List Tx)) (s : Frontend τ Tx Ov) : DecidablePred (BlockFits w blocks s)
  | .addBlock _ _ => inferInstanceAs (Decidable (∀ before toBuild, s.builder = .selected before toBuild →
      (blocks ++ s.committed.blocks).length < maxBlocks ∧
        Fits w.design s.backend (epochBlocks (blocks ++ s.committed.blocks)) toBuild))
  | .sendTransaction _ _ | .select _ _ | .putBack | .rebuild _ => .isTrue trivial

/-- A move takes the journal along. -/
theorem Journal.move {blocks : List (List Tx)} {s s' : Frontend τ Tx Ov} {m : Move Tx}
    (held : Journal w.design s.backend (blocks ++ s.committed.blocks)) (fits : BlockFits w blocks s m)
    (moved : s.step w m = some s') (alive : s'.builder ≠ .terminated) :
    Journal w.design s'.backend (blocks ++ s'.committed.blocks) := by
  cases step_change moved with
  | @committed env millis n before toBuild flight returned =>
    obtain ⟨reach, fits⟩ := fits before toBuild flight
    have longer := (held.addBlock reach fits returned).2
    simpa [History.blocks] using longer
  | addBlockThrew => exact absurd rfl alive
  | _ => exact held

/-- The committed blocks of a frontend are the blocks it added to the journal. -/
theorem committed_in_journal {blocks : List (List Tx)} {start s : Frontend τ Tx Ov}
    (journal : Journal w.design start.backend (blocks ++ start.committed.blocks))
    (reach : Reach (Frontend.step w) (BlockFits w blocks) start s) (alive : s.builder ≠ .terminated) :
    Journal w.design s.backend (blocks ++ s.committed.blocks) := by
  refine reach.invariant (P := fun s => s.builder ≠ .terminated →
    Journal w.design s.backend (blocks ++ s.committed.blocks)) (fun _ => journal) ?_ alive
  intro s m s' held fits moved alive
  exact (held fun dead => by simp [step_terminated dead m] at moved).move fits moved alive

/-- **Nothing is lost or duplicated**: in every state reached, the transactions sent or loaded are
those in the mempool, in flight and in the committed blocks. -/
theorem transactions_conserved (w : Setup Tx Ov Val) (visible : Nat → Visible) (file : Option (Image × Nat))
    (backend : Backend τ) (start s : Frontend τ Tx Ov)
    (constructed : Frontend.construct w.design visible file backend = .ok start)
    (reach : Reach (Frontend.step w) (fun _ _ => True) start s) (alive : s.builder ≠ .terminated) :
    (s.sent : Multiset Tx) = s.mempool + s.builder.inFlight + s.committed.blocks.flatten := by
  exact conserved_of_reach constructed reach alive

/-- Transactions of one byte, of which the byte 9 never verifies, worth their value. -/
def pickySetup : Setup UInt8 Unit Int where
  design := { byteDesign with verify := fun _ _ tx => tx != 9 }
  scoring := ⟨fun _ tx _ => .ok tx.toNat, fun a b => decide (a > b), fun a => decide (a ≥ 0), -(10 ^ 30)⟩
  backendConfig := briskConfig
  config := {}

/-- A frontend over an empty data directory. -/
def emptyFrontend : Frontend (SortedRecords TimestampEntry TimestampEntry.compare) UInt8 Unit :=
  ⟨Backend.fresh, [], (), .idle, [], []⟩

/-- Moves, none if a block does not fit. -/
def fittingMoves (s : Frontend (SortedRecords TimestampEntry TimestampEntry.compare) UInt8 Unit) (m : Move UInt8) :
    Option (Frontend (SortedRecords TimestampEntry TimestampEntry.compare) UInt8 Unit) :=
  if BlockFits pickySetup [] s m then Frontend.step pickySetup s m else none

/-- A block of two transactions is rejected, since it comes too early. It is put back behind one that was sent
meanwhile, and the three go into the next block; one more is sent while that is added. -/
def putBackMoves : List (Move UInt8) :=
  [.sendTransaction (fun _ => 0) 4, .sendTransaction (fun _ => 0) 5, .select ⟨fun _ _ _ => 0, fun _ => 0⟩ 40,
    .addBlock (fun _ => Env.calm fun _ => 0) 50, .sendTransaction (fun _ => 0) 3, .putBack,
    .select ⟨fun _ _ _ => 0, fun _ => 0⟩ 150, .sendTransaction (fun _ => 0) 6,
    .addBlock (fun _ => Env.calm fun _ => 0) 200]

theorem transactions_conserved_picky : ∃ s : Frontend (SortedRecords TimestampEntry TimestampEntry.compare) UInt8 Unit,
    moves fittingMoves putBackMoves emptyFrontend = some s ∧ s.mempool = [6] ∧ s.committed.blocks = [[5, 4, 3]] ∧
    (s.sent : Multiset UInt8) = s.mempool + s.builder.inFlight + s.committed.blocks.flatten ∧
    Journal pickySetup.design s.backend s.committed.blocks := by
  have ran : (moves fittingMoves putBackMoves emptyFrontend).map (fun s =>
      (decide (s.builder = .terminated), s.mempool, s.committed.blocks)) = some (false, [6], [[5, 4, 3]]) := by
    decide +kernel
  obtain ⟨s, reached, facts⟩ := Option.map_eq_some_iff.1 ran
  simp only [Prod.mk.injEq, decide_eq_false_iff_not] at facts
  obtain ⟨alive, mempool, blocks⟩ := facts
  have run : Reach (Frontend.step pickySetup) (BlockFits pickySetup []) emptyFrontend s := Reach.refl.guarded _ reached
  refine ⟨s, reached, mempool, blocks, ?_, ?_⟩
  · exact transactions_conserved pickySetup (fun _ _ => 0) none Backend.fresh emptyFrontend s rfl
      (run.mono fun _ _ _ => trivial) alive
  · have journal : Journal pickySetup.design emptyFrontend.backend ([] ++ emptyFrontend.committed.blocks) := Journal.fresh _
    exact committed_in_journal journal run alive

/-! ## A block for which `addBlock` throws -/

/-- The builder finishes its iteration with every transaction of the block in the mempool, in the
journal or in `mempool.bin`, and is ready for the next. -/
def Recovers (w : Setup Tx Ov Val) (persisted toBuild : List Tx) (s : Frontend τ Tx Ov) : Prop :=
  ∃ s', Reach (Frontend.step w) (fun _ _ => True) s s' ∧ s'.builder = .idle ∧
    ∀ tx ∈ toBuild, tx ∈ s'.mempool ∨ tx ∈ s'.inJournal ∨ tx ∈ persisted

/-- The move of a builder whose `addBlock` throws. -/
theorem step_threw {s : Frontend τ Tx Ov} {before toBuild : List Tx} {env : Nat → Env} {millis : UInt64} {site : Site}
    {e : Exn} (flight : s.builder = .selected before toBuild)
    (throws : (s.backend.addBlock w.design w.backendConfig env toBuild millis).1 = some (.threw site e)) :
    ∃ s', s.step w (.addBlock env millis) = some s' ∧ s'.builder = .terminated := by
  refine ⟨{ s with
    backend := (s.backend.addBlock w.design w.backendConfig env toBuild millis).2
    builder := .terminated }, ?_, rfl⟩
  simp only [Frontend.step, flight, throws]

/-- **A thrown block is never recovered**: whatever the frontend's state and whichever call of
`addBlock` throws, the builder serves no later iteration. -/
theorem thrown_block_not_recovered (w : Setup Tx Ov Val) (persisted : List Tx) (s : Frontend τ Tx Ov)
    (before toBuild : List Tx) (env : Nat → Env) (millis : UInt64) (site : Site) (e : Exn)
    (flight : s.builder = .selected before toBuild)
    (throws : (s.backend.addBlock w.design w.backendConfig env toBuild millis).1 = some (.threw site e)) :
    ∃ s', s.step w (.addBlock env millis) = some s' ∧ ¬ Recovers w persisted toBuild s' := by
  obtain ⟨s', moved, dead⟩ := step_threw flight throws
  refine ⟨s', moved, ?_⟩
  rintro ⟨s'', reach, idle, -⟩
  rw [reach_terminated dead reach, dead] at idle
  cases idle

/-- Two transactions are sent and selected as one block. -/
def pickyMoves : List (Move UInt8) :=
  [.sendTransaction (fun _ => 0) 4, .sendTransaction (fun _ => 0) 9, .select ⟨fun _ _ _ => 0, fun _ => 0⟩ 100]

/-- The frontend with the two transactions in flight. -/
def pickyFrontend : Frontend (SortedRecords TimestampEntry TimestampEntry.compare) UInt8 Unit :=
  ⟨Backend.fresh, [], (), .selected [4, 9] [9, 4], [4, 9], []⟩

theorem pickyFrontend_reach : Reach (Frontend.step pickySetup) (fun _ _ => True) emptyFrontend pickyFrontend :=
  Reach.moves pickyMoves .refl (by rfl)

/-- The call that finds the byte 9 throws. -/
theorem picky_throws :
    (pickyFrontend.backend.addBlock pickySetup.design pickySetup.backendConfig (fun _ => Env.calm fun _ => 0) [9, 4]
      100).1 = some (.threw .verification (.runtimeError "Transaction verification failed")) := by
  decide +kernel

theorem thrown_block_not_recovered_picky :
    ∃ s', pickyFrontend.step pickySetup (.addBlock (fun _ => Env.calm fun _ => 0) 100) = some s' ∧
      ¬ Recovers pickySetup [] [9, 4] s' :=
  thrown_block_not_recovered pickySetup [] pickyFrontend [4, 9] [9, 4] (fun _ => Env.calm fun _ => 0) 100 .verification
    (.runtimeError "Transaction verification failed") rfl picky_throws

/-- One bad transaction among the selected ones ends the process: from a state the frontend
reaches, `addBlock` throws, and neither transaction comes back. -/
theorem thrown_block_lost :
    Reach (Frontend.step pickySetup) (fun _ _ => True) emptyFrontend pickyFrontend ∧
    ∃ s', pickyFrontend.step pickySetup (.addBlock (fun _ => Env.calm fun _ => 0) 100) = some s' ∧
      s'.builder = .terminated ∧ s'.mempool = [] ∧ s'.inJournal = [] ∧ ¬ Recovers pickySetup [] [9, 4] s' := by
  refine ⟨pickyFrontend_reach, _, rfl, by rfl, by rfl, by rfl, ?_⟩
  rintro ⟨s'', reach, idle, -⟩
  rw [reach_terminated (by rfl) reach] at idle
  cases idle

end MagelessChain
