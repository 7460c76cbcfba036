import MagelessChain.Backend.Overrides
import MagelessChain.Frontend.BlockchainFrontend

/-!
# The speculative state

`getState` is meant to be the committed chain with the mempool applied in its order. Sends keep
it so and commits rebuild it, but a rejected block goes back behind the mempool, in the order the
builder picked it, and the state is not rebuilt. The law holds as long as every block that is put
back restores the order in which its transactions had been applied.
-/

namespace MagelessChain

open Lib

variable {τ Tx Ov Val : Type}

/-- The segments an index sees once every write that was submitted has completed. -/
def committedView (b : Backend τ) : Visible := fun indexId => b.submitted.filter fun segment => segment.indexId = indexId

/-- The state `getState` promises: the committed chain and the mempool in order. -/
def Frontend.speculative (d : ChainDesign Tx Ov) (s : Frontend τ Tx Ov) : Ov :=
  applyAll d (committedView s.backend) d.freshOverride s.mempool

/-- Background writes are complete: every apply of a move sees all that was submitted. -/
def SeesAll (s : Frontend τ Tx Ov) : Move Tx → Prop
  | .sendTransaction visible _ => visible = committedView s.backend
  | .rebuild visible => ∀ i, visible i = committedView s.backend
  | _ => True

/-- An apply that throws in `sendTransaction` leaves the state alone, and a block that is put back
restores the order of the mempool it was selected from, followed by what was sent since. -/
def KeepsOrder (w : Setup Tx Ov Val) (s : Frontend τ Tx Ov) : Move Tx → Prop
  | .sendTransaction visible tx => ∀ e, (w.design.apply visible tx s.state).2 = .error e →
      (w.design.apply visible tx s.state).1 = s.state
  | .putBack => ∀ before toBuild, s.builder = .rejected before toBuild →
      s.mempool ++ toBuild = before ++ s.mempool.drop (before.length - toBuild.length)
  | _ => True

/-- What the state is at each point of the builder's loop: in flight, the mempool the block was
selected from and what was sent since are applied. -/
def Law (d : ChainDesign Tx Ov) (s : Frontend τ Tx Ov) : Prop :=
  match s.builder with
  | .idle => s.state = s.speculative d
  | .selected before toBuild | .rejected before toBuild =>
    before.length - toBuild.length ≤ s.mempool.length ∧
      s.state = applyAll d (committedView s.backend) d.freshOverride
        (before ++ s.mempool.drop (before.length - toBuild.length))
  | .committed | .terminated => True

/-- `rebuildSpeculativeState` under one view applies the mempool in order. -/
theorem reapply_eq {d : ChainDesign Tx Ov} {visible : Nat → Visible} {view : Visible} (same : ∀ i, visible i = view) :
    ∀ (txs : List Tx) (i : Nat) {ov ov' : Ov}, reapply d visible i txs ov = .ok ov' → ov' = applyAll d view ov txs := by
  intro txs
  induction txs with
  | nil =>
    intro i ov ov' h
    cases h
    rfl
  | cons tx rest ih =>
    intro i ov ov' h
    unfold reapply at h
    split at h
    · cases h
    · rename_i ov'' result applied
      rw [same] at applied
      rw [ih (i + 1) h]
      simp [applyAll, applied]

/-- `loadMempool` under one view leaves the loaded transactions applied in order. -/
theorem loadLoop_eq {d : ChainDesign Tx Ov} {visible : Nat → Visible} {view : Visible} {img : Image} {fileSize : Nat}
    (same : ∀ i, visible i = view) :
    ∀ (count i cursor : Nat) {mempool mempool' : List Tx} {ov ov' : Ov},
      ov = applyAll d view d.freshOverride mempool →
      loadLoop d visible img fileSize count i cursor mempool ov = .ok (mempool', ov') →
      ov' = applyAll d view d.freshOverride mempool' := by
  intro count
  induction count with
  | zero =>
    intro i cursor mempool mempool' ov ov' law h
    cases h
    exact law
  | succ count ih =>
    intro i cursor mempool mempool' ov ov' law h
    unfold loadLoop at h
    split at h
    · cases h
    · exact ih _ _ law h
    · split at h
      · cases h
      · rename_i ov'' result applied
        refine ih _ _ ?_ h
        rw [same] at applied
        rw [applyAll_snoc, ← law, applied]

/-- A frontend just constructed meets the law. -/
theorem Law.construct {d : ChainDesign Tx Ov} {visible : Nat → Visible} {file : Option (Image × Nat)}
    {backend : Backend τ} {start : Frontend τ Tx Ov} (same : ∀ i, visible i = committedView backend)
    (constructed : Frontend.construct d visible file backend = .ok start) : Law d start := by
  unfold Frontend.construct at constructed
  split at constructed
  · cases constructed
  · rename_i mempool state loaded
    cases constructed
    change state = applyAll d (committedView backend) d.freshOverride mempool
    unfold loadMempool at loaded
    split at loaded
    · cases loaded
      rfl
    · split at loaded
      · cases loaded
        rfl
      · split at loaded
        · cases loaded
          rfl
        · exact loadLoop_eq same _ _ _ rfl loaded

variable [OrderedStore τ TimestampEntry TimestampEntry.compare]

/-- A send keeps the law wherever the builder stands. -/
theorem Law.send {w : Setup Tx Ov Val} {s s' : Frontend τ Tx Ov} {visible : Visible} {tx : Tx}
    (h : Law w.design s) (sees : SeesAll s (.sendTransaction visible tx))
    (keeps : KeepsOrder w s (.sendTransaction visible tx))
    (moved : s.step w (.sendTransaction visible tx) = some s') : Law w.design s' := by
  obtain rfl : visible = committedView s.backend := sees
  cases step_change moved with
  | @refused _ _ state e alive applied =>
    have same := keeps e (by rw [applied])
    rw [applied] at same
    obtain rfl : state = s.state := same
    exact h
  | @sent _ _ state result alive applied =>
    have state_eq : state = (w.design.apply (committedView s.backend) tx s.state).1 := by rw [applied]
    unfold Law at h ⊢
    cases builder : s.builder with
    | idle =>
      simp only [builder] at h ⊢
      rw [state_eq, h]
      exact (applyAll_snoc _ _ _ _ _).symm
    | selected before toBuild =>
      simp only [builder] at h ⊢
      refine ⟨by rw [List.length_append]; omega, ?_⟩
      rw [state_eq, h.2, List.drop_append_of_le_length h.1, ← List.append_assoc, applyAll_snoc]
    | rejected before toBuild =>
      simp only [builder] at h ⊢
      refine ⟨by rw [List.length_append]; omega, ?_⟩
      rw [state_eq, h.2, List.drop_append_of_le_length h.1, ← List.append_assoc, applyAll_snoc]
    | committed => trivial
    | terminated => trivial

/-- Every move that keeps the order keeps the law. -/
theorem Law.step {w : Setup Tx Ov Val} {s s' : Frontend τ Tx Ov} {m : Move Tx} (h : Law w.design s)
    (sees : SeesAll s m) (keeps : KeepsOrder w s m) (moved : s.step w m = some s') : Law w.design s' := by
  cases step_change moved with
  | refused => exact h.send sees keeps moved
  | sent => exact h.send sees keeps moved
  | waited => exact h
  | selected idle built =>
    -- the state now stands for the mempool before, of which nothing is left over
    simp only [Law, idle] at h
    have count := (buildBlock_perm built).length_eq
    rw [List.length_append] at count
    refine ⟨by dsimp only; omega, ?_⟩
    rw [List.drop_eq_nil_of_le (by dsimp only; omega), List.append_nil]
    exact h
  | rejected flight =>
    simp only [Law, flight] at h
    exact h
  | @putBack before toBuild flight =>
    simp only [Law, flight] at h
    rw [← keeps before toBuild flight] at h
    exact h.2
  | rebuilt flight applied => exact reapply_eq sees _ 0 applied
  | buildThrew | committed | addBlockThrew | rebuildThrew => trivial

/-- **The speculative state**: in every run in which each block that is put back restores the
order its transactions were applied in, the state between two iterations of the builder is the
committed chain with the mempool applied in order. -/
theorem speculative_state_law (w : Setup Tx Ov Val) (visible : Nat → Visible) (file : Option (Image × Nat))
    (backend : Backend τ) (start s : Frontend τ Tx Ov) (same : ∀ i, visible i = committedView backend)
    (constructed : Frontend.construct w.design visible file backend = .ok start)
    (reach : Reach (Frontend.step w) (fun s m => SeesAll s m ∧ KeepsOrder w s m) start s) (idle : s.builder = .idle) :
    s.state = s.speculative w.design := by
  have law := reach.invariant (Law.construct same constructed) fun _ _ _ h ok moved => h.step ok.1 ok.2 moved
  simpa only [Law, idle] using law

/-- Transactions of one byte that are worth their value and append themselves to the state: no
two of them commute. -/
def logSetup : Setup UInt8 (List UInt8) Int where
  design :=
    { freshOverride := []
      verify := fun _ _ _ => true
      apply := fun _ tx ov => (ov ++ [tx], .ok true)
      write := byteDesign.write
      getFactory := byteDesign.getFactory
      familySize := 0
      indexCount := 0
      encodingVersion := fun _ => none
      sealFamily := fun _ _ _ => .ok [] }
  scoring := ⟨fun _ tx _ => .ok tx.toNat, fun a b => decide (a > b), fun a => decide (a ≥ 0), -(10 ^ 30)⟩
  backendConfig := briskConfig
  config := {}

/-- A frontend over an empty data directory, with the given mempool, state and builder. -/
def logFrontend (mempool state sent : List UInt8) (builder : Builder UInt8) :
    Frontend (SortedRecords TimestampEntry TimestampEntry.compare) UInt8 (List UInt8) :=
  ⟨Backend.fresh, mempool, state, builder, sent, []⟩

/-- Two transactions are sent, selected, rejected 50 ms after the last block and put back. -/
def rejectedMoves (first second : UInt8) : List (Move UInt8) :=
  [.sendTransaction (fun _ => 0) first, .sendTransaction (fun _ => 0) second,
    .select ⟨fun _ _ _ => 0, fun _ => 0⟩ 40, .addBlock (fun _ => Env.calm fun _ => 0) 50, .putBack]

/-- The states of the log application that moves keeping the order lead to. -/
def LogReach (s : Frontend (SortedRecords TimestampEntry TimestampEntry.compare) UInt8 (List UInt8)) : Prop :=
  Reach (Frontend.step logSetup) (fun s m => SeesAll s m ∧ KeepsOrder logSetup s m) (logFrontend [] [] [] .idle) s

/-- 9 and 4 are picked and put back in the order they were sent. -/
theorem speculative_state_law_kept : LogReach (logFrontend [9, 4] [9, 4] [9, 4] .idle) ∧
    (logFrontend [9, 4] [9, 4] [9, 4] .idle).state =
      (logFrontend [9, 4] [9, 4] [9, 4] .idle).speculative logSetup.design := by
  have one : LogReach (logFrontend [9] [9] [9] .idle) :=
    Reach.refl.tail (m := .sendTransaction (fun _ => 0) 9) ⟨rfl, nofun⟩ rfl
  have two : LogReach (logFrontend [9, 4] [9, 4] [9, 4] .idle) :=
    Reach.tail (m := .sendTransaction (fun _ => 0) 4) one ⟨rfl, nofun⟩ rfl
  have three : LogReach (logFrontend [] [9, 4] [9, 4] (.selected [9, 4] [9, 4])) :=
    Reach.tail (m := .select ⟨fun _ _ _ => 0, fun _ => 0⟩ 40) two ⟨trivial, trivial⟩ (by rfl)
  have four : LogReach (logFrontend [] [9, 4] [9, 4] (.rejected [9, 4] [9, 4])) :=
    Reach.tail (m := .addBlock (fun _ => Env.calm fun _ => 0) 50) three ⟨trivial, trivial⟩ (by rfl)
  have five : LogReach (logFrontend [9, 4] [9, 4] [9, 4] .idle) := by
    refine Reach.tail (m := .putBack) four ⟨trivial, fun before toBuild flight => ?_⟩ rfl
    cases flight
    rfl
  exact ⟨five, speculative_state_law logSetup (fun _ => committedView Backend.fresh) none Backend.fresh
    (logFrontend [] [] [] .idle) _ (fun _ => rfl) rfl five rfl⟩

/-- A rejected block comes back in the builder's order: the mempool is 9, 4 and the state still
4, 9. -/
theorem speculative_state_reordered :
    ∃ s, moves (Frontend.step logSetup) (rejectedMoves 4 9) (logFrontend [] [] [] .idle) = some s ∧
      s.builder = .idle ∧ s.mempool = [9, 4] ∧ s.state = [4, 9] ∧ s.state ≠ s.speculative logSetup.design := by
  refine ⟨logFrontend [9, 4] [4, 9] [4, 9] .idle, by rfl, rfl, rfl, rfl, by decide⟩

end MagelessChain
