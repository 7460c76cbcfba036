import MagelessChain.Backend.Restarts
import MagelessChain.Storage.CatalogEnds

/-!
# The node comes to rest

`addBlock` waits for the catalog only inside `writeSegment`, until its segment is submitted, and the
tasks of the executor do not wait for it. So the caller and the tasks together come to an end in any
order of turns: the call under way has returned or thrown, and so has every task. With that the
executor's shutdown in the backend's destructor returns.
-/

namespace MagelessChain

open Lib OrderedStore

/-- A call that has no outcome has a step. -/
theorem AddBlock.going_of_outcome {τ Tx Ov : Type} {c : Commit τ Tx Ov} (going : c.outcome = none) : ¬ halted c := by
  obtain ⟨txs, millis, duration, pc, b⟩ := c
  cases pc with
  | returned | threw | died => cases going
  | _ => exact id

/-- A job whose caller waits has not ended. -/
theorem Stage.going_of_returned {stage : Stage} (waits : stage.returned = none) : stage.ended = false := by
  cases stage <;> first | rfl | cases waits

namespace NodeLife

variable {κ σ τ Tx Ov : Type} [OrderedStore κ ContentsEntry ContentsEntry.compare]
  [OrderedStore σ SegmentMetadata SegmentMetadata.compare] [OrderedStore τ TimestampEntry TimestampEntry.compare]

/-- The process goes on with what is under way. -/
def GoesOn (s : NodeLife κ σ τ Tx Ov) : LifeTurn Tx → Prop
  | .call _ _ | .restart => False
  | .commit _ _ _ => True
  | .job j a => BackendMove s.catalog.catalog (.act j a)

instance (s : NodeLife κ σ τ Tx Ov) : (t : LifeTurn Tx) → Decidable (s.GoesOn t)
  | .call _ _ | .restart => .isFalse id
  | .commit _ _ _ => .isTrue trivial
  | .job j a => inferInstanceAs (Decidable (BackendMove s.catalog.catalog (.act j a)))

/-- Turns of the call and the jobs under way. -/
def goingTurns (d : ChainDesign Tx Ov) (config : BlockchainConfig) (lib : CatalogLibrary) (s : NodeLife κ σ τ Tx Ov)
    (t : LifeTurn Tx) : Option (NodeLife κ σ τ Tx Ov) :=
  if s.GoesOn t then s.step d config lib t else none

/-- Nothing is under way: `addBlock` has ended, and all jobs of the process. -/
def Quiet (s : NodeLife κ σ τ Tx Ov) : Prop :=
  s.commit.outcome.isSome ∧
    ∀ j job, s.catalog.earlier ≤ j → s.catalog.catalog.jobs[j]? = some job → job.stage.ended = true

/-- How many turns are still to come, at most. A step of the call counts for all the moves of a job it
may make. -/
def work (d : ChainDesign Tx Ov) (s : NodeLife κ σ τ Tx Ov) : Nat :=
  (2 * AddBlock.pcRank s.commit.txs.length d.pairCount s.commit.pc + if s.writing.isNone then 1 else 0) * 2 ^ 65 +
    s.catalog.catalog.work

/-- The caller waits for a job of its own process. -/
structure Waits (s : NodeLife κ σ τ Tx Ov) : Prop where
  released : s.catalog.Released
  own : ∀ j, s.writing = some j → s.catalog.earlier ≤ j ∧ j < s.catalog.catalog.jobs.length

variable {d : ChainDesign Tx Ov} {config : BlockchainConfig} {lib : CatalogLibrary} {s s' : NodeLife κ σ τ Tx Ov}

omit [OrderedStore κ ContentsEntry ContentsEntry.compare] [OrderedStore σ SegmentMetadata SegmentMetadata.compare] in
/-- A step of the call outweighs the moves it may have to wait for. -/
theorem work_step (going : s.commit.outcome = none) (env : Env) (writing : Option Nat) :
    work d ⟨AddBlock.step d config env s.commit, s.catalog, writing⟩ < s.work d := by
  have down := AddBlock.pcRank_step d config env s.commit (AddBlock.going_of_outcome going)
  unfold work
  dsimp only
  split <;> split <;> omega

/-- **A turn takes the work down.** -/
theorem work_turn (sorts : lib.Sorts) (nonzero : ∀ r ∈ records s.catalog.catalog.store.toc, r.fileId ≠ 0) {t : LifeTurn Tx}
    (goes : s.GoesOn t) (moved : s.step d config lib t = some s') : s'.work d < s.work d := by
  cases t with
  | call txs millis => exact absurd goes id
  | restart => exact absurd goes id
  | job j a =>
    obtain ⟨catalog, acted, rfl⟩ := Option.map_eq_some_iff.1 (step_job moved)
    have less := Catalog.work_act sorts nonzero (CatalogLife.step_move acted).1
    unfold work
    dsimp only
    omega
  | commit epochOpen trackerInsert now =>
    cases commitTurn_cases moved with
    | @submits n i ov version payload catalog pc idle called =>
      obtain ⟨called, -⟩ := CatalogLife.step_move called
      simp only [Catalog.step, Option.some.injEq] at called
      have more := Catalog.work_call s.catalog.catalog ⟨UInt16.ofNat i, version, 0, n, n + 1, payload⟩ now
      rw [called] at more
      have bound := now.toNat_lt
      unfold work
      simp only [idle, Option.isNone_none, Option.isNone_some, if_true, Bool.false_eq_true, if_false, more]
      omega
    | returns pc => exact work_step (by rw [Commit.outcome, pc]) _ _
    | steps elsewhere going => exact work_step going _ _

theorem Waits.turn (h : s.Waits) {t : LifeTurn Tx} (moved : s.step d config lib t = some s') : s'.Waits := by
  cases t with
  | call txs millis =>
    obtain ⟨-, rfl⟩ := step_call moved
    exact ⟨h.released, h.own⟩
  | restart =>
    simp only [step] at moved
    obtain ⟨catalog, reopened, rfl⟩ := Option.map_eq_some_iff.1 moved
    exact ⟨h.released.step reopened, fun j none => by cases none⟩
  | job j a =>
    obtain ⟨catalog, acted, rfl⟩ := Option.map_eq_some_iff.1 (step_job moved)
    obtain ⟨stepped, same⟩ := CatalogLife.step_move acted
    have length : catalog.catalog.jobs.length = s.catalog.catalog.jobs.length := by
      have calls := congrArg List.length (Catalog.calls_act stepped)
      simpa using calls
    refine ⟨h.released.step acted, fun k writing => ?_⟩
    show catalog.earlier ≤ k ∧ k < catalog.catalog.jobs.length
    rw [same, length]
    exact h.own k writing
  | commit epochOpen trackerInsert now =>
    cases commitTurn_cases moved with
    | @submits n i ov version payload catalog pc idle called =>
      obtain ⟨stepped, same⟩ := CatalogLife.step_move called
      simp only [Catalog.step, Option.some.injEq] at stepped
      have among := h.released.among
      refine ⟨h.released.step called, fun k writing => ?_⟩
      obtain rfl := Option.some.inj writing
      show catalog.earlier ≤ _ ∧ _ < catalog.catalog.jobs.length
      rw [same, ← stepped, List.length_append, List.length_singleton]
      omega
    | returns => exact ⟨h.released, fun j none => by cases none⟩
    | steps => exact ⟨h.released, h.own⟩

/-- **Somebody has a turn**, the caller or a job, while anything is under way in a process that lives. -/
theorem Waits.exists_turn (h : s.Waits) (d : ChainDesign Tx Ov) (config : BlockchainConfig) (lib : CatalogLibrary)
    (alive : s.commit.dead = false) (busy : ¬ s.Quiet) : ∃ t s', s.GoesOn t ∧ s.step d config lib t = some s' := by
  have by_job : ∀ {j job}, s.catalog.earlier ≤ j → s.catalog.catalog.jobs[j]? = some job → job.stage.ended = false →
      ∃ t s', s.GoesOn t ∧ s.step d config lib t = some s' := by
    intro j job own here going
    obtain ⟨k, a, catalog, -, fine, acted⟩ := CatalogLife.exists_move lib h.released own here going
    refine ⟨.job k a, { s with catalog }, fine, ?_⟩
    simp only [step, jobTurn, alive, acted, Bool.false_eq_true, if_false, Option.map_some]
  have by_call : ∀ {s'}, s.step d config lib (.commit .opens none 0) = some s' →
      ∃ t s', s.GoesOn t ∧ s.step d config lib t = some s' := fun moved => ⟨.commit .opens none 0, _, trivial, moved⟩
  cases outcome : s.commit.outcome with
  | some result =>
    -- the call has ended, so some job has not
    have some_job : ∃ j job, s.catalog.earlier ≤ j ∧ s.catalog.catalog.jobs[j]? = some job ∧ job.stage.ended = false := by
      by_contra none
      refine busy ⟨by rw [outcome]; rfl, fun j job own here => ?_⟩
      by_contra going
      exact none ⟨j, job, own, here, by simpa using going⟩
    obtain ⟨j, job, own, here, going⟩ := some_job
    exact by_job own here going
  | none =>
    cases pc : s.commit.pc with
    | writeSegment n i ov version payload =>
      cases writing : s.writing with
      | none =>
        apply by_call
        simp only [step, commitTurn, pc, writing, CatalogLife.step, CatalogLife.Own, Catalog.step, Option.map_some]
        rfl
      | some j =>
        obtain ⟨own, inside⟩ := h.own j writing
        have here := List.getElem?_eq_getElem inside
        cases returned : (s.catalog.catalog.jobs[j]).stage.returned with
        | none => exact by_job own here (Stage.going_of_returned returned)
        | some thrown =>
          apply by_call
          simp only [step, commitTurn, pc, writing, here, Option.bind_some, returned]
          rfl
    | returned | threw | died => rw [Commit.outcome, pc] at outcome; cases outcome
    | _ =>
      apply by_call
      simp only [step, commitTurn, pc, outcome]
      rfl

end NodeLife

/-- **The node comes to rest**: from any state of any run, the call under way and the jobs of the process
take no more turns than the work there is, in whatever order and whatever fails, and as long as the
process lives and one of them has not ended, one of them has a turn. -/
theorem node_comes_to_rest {κ σ τ Tx Ov : Type} [OrderedStore κ ContentsEntry ContentsEntry.compare]
    [OrderedStore σ SegmentMetadata SegmentMetadata.compare] [OrderedStore τ TimestampEntry TimestampEntry.compare]
    (d : ChainDesign Tx Ov) (config : BlockchainConfig) (lib : CatalogLibrary) (few : d.pairCount ≤ 65536)
    (sorts : lib.Sorts) (s : NodeLife κ σ τ Tx Ov)
    (run : Reach (NodeLife.step d config lib) NodeLife.Allowed NodeLife.start s) :
    (∀ turns s', moves (NodeLife.goingTurns d config lib) turns s = some s' → turns.length + s'.work d ≤ s.work d) ∧
    (s.commit.dead = false → ¬ s.Quiet → ∃ t s', s.GoesOn t ∧ s.step d config lib t = some s') := by
  have allowed : ∀ {u : NodeLife κ σ τ Tx Ov} {t}, u.GoesOn t → u.Allowed t := by
    intro u t goes
    cases t with
    | call | restart => exact absurd goes id
    | commit | job => exact goes
  have order : ∃ b, s.InOrder d lib b := by
    refine run.invariant (P := fun s => ∃ b, s.InOrder d lib b) ⟨_, .start lib⟩ ?_
    rintro s t s' ⟨b, h⟩ ok moved
    exact h.turn few ok moved
  have waits : s.Waits := by
    refine run.invariant ⟨⟨Nat.le_refl 0, fun job mem => ?_⟩, fun j none => by cases none⟩ fun _ _ _ h _ moved => h.turn moved
    cases mem
  refine ⟨fun turns s' ran => ?_, waits.exists_turn d config lib⟩
  refine length_moves_le (P := fun u => ∃ b, u.InOrder d lib b) (Q := fun _ => True) ?_ turns order (fun _ _ => trivial) ran
  rintro u t u' ⟨b, h⟩ - moved
  unfold NodeLife.goingTurns at moved
  split at moved
  · rename_i goes
    exact ⟨h.turn few (allowed goes) moved, NodeLife.work_turn sorts h.kept.files.nonzero.toc goes moved⟩
  · cases moved

section Runs

theorem plainLibrary_sorts : plainLibrary.Sorts := by
  intro candidates
  show ((candidates.insertionSort _).map Prod.fst).length ≤ _
  rw [List.length_map, List.length_insertionSort]

/-- A call that waits for its segment, and the job that chooses a file for it. -/
theorem node_comes_to_rest_waiting : ∃ s : ListNodeLife,
    moves allowedTurns (.call [7] 100 :: List.replicate 16 (.commit .opens none 50)) NodeLife.start = some s ∧
    s.writing = some 0 ∧
    (∀ turns s', moves (NodeLife.goingTurns countDesign briskConfig plainLibrary) turns s = some s' →
      turns.length + s'.work countDesign ≤ s.work countDesign) ∧
    ∃ t s', s.GoesOn t ∧ s.step countDesign briskConfig plainLibrary t = some s' := by
  have ran : (moves allowedTurns (.call [7] 100 :: List.replicate 16 (.commit .opens none 50)) NodeLife.start).map (fun s =>
      (s.writing, s.commit.dead, s.commit.outcome)) = some (some 0, false, none) := by
    decide +kernel
  obtain ⟨s, reached, facts⟩ := Option.map_eq_some_iff.1 ran
  obtain ⟨writing, facts⟩ := Prod.mk.inj facts
  obtain ⟨alive, going⟩ := Prod.mk.inj facts
  obtain ⟨ends, turn⟩ := node_comes_to_rest countDesign briskConfig plainLibrary (by decide) plainLibrary_sorts s
    (Reach.refl.guarded _ reached)
  refine ⟨s, reached, writing, ends, turn alive fun quiet => ?_⟩
  have ended := quiet.1
  rw [going] at ended
  cases ended

end Runs

end MagelessChain
