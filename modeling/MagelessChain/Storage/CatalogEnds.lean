import MagelessChain.Storage.CatalogHistory
import MagelessChain.Storage.CatalogRestarts

/-!
# Jobs, to their end

A walk of `selectFileFor` goes down by file ids, however many files other tasks list in the meantime, and
stops at sixteen candidates or at the last file; from there a job has a fixed number of moves for each
candidate and a few more. It waits only where it registers its file or takes it back, for those who are
choosing a file under the shared lock, and these wait for nobody.
-/

namespace MagelessChain

open Lib OrderedStore

/-- The job makes no more moves. -/
def Stage.ended : Stage → Bool
  | .finished _ _ | .failed _ | .refused _ => true
  | _ => false

/-- How many moves a job still makes, at most. -/
def Stage.work : Stage → Nat
  | .walking cursor candidates => cursor.toNat + max 16 candidates.length + 11
  | .picking candidates => candidates.length + 10
  | .opening _ => 9
  | .chosen _ _ => 8
  | .queued _ _ => 7
  | .allocated _ _ _ => 6
  | .stored _ _ _ => 5
  | .created _ _ _ => 4
  | .updated _ _ => 3
  | .failing _ => 1
  | .finished _ _ | .failed _ | .refused _ => 0

/-- A job that holds the lock goes on. -/
theorem Stage.going_of_sharesLock {stage : Stage} (shares : stage.sharesLock = true) : stage.ended = false := by
  cases stage <;> first | rfl | cases shares

/-- The priority queue sorts what is in it. -/
def CatalogLibrary.Sorts (lib : CatalogLibrary) : Prop := ∀ candidates, (lib.sorted candidates).length ≤ candidates.length

section Moves

variable {τ σ : Type} [OrderedStore τ ContentsEntry ContentsEntry.compare]
  [OrderedStore σ SegmentMetadata SegmentMetadata.compare] {lib : CatalogLibrary}

/-- The moves the jobs there are still make, at most. -/
def Catalog.work (s : Catalog τ σ) : Nat := (s.jobs.map fun job => job.stage.work).sum

theorem considerCandidate_length (lib : CatalogLibrary) (c : WriteCall) (candidates : List (UInt64 × Int)) (key : ContentsEntry) :
    (considerCandidate lib c candidates key).length ≤ candidates.length + 1 := by
  unfold considerCandidate
  split
  · rw [List.length_append, List.length_singleton]
  · omega

/-- **A move takes the work down**, also a round of the walk, since its cursor passes the entry it found. -/
theorem Job.act_work {s : Catalog τ σ} {job : Job} {a : Act} {stage : Stage} {store : CatalogStore τ σ} (sorts : lib.Sorts)
    (nonzero : ∀ r ∈ records s.store.toc, r.fileId ≠ 0) (moved : job.act lib s a = some (stage, store)) :
    stage.work < job.stage.work := by
  obtain ⟨c, stage₀⟩ := job
  cases stage₀ with
  | walking cursor candidates =>
    cases a with
    | walk =>
      have sorted := sorts candidates
      have stops : (Stage.picking (lib.sorted candidates)).work < (Stage.walking cursor candidates).work := by
        simp only [Stage.work]
        omega
      rw [Job.act_walk, Option.some.injEq] at moved
      split at moved
      · cases moved
        exact stops
      · rename_i key found
        split at moved
        · rename_i few
          cases moved
          obtain ⟨listed, below⟩ := mem_of_findNext found
          rw [ContentsEntry.compare_eq, Std.isLE_compare] at below
          have down := toNat_sub_one (nonzero key listed)
          have le := UInt64.le_iff_toNat_le.1 below
          change key.fileId.toNat ≤ cursor.toNat at le
          have more := considerCandidate_length lib c candidates key
          simp only [Stage.work]
          omega
        · cases moved
          exact stops
    | _ => cases moved
  | picking candidates =>
    cases candidates with
    | nil =>
      cases a with
      | number now =>
        cases moved
        simp only [Stage.work, List.length_nil]
        omega
      | _ => cases moved
    | cons file rest =>
      cases a with
      | pick opened =>
        simp only [Job.act] at moved
        split at moved
        · cases moved
          simp only [Stage.work]
          omega
        · split at moved
          · cases moved
            simp only [Stage.work]
            omega
          · cases moved
            simp only [Stage.work, List.length_cons]
            omega
      | _ => cases moved
  | opening file =>
    cases a with
    | openNew opened =>
      simp only [Job.act] at moved
      split at moved <;> cases moved <;> simp [Stage.work]
    | _ => cases moved
  | chosen file key =>
    cases a with
    | register =>
      simp only [Job.act] at moved
      split at moved <;> cases moved
      simp [Stage.work]
    | _ => cases moved
  | queued file key =>
    cases a with
    | allocate offset =>
      cases offset with
      | none =>
        cases moved
        simp [Stage.work]
      | some offset =>
        simp only [Job.act] at moved
        split at moved <;> cases moved
        simp [Stage.work]
    | _ => cases moved
  | allocated file key offset =>
    cases a with
    | store written =>
      simp only [Job.act, Option.some.injEq, Prod.mk.injEq] at moved
      obtain ⟨rfl, -⟩ := moved
      split <;> simp [Stage.work]
    | _ => cases moved
  | stored file key offset =>
    cases a with
    | insert throws => cases throws <;> cases moved <;> simp [Stage.work]
    | _ => cases moved
  | created file key offset =>
    cases a with
    | update totalBytes =>
      cases moved
      simp [Stage.work]
    | _ => cases moved
  | updated file offset =>
    cases a with
    | unregister =>
      simp only [Job.act] at moved
      split at moved <;> cases moved
      simp [Stage.work]
    | _ => cases moved
  | failing file =>
    cases a with
    | unregister =>
      simp only [Job.act] at moved
      split at moved <;> cases moved
      simp [Stage.work]
    | _ => cases moved
  | finished | failed | refused => cases a <;> cases moved

theorem Catalog.work_act {s s' : Catalog τ σ} {j : Nat} {a : Act} (sorts : lib.Sorts)
    (nonzero : ∀ r ∈ records s.store.toc, r.fileId ≠ 0) (moved : s.step lib (.act j a) = some s') : s'.work < s.work := by
  simp only [Catalog.step] at moved
  split at moved
  · cases moved
  · rename_i job here
    obtain ⟨⟨stage, store⟩, acted, rfl⟩ := Option.map_eq_some_iff.1 moved
    have less := Job.act_work sorts nonzero acted
    obtain ⟨inside, at_j⟩ := List.getElem?_eq_some_iff.1 here
    have split : s.jobs = s.jobs.take j ++ job :: s.jobs.drop (j + 1) := by
      rw [← at_j, List.getElem_cons_drop, List.take_append_drop]
    unfold Catalog.work
    rw [List.set_eq_take_append_cons_drop, if_pos inside]
    conv_rhs => rw [split]
    simp only [List.map_append, List.map_cons, List.sum_append, List.sum_cons]
    omega

omit [OrderedStore τ ContentsEntry ContentsEntry.compare] [OrderedStore σ SegmentMetadata SegmentMetadata.compare] in
theorem Catalog.work_call (s : Catalog τ σ) (c : WriteCall) (now : UInt64) :
    Catalog.work { s with jobs := s.jobs ++ [⟨c, .walking now []⟩] } = s.work + (now.toNat + 27) := by
  simp [Catalog.work, Stage.work]

/-! ## Somebody moves -/

/-- A job that has not ended can move, if nobody it waits for is choosing a file. -/
theorem Job.act_enabled (lib : CatalogLibrary) (s : Catalog τ σ) (job : Job) (going : job.stage.ended = false)
    (free : job.stage.sharesLock = false → ∀ other ∈ s.jobs, other.stage.sharesLock = false) :
    ∃ a, (job.act lib s a).isSome ∧ BackendMove s (.act 0 a) := by
  obtain ⟨c, stage⟩ := job
  have nobody : stage.sharesLock = false → s.jobs.any (fun other => other.stage.sharesLock) = false := by
    intro outside
    rw [List.any_eq_false]
    intro other mem
    rw [free outside other mem]
    simp
  cases stage with
  | walking cursor candidates => exact ⟨.walk, by rw [Job.act_walk]; rfl, trivial⟩
  | picking candidates =>
    cases candidates with
    | nil => exact ⟨.number 0, rfl, by show (0 : UInt64).toNat + 1 < 2 ^ 64; decide⟩
    | cons file rest =>
      refine ⟨.pick false, ?_, trivial⟩
      simp only [Job.act]
      split
      · rfl
      · rw [if_neg (by simp)]
        rfl
  | opening file => exact ⟨.openNew false, rfl, trivial⟩
  | chosen file key =>
    refine ⟨.register, ?_, trivial⟩
    simp only [Job.act, nobody rfl]
    rfl
  | queued file key => exact ⟨.allocate none, rfl, trivial⟩
  | allocated file key offset => exact ⟨.store none, rfl, trivial⟩
  | stored file key offset => exact ⟨.insert true, rfl, trivial⟩
  | created file key offset => exact ⟨.update 0, rfl, trivial⟩
  | updated file offset =>
    refine ⟨.unregister, ?_, trivial⟩
    simp only [Job.act, nobody rfl]
    rfl
  | failing file =>
    refine ⟨.unregister, ?_, trivial⟩
    simp only [Job.act, nobody rfl]
    rfl
  | finished | failed | refused => cases going

namespace CatalogLife

/-- The jobs of the processes before hold no lock. -/
structure Released (s : CatalogLife τ σ) : Prop where
  among : s.earlier ≤ s.catalog.jobs.length
  free : ∀ job ∈ s.catalog.jobs.take s.earlier, job.stage.sharesLock = false

theorem Released.step {s s' : CatalogLife τ σ} {m : HistoryMove} (h : s.Released) (moved : s.step lib m = some s') :
    s'.Released := by
  cases m with
  | reopen =>
    cases moved
    have length : s.catalog.restart.jobs.length = s.catalog.jobs.length := List.length_map _
    refine ⟨Nat.le_of_eq length.symm, fun job mem => ?_⟩
    obtain ⟨job, -, rfl⟩ := List.mem_map.1 (List.mem_of_mem_take mem)
    exact job.stage.sharesLock_left
  | move m =>
    obtain ⟨stepped, same⟩ := step_move moved
    have among := h.among
    cases m with
    | call c now =>
      simp only [Catalog.step, Option.some.injEq] at stepped
      constructor
      · rw [same, ← stepped, List.length_append]
        omega
      · rw [same, ← stepped, List.take_append_of_le_length among]
        exact h.free
    | act j a =>
      have own : s.earlier ≤ j := by
        simp only [CatalogLife.step] at moved
        split at moved
        · assumption
        · cases moved
      simp only [Catalog.step] at stepped
      split at stepped
      · cases stepped
      · obtain ⟨⟨stage, store⟩, -, eq⟩ := Option.map_eq_some_iff.1 stepped
        constructor
        · rw [same, ← eq, List.length_set]
          exact among
        · rw [same, ← eq, List.take_set_of_le own]
          exact h.free

/-- **Some job moves**, as long as one of the process has not ended. -/
theorem exists_move (lib : CatalogLibrary) {s : CatalogLife τ σ} (released : s.Released) {j : Nat} {job : Job}
    (own : s.earlier ≤ j) (here : s.catalog.jobs[j]? = some job) (going : job.stage.ended = false) :
    ∃ j a catalog, s.earlier ≤ j ∧ BackendMove s.catalog (.act j a) ∧ s.step lib (.move (.act j a)) = some catalog := by
  have moves : ∀ {j job}, s.earlier ≤ j → s.catalog.jobs[j]? = some job → job.stage.ended = false →
      (job.stage.sharesLock = false → ∀ other ∈ s.catalog.jobs, other.stage.sharesLock = false) →
      ∃ j a catalog, s.earlier ≤ j ∧ BackendMove s.catalog (.act j a) ∧ s.step lib (.move (.act j a)) = some catalog := by
    intro j job own here going free
    obtain ⟨a, enabled, fine⟩ := job.act_enabled lib s.catalog going free
    obtain ⟨⟨stage, store⟩, acted⟩ := Option.isSome_iff_exists.1 enabled
    refine ⟨j, a, ⟨⟨store, s.catalog.jobs.set j { job with stage }⟩, s.earlier⟩, own, ?_, ?_⟩
    · cases a <;> exact fine
    · simp only [CatalogLife.step, Own, own, if_true, Catalog.step, here, acted, Option.map_some]
  by_cases held : ∃ other ∈ s.catalog.jobs, other.stage.sharesLock = true
  · -- who holds the lock is of this process, and waits for nobody
    obtain ⟨other, mem, shares⟩ := held
    obtain ⟨k, there⟩ := List.mem_iff_getElem?.1 mem
    have own : s.earlier ≤ k := by
      by_contra before
      have first : other ∈ s.catalog.jobs.take s.earlier := by
        rw [List.mem_iff_getElem?]
        exact ⟨k, by rw [List.getElem?_take_of_lt (by omega)]; exact there⟩
      rw [released.free other first] at shares
      cases shares
    apply moves own there (Stage.going_of_sharesLock shares)
    intro outside
    rw [shares] at outside
    cases outside
  · apply moves own here going
    intro _ other mem
    cases shares : other.stage.sharesLock with
    | false => rfl
    | true => exact absurd ⟨other, mem, shares⟩ held

end CatalogLife

end Moves

end MagelessChain
