import MagelessChain.Storage.CatalogHistory
import MagelessChain.Storage.CatalogPayload

/-!
# A catalog across restarts

A process that ends, whether it is shut down or killed, leaves the table of contents, the files
with their segment indexes, and what `FreeSpaceFile` has given away of them. Gone is what it kept in
memory: the last file id, which files are being written, and its jobs, each wherever it stood. The
next process opens the directory and goes on. What a job has put through is found by every later
process, and no query shows a segment that no job has put in an index.
-/

namespace MagelessChain

open Lib OrderedStore

/-- What is left of a job when its process ends: the stage it came to, with no lock shared. -/
def Stage.left : Stage → Stage
  | .picking _ | .opening _ => .walking 0 []
  | stage => stage

def Job.left (job : Job) : Job := ⟨job.call, job.stage.left⟩

theorem Stage.left_follows (stage : Stage) : stage.left.Follows stage := by
  cases stage with
  | picking | opening => exact ⟨.inl rfl, .inl rfl, .inl rfl, rfl, rfl, .inl rfl⟩
  | _ => exact ⟨.inr rfl, .inr rfl, .inr rfl, rfl, rfl, .inr rfl⟩

/-- No lock outlives its process. -/
theorem Stage.sharesLock_left (stage : Stage) : stage.left.sharesLock = false := by
  cases stage <;> rfl

/-- What is given up or stays as it was, and is there, was there. -/
theorem eq_some_of_kept {α : Type} {after before : Option α} {x : α} (kept : after = none ∨ after = before)
    (here : after = some x) : before = some x := by
  obtain none | same := kept
  · rw [none] at here
    cases here
  · rwa [same] at here

theorem completedOn_left (jobs : List Job) (file : UInt64) :
    completedOn (jobs.map Job.left) file = completedOn jobs file := by
  unfold completedOn
  rw [List.countP_map]
  apply List.countP_congr
  intro job _
  show decide (job.stage.left.completed = some file) = true ↔ _
  rw [job.stage.left_follows.completed]

section Restart

variable {τ σ : Type}

/-- The catalog the next process opens, with the jobs it does not know of. -/
def Catalog.restart (s : Catalog τ σ) : Catalog τ σ := ⟨s.reopen.store, s.jobs.map Job.left⟩

/-- A segment stays in its index. -/
theorem Catalog.indexed_restart {s : Catalog τ σ} {c : WriteCall} {file offset : UInt64} :
    s.restart.Indexed c file offset ↔ s.Indexed c file offset := by
  constructor
  · rintro ⟨_, mem, rfl, indexed⟩
    obtain ⟨job, here, rfl⟩ := List.mem_map.1 mem
    exact ⟨job, here, rfl, job.stage.left_follows.inIndex ▸ indexed⟩
  · rintro ⟨job, here, rfl, indexed⟩
    exact ⟨job.left, List.mem_map_of_mem here, rfl, job.stage.left_follows.inIndex.trans indexed⟩

/-- What is through stays through. -/
theorem Catalog.Through.restart {s : Catalog τ σ} {c : WriteCall} {file offset : UInt64} (h : s.Through c file offset) :
    s.restart.Through c file offset := by
  obtain ⟨job, here, rfl, completed, indexed⟩ := h
  refine ⟨job.left, List.mem_map_of_mem here, rfl, ?_, ?_⟩
  · exact job.stage.left_follows.completed.trans completed
  · exact job.stage.left_follows.inIndex.trans indexed

theorem Catalog.Payloads.restart {s : Catalog τ σ} (h : s.Payloads) : s.restart.Payloads := by
  constructor
  · show (s.jobs.map Job.left).Pairwise Job.Apart
    rw [List.pairwise_map]
    apply h.apart.imp
    intro a b apart file offset offset' here there
    apply apart file offset offset'
    · exact eq_some_of_kept (Stage.left_follows _).region here
    · exact eq_some_of_kept (Stage.left_follows _).region there
  · intro _ mem file offset wrote
    obtain ⟨job, here, rfl⟩ := List.mem_map.1 mem
    exact h.held job here file offset (eq_some_of_kept (Stage.left_follows _).written wrote)

theorem Catalog.Placed.restart {s : Catalog τ σ} (h : s.Placed) : s.restart.Placed := by
  intro _ mem file offset region
  obtain ⟨job, here, rfl⟩ := List.mem_map.1 mem
  exact h job here file offset (eq_some_of_kept (Stage.left_follows _).region region)

variable [OrderedStore τ ContentsEntry ContentsEntry.compare]

theorem Catalog.TocInv.restart {s : Catalog τ σ} (h : s.TocInv) : s.restart.TocInv := by
  refine ⟨⟨fun r found => ⟨?_, ?_⟩, ?_⟩, ?_⟩
  · show r.segmentCount = UInt32.ofNat (completedOn (s.jobs.map Job.left) r.fileId)
    rw [completedOn_left]
    exact (h.summaries r found).count
  · intro _ mem completed
    obtain ⟨job, here, rfl⟩ := List.mem_map.1 mem
    apply (h.summaries r found).covers job here
    rwa [← job.stage.left_follows.completed]
  · intro _ mem file completed
    obtain ⟨job, here, rfl⟩ := List.mem_map.1 mem
    apply h.listed job here file
    rwa [← job.stage.left_follows.completed]
  · intro _ mem file key target
    obtain ⟨job, here, rfl⟩ := List.mem_map.1 mem
    exact h.snapshots job here file key (eq_some_of_kept (Stage.left_follows _).target target)

variable [OrderedStore σ SegmentMetadata SegmentMetadata.compare]

/-- **A restart keeps the files in order**, at whatever moment the process ends. -/
theorem Catalog.BackendInv.restart {lib : CatalogLibrary} {s : Catalog τ σ} (h : s.BackendInv lib) :
    s.restart.BackendInv lib where
  toc := h.toc.restart
  slots := by
    constructor
    · intro _ mem
      obtain ⟨job, here, rfl⟩ := List.mem_map.1 mem
      exact h.slots.oneBlock job here
    · show ((s.jobs.map Job.left).map fun job => job.call.slot).Nodup
      rw [List.map_map]
      exact h.slots.distinct
  nonzero := by
    refine ⟨fun _ mem file settled => ?_, h.nonzero.toc⟩
    obtain ⟨job, here, rfl⟩ := List.mem_map.1 mem
    exact h.nonzero.jobs job here file (eq_some_of_kept (Stage.left_follows _).settled settled)
  filed := by
    intro _ mem file uses
    obtain ⟨job, here, rfl⟩ := List.mem_map.1 mem
    apply h.filed job here file
    obtain ⟨key, target⟩ | ⟨offset, region⟩ := uses
    · exact .inl ⟨key, eq_some_of_kept (Stage.left_follows _).target target⟩
    · exact .inr ⟨offset, eq_some_of_kept (Stage.left_follows _).region region⟩
  index := by
    intro file f found m
    simp only [Catalog.indexed_restart]
    exact h.index file f found m

end Restart

/-! ## The life of a directory -/

/-- A catalog with all jobs since its directory was empty, the first `earlier` of them of processes
that have ended. -/
structure CatalogLife (τ σ : Type) where
  catalog : Catalog τ σ
  earlier : Nat

namespace CatalogLife

variable {τ σ : Type} [OrderedStore τ ContentsEntry ContentsEntry.compare]
  [OrderedStore σ SegmentMetadata SegmentMetadata.compare]

def empty : CatalogLife τ σ := ⟨Catalog.empty, 0⟩

omit [OrderedStore τ ContentsEntry ContentsEntry.compare] [OrderedStore σ SegmentMetadata SegmentMetadata.compare] in
/-- The job a move is of has not ended with its process. -/
def Own (s : CatalogLife τ σ) : CatalogMove → Prop
  | .call _ _ => True
  | .act j _ => s.earlier ≤ j

instance (s : CatalogLife τ σ) : (m : CatalogMove) → Decidable (s.Own m)
  | .call _ _ => .isTrue trivial
  | .act j _ => inferInstanceAs (Decidable (s.earlier ≤ j))

/-- A move of the process there is, or the next process. -/
def step (lib : CatalogLibrary) (s : CatalogLife τ σ) : HistoryMove → Option (CatalogLife τ σ)
  | .move m => if s.Own m then (s.catalog.step lib m).map fun catalog => { s with catalog } else none
  | .reopen => some ⟨s.catalog.restart, s.catalog.jobs.length⟩

/-- A move under a backend, or a process that ends, at any moment. -/
def Allowed (s : CatalogLife τ σ) : HistoryMove → Prop
  | .move m => BackendMove s.catalog m
  | .reopen => True

instance (s : CatalogLife τ σ) : (m : HistoryMove) → Decidable (s.Allowed m)
  | .move m => inferInstanceAs (Decidable (BackendMove s.catalog m))
  | .reopen => .isTrue trivial

/-- A move under a backend. -/
def Running (s : CatalogLife τ σ) : HistoryMove → Prop
  | .move m => BackendMove s.catalog m
  | .reopen => False

/-- What a catalog keeps over the life of its directory. -/
structure Kept (lib : CatalogLibrary) (s : CatalogLife τ σ) : Prop where
  files : s.catalog.BackendInv lib
  payloads : s.catalog.Payloads

theorem step_move {lib : CatalogLibrary} {s s' : CatalogLife τ σ} {m : CatalogMove}
    (moved : s.step lib (.move m) = some s') : s.catalog.step lib m = some s'.catalog ∧ s'.earlier = s.earlier := by
  simp only [step] at moved
  split at moved
  · obtain ⟨catalog, stepped, rfl⟩ := Option.map_eq_some_iff.1 moved
    exact ⟨stepped, rfl⟩
  · cases moved

/-- **One move**, or one process that ends. -/
theorem Kept.step {lib : CatalogLibrary} {s s' : CatalogLife τ σ} {m : HistoryMove} (h : s.Kept lib)
    (allowed : s.Allowed m) (moved : s.step lib m = some s') : s'.Kept lib := by
  cases m with
  | move m =>
    obtain ⟨stepped, -⟩ := step_move moved
    exact ⟨h.files.step allowed stepped, h.payloads.step h.files.filed stepped⟩
  | reopen =>
    cases moved
    exact ⟨h.files.restart, h.payloads.restart⟩

theorem Kept.empty (lib : CatalogLibrary) : (empty : CatalogLife τ σ).Kept lib where
  files := .empty lib
  payloads := ⟨.nil, fun _ mem => absurd mem List.not_mem_nil⟩

theorem kept {lib : CatalogLibrary} {s : CatalogLife τ σ} (run : Reach (step lib) Allowed empty s) : s.Kept lib :=
  run.invariant (Kept.empty lib) fun _ _ _ h allowed moved => h.step allowed moved

/-- Within one process, the moves are those of a catalog. -/
theorem running_reach {lib : CatalogLibrary} {s s' : CatalogLife τ σ} (run : Reach (step lib) Running s s') :
    Reach (Catalog.step lib) BackendMove s.catalog s'.catalog := by
  induction run with
  | refl => exact .refl
  | @tail s s' m _ ok moved ih =>
    cases m with
    | move m => exact ih.tail ok (step_move moved).1
    | reopen => exact absurd ok id

/-- The states the calls of a query find, within one process. -/
structure Seen (lib : CatalogLibrary) (s : CatalogLife τ σ) (scan visit : Nat → CatalogLife τ σ) : Prop where
  first : scan 0 = s
  scans : ∀ k, Reach (step lib) Running (scan k) (scan (k + 1))
  between : ∀ k, Reach (step lib) Running (scan k) (visit 0)
  visits : ∀ k, Reach (step lib) Running (visit k) (visit (k + 1))

theorem Seen.views {lib : CatalogLibrary} {s : CatalogLife τ σ} {scan visit : Nat → CatalogLife τ σ}
    (seen : Seen lib s scan visit) (kept : s.Kept lib) : LaterViews lib (fun k => (scan k).catalog) fun k => (visit k).catalog where
  start := by
    show (scan 0).catalog.BackendInv lib
    rw [seen.first]
    exact kept.files
  scans k := running_reach (seen.scans k)
  between k := running_reach (seen.between k)
  visits k := running_reach (seen.visits k)

theorem Kept.running {lib : CatalogLibrary} {s s' : CatalogLife τ σ} (h : s.Kept lib)
    (run : Reach (CatalogLife.step lib) Running s s') : s'.Kept lib := by
  refine run.invariant h ?_
  intro s m s' h ok moved
  cases m with
  | move m => exact h.step (m := .move m) ok moved
  | reopen => exact absurd ok id

section Runs

end Runs

end CatalogLife

end MagelessChain
