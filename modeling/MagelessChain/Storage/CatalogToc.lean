import MagelessChain.Storage.Catalog
import Mathlib.Data.List.Sort

/-!
# The table of contents

Jobs carry a snapshot of their file's entry from `selectFileFor` to the update, and other jobs
update the entry meanwhile; a new file has no entry until the first of its jobs is done. The
update starts from the entry the table has at that moment, under `tocWriteMutex`, so in every
order of moves each entry accounts for exactly the jobs that made their update.
-/

namespace MagelessChain

open Lib OrderedStore

/-! ## Summaries -/

/-- An entry covers a segment: its bloom filter has the index, its range the blocks. -/
structure ContentsEntry.Covers (r : ContentsEntry) (c : WriteCall) : Prop where
  bloom : bloomMaybeContains r.bloom c.indexId = true
  rangeMin : r.blockRangeMin ≤ c.startBlock
  rangeMax : c.endBlock ≤ r.blockRangeMax

/-- How many jobs have made their update of a file's entry. -/
def completedOn (jobs : List Job) (file : UInt64) : Nat :=
  jobs.countP fun job => job.stage.completed = some file

theorem completedOn_split (front back : List Job) (job : Job) (file : UInt64) :
    completedOn (front ++ job :: back) file =
      completedOn front file + completedOn back file + if job.stage.completed = some file then 1 else 0 := by
  simp [completedOn, List.countP_cons, Nat.add_assoc]

/-- An entry accounts for the jobs on its file that have made their update. -/
structure ContentsEntry.Summarises (r : ContentsEntry) (jobs : List Job) : Prop where
  count : r.segmentCount = UInt32.ofNat (completedOn jobs r.fileId)
  covers : ∀ job ∈ jobs, job.stage.completed = some r.fileId → r.Covers job.call

theorem bloomMaybeContains_iff {bits : BitVec 256} {indexId : UInt16} :
    bloomMaybeContains bits indexId = true ↔
      ∀ i, (bloomKeyHash indexId).getLsbD i = true → bits.getLsbD i = true := by
  rw [bloomMaybeContains, beq_iff_eq]
  constructor
  · intro h i set
    rw [← h, BitVec.getLsbD_and, Bool.and_eq_true] at set
    exact set.1
  · intro h
    apply BitVec.eq_of_getLsbD_eq
    intro i _
    rw [BitVec.getLsbD_and]
    cases set : (bloomKeyHash indexId).getLsbD i with
    | false => simp
    | true => simp [h i set]

theorem le_max_uint64 (a b : UInt64) : a ≤ max a b ∧ b ≤ max a b := by
  rw [show max a b = if a ≤ b then b else a from rfl]
  split
  · rename_i le
    exact ⟨le, UInt64.le_refl b⟩
  · rename_i gt
    exact ⟨UInt64.le_refl a, UInt64.le_of_lt (UInt64.not_le.1 gt)⟩

theorem ContentsEntry.covers_absorb (r : ContentsEntry) (c : WriteCall) (totalBytes : UInt64) :
    (r.absorb c totalBytes).Covers c := by
  refine ⟨bloomMaybeContains_iff.2 fun i set => ?_, ?_, ?_⟩
  · simp [ContentsEntry.absorb, set]
  · exact Std.min_le_right
  · exact (le_max_uint64 _ _).2

theorem ContentsEntry.Covers.absorb {r : ContentsEntry} {c : WriteCall} (h : r.Covers c) (c' : WriteCall)
    (totalBytes : UInt64) : (r.absorb c' totalBytes).Covers c := by
  refine ⟨bloomMaybeContains_iff.2 fun i set => ?_, ?_, ?_⟩
  · simp [ContentsEntry.absorb, bloomMaybeContains_iff.1 h.bloom i set]
  · exact UInt64.le_trans (Std.min_le_left) h.rangeMin
  · exact UInt64.le_trans h.rangeMax (le_max_uint64 _ _).1

/-- The update of an entry accounts for the job that makes it. -/
theorem ContentsEntry.Summarises.absorb {r : ContentsEntry} {front back : List Job} {job : Job} {offset : UInt64}
    (h : r.Summarises (front ++ job :: back)) (before : job.stage.completed = none) (totalBytes : UInt64) :
    (r.absorb job.call totalBytes).Summarises (front ++ ⟨job.call, .updated r.fileId offset⟩ :: back) := by
  refine ⟨?_, fun other mem completed => ?_⟩
  · have count := h.count
    rw [completedOn_split, before, if_neg (by simp), Nat.add_zero] at count
    change r.segmentCount + 1 = UInt32.ofNat (completedOn _ r.fileId)
    rw [completedOn_split, if_pos (by rfl), count]
    exact (UInt32.ofNat_add _ 1).symm
  · rcases mem_of_mem_moved rfl mem with rfl | mem
    · exact r.covers_absorb _ _
    · exact (h.covers other mem completed).absorb _ _

section Invariant

variable {τ σ : Type} [OrderedStore τ ContentsEntry ContentsEntry.compare]

theorem ContentsEntry.fileId_of_compare {a b : ContentsEntry} (h : ContentsEntry.compare a b = .eq) :
    a.fileId = b.fileId := by
  rw [ContentsEntry.compare_eq, Std.compare_eq_iff_eq] at h
  exact h.symm

theorem ContentsEntry.compare_of_fileId {a b : ContentsEntry} (h : a.fileId = b.fileId) :
    ContentsEntry.compare a b = .eq := by
  rw [ContentsEntry.compare_eq, h, Std.compare_eq_iff_eq]

/-- A file has an entry in the table of contents. -/
def Catalog.Listed (s : Catalog τ σ) (file : UInt64) : Prop := ∃ r ∈ records s.store.toc, r.fileId = file

/-- **The table of contents is exact**: each entry accounts for the jobs on its file that made
their update, and the file of each such job has an entry. -/
structure Catalog.TocExact (s : Catalog τ σ) : Prop where
  summaries : ∀ r ∈ records s.store.toc, r.Summarises s.jobs
  listed : ∀ job ∈ s.jobs, ∀ file, job.stage.completed = some file → s.Listed file

/-- The snapshot of a job under way has its file's id, and is that of an empty file unless the
file is listed. -/
def Catalog.Snapshots (s : Catalog τ σ) : Prop :=
  ∀ job ∈ s.jobs, ∀ file key, job.stage.target = some (file, key) →
    key.fileId = file ∧ (key = ContentsEntry.fresh file ∨ s.Listed file)

/-- What every move keeps. -/
structure Catalog.TocInv (s : Catalog τ σ) : Prop extends s.TocExact where
  snapshots : s.Snapshots

/-- The entry an update starts from accounts for the updates so far. -/
theorem Catalog.TocInv.latest {s : Catalog τ σ} (h : s.TocInv) {job : Job} (mem : job ∈ s.jobs) {file : UInt64}
    {key : ContentsEntry} (target : job.stage.target = some (file, key)) :
    ((find s.store.toc key).getD key).fileId = file ∧ ((find s.store.toc key).getD key).Summarises s.jobs := by
  obtain ⟨id, origin⟩ := h.snapshots job mem file key target
  cases found : find s.store.toc key with
  | some latest =>
    exact ⟨by rw [← id]; exact ContentsEntry.fileId_of_compare (cmp_of_find found), h.summaries _ (mem_of_find found)⟩
  | none =>
    have missing : ¬ s.Listed file := by
      rintro ⟨r, here, same⟩
      exact cmp_of_find_none found r here (ContentsEntry.compare_of_fileId (by rw [same, id]))
    obtain rfl : key = ContentsEntry.fresh file := origin.resolve_right missing
    have nobody : ∀ other ∈ s.jobs, other.stage.completed ≠ some file := fun other here completed =>
      missing (h.listed other here file completed)
    refine ⟨rfl, ?_, fun other here completed => absurd completed (nobody other here)⟩
    have zero : completedOn s.jobs file = 0 := List.countP_eq_zero.2 fun other here => by simpa using nobody other here
    change (0 : UInt32) = UInt32.ofNat (completedOn s.jobs file)
    rw [zero]
    rfl

/-- A job that leaves the table alone and makes no update. -/
theorem Catalog.TocInv.keep {s : Catalog τ σ} (h : s.TocInv) {front back : List Job} {job : Job}
    (split : s.jobs = front ++ job :: back) {stage : Stage} {store : CatalogStore τ σ} (toc : store.toc = s.store.toc)
    (completed : stage.completed = job.stage.completed)
    (target : ∀ file key, stage.target = some (file, key) →
      key.fileId = file ∧ (key = ContentsEntry.fresh file ∨ s.Listed file)) :
    Catalog.TocInv ⟨store, front ++ ⟨job.call, stage⟩ :: back⟩ := by
  obtain ⟨⟨summaries, listed⟩, snapshots⟩ := h
  have here : job ∈ s.jobs := by simp [split]
  have listed_iff : ∀ {jobs : List Job} {file : UInt64}, Catalog.Listed ⟨store, jobs⟩ file ↔ s.Listed file := by
    simp [Catalog.Listed, toc]
  refine ⟨⟨fun r found => ⟨?_, fun other mem done => ?_⟩, fun other mem file done => ?_⟩, fun other mem file key found => ?_⟩
  · rw [toc] at found
    rw [(summaries r found).count, split, completedOn_split, completedOn_split, completed]
  · rw [toc] at found
    rcases mem_of_mem_moved split mem with rfl | mem
    · exact (summaries r found).covers job here (completed ▸ done)
    · exact (summaries r found).covers other mem done
  · rw [listed_iff]
    rcases mem_of_mem_moved split mem with rfl | mem
    · exact listed job here file (completed ▸ done)
    · exact listed other mem file done
  · rw [listed_iff]
    rcases mem_of_mem_moved split mem with rfl | mem
    · exact target file key found
    · exact snapshots other mem file key found

/-- A job that makes its update. -/
theorem Catalog.TocInv.update {s : Catalog τ σ} (h : s.TocInv) {front back : List Job} {job : Job}
    (split : s.jobs = front ++ job :: back) {file offset totalBytes : UInt64} {key : ContentsEntry}
    (at_created : job.stage = .created file key offset) :
    Catalog.TocInv ⟨{ s.store with
        toc := overwrite s.store.toc (((find s.store.toc key).getD key).absorb job.call totalBytes) },
      front ++ ⟨job.call, .updated file offset⟩ :: back⟩ := by
  have target : job.stage.target = some (file, key) := by rw [at_created]; rfl
  obtain ⟨id, summary⟩ := h.latest (by simp [split] : job ∈ s.jobs) target
  obtain ⟨⟨summaries, listed⟩, snapshots⟩ := h
  generalize (find s.store.toc key).getD key = latest at id summary ⊢
  have absorbed : (latest.absorb job.call totalBytes).fileId = file := id
  have others : ∀ r, ContentsEntry.compare r (latest.absorb job.call totalBytes) ≠ .eq ↔ r.fileId ≠ file := fun r => by
    rw [← absorbed]
    exact not_congr ⟨ContentsEntry.fileId_of_compare, ContentsEntry.compare_of_fileId⟩
  have stays : ∀ {jobs : List Job} {f : UInt64}, f = file ∨ s.Listed f →
      Catalog.Listed ⟨{ s.store with toc := overwrite s.store.toc (latest.absorb job.call totalBytes) }, jobs⟩ f := by
    intro jobs f known
    by_cases same : f = file
    · exact ⟨_, (mem_overwrite ..).2 (.inl rfl), absorbed.trans same.symm⟩
    · obtain ⟨r, here, eq⟩ := known.resolve_left same
      exact ⟨r, (mem_overwrite ..).2 (.inr ⟨here, (others r).2 (eq ▸ same)⟩), eq⟩
  refine ⟨⟨fun r found => ?_, fun other mem f done => ?_⟩, fun other mem f key' found => ?_⟩
  · rcases (mem_overwrite ..).1 found with rfl | ⟨found, differs⟩
    · rw [split] at summary
      rw [← id]
      exact summary.absorb (by rw [at_created]; rfl) totalBytes
    · have apart := (others r).1 differs
      obtain ⟨count, covers⟩ := summaries r found
      refine ⟨?_, fun other mem done => ?_⟩
      · rw [count, split, completedOn_split, completedOn_split, at_created]
        simp [Stage.completed, Ne.symm apart]
      · rcases mem_of_mem_moved split mem with rfl | mem
        · exact absurd (Option.some.inj done).symm apart
        · exact covers other mem done
  · rcases mem_of_mem_moved split mem with rfl | mem
    · exact stays (.inl (Option.some.inj done).symm)
    · exact stays (.inr (listed other mem f done))
  · rcases mem_of_mem_moved split mem with rfl | mem
    · cases found
    · obtain ⟨eq, origin⟩ := snapshots other mem f key' found
      exact ⟨eq, origin.imp_right fun known => stays (.inr known)⟩

/-- A new job has done nothing. -/
theorem Catalog.TocInv.call {s : Catalog τ σ} (h : s.TocInv) (c : WriteCall) (now : UInt64) :
    Catalog.TocInv { s with jobs := s.jobs ++ [⟨c, .walking now []⟩] } := by
  obtain ⟨⟨summaries, listed⟩, snapshots⟩ := h
  refine ⟨⟨fun r found => ⟨?_, fun job mem done => ?_⟩, fun job mem file done => ?_⟩, fun job mem file key found => ?_⟩
  · rw [(summaries r found).count, completedOn_split]
    simp [completedOn, Stage.completed]
  · rcases mem_of_mem_called mem with rfl | mem
    · cases done
    · exact (summaries r found).covers job mem done
  · rcases mem_of_mem_called mem with rfl | mem
    · cases done
    · exact listed job mem file done
  · rcases mem_of_mem_called mem with rfl | mem
    · cases found
    · exact snapshots job mem file key found

theorem Catalog.TocInv.empty : (Catalog.empty : Catalog τ σ).TocInv where
  summaries r found := absurd found (Catalog.not_mem_empty r)
  listed _ mem := absurd mem List.not_mem_nil
  snapshots _ mem := absurd mem List.not_mem_nil

variable [OrderedStore σ SegmentMetadata SegmentMetadata.compare]

/-- **One move** keeps the table exact. -/
theorem Catalog.TocInv.step {lib : CatalogLibrary} {s s' : Catalog τ σ} {m : CatalogMove} (h : s.TocInv)
    (moved : s.step lib m = some s') : s'.TocInv := by
  rcases Catalog.step_cases moved with ⟨c, now, rfl, rfl⟩ | ⟨j, a, job, front, back, stage, store, rfl, split, -, rfl, change⟩
  · exact h.call c now
  · have here : job ∈ s.jobs := by simp [split]
    cases change with
    | quiet toc files follows =>
      refine h.keep split toc follows.completed fun file key found => ?_
      rcases follows.target with none | same
      · rw [none] at found
        cases found
      · exact h.snapshots job here file key (same ▸ found)
    | numbered _ at_end => exact h.keep split rfl (by rw [at_end]; rfl) fun file key found => by cases found
    | picked at_picking found opened =>
      refine h.keep split rfl (by rw [at_picking]; rfl) fun file key eq => ?_
      cases eq
      have id := ContentsEntry.fileId_of_compare (cmp_of_find found)
      exact ⟨id, .inr ⟨_, mem_of_find found, id⟩⟩
    | opened at_opening =>
      refine h.keep split rfl (by rw [at_opening]; rfl) fun file key eq => ?_
      cases eq
      exact ⟨rfl, .inl rfl⟩
    | allocated _ at_queued free =>
      refine h.keep split rfl (by rw [at_queued]; rfl) fun file key eq => ?_
      exact h.snapshots job here file key (by rw [at_queued]; exact eq)
    | wrote at_allocated _ outcome =>
      rcases outcome with ⟨rfl, -⟩ | rfl
      · refine h.keep split rfl (by rw [at_allocated]; rfl) fun file key eq => ?_
        exact h.snapshots job here file key (by rw [at_allocated]; exact eq)
      · exact h.keep split rfl (by rw [at_allocated]; rfl) fun file key eq => by cases eq
    | inserted at_stored =>
      refine h.keep split rfl (by rw [at_stored]; rfl) fun file key eq => ?_
      exact h.snapshots job here file key (by rw [at_stored]; exact eq)
    | updated at_created => exact h.update split at_created

/-- **No update is lost**: in every state reached from an empty catalog, by any calls and any
order of their moves, each entry accounts for exactly the jobs that made their update. -/
theorem toc_summaries_exact (lib : CatalogLibrary) (s : Catalog τ σ)
    (reach : Reach (Catalog.step lib) (fun _ _ => True) Catalog.empty s) : s.TocExact :=
  (reach.invariant Catalog.TocInv.empty fun _ _ _ h _ moved => h.step moved).toTocExact

end Invariant

/-! ## Two jobs on one new file, and the counter at its end -/

section Runs

/-- Stores kept as sorted lists. -/
abbrev ListCatalog :=
  Catalog (SortedRecords ContentsEntry ContentsEntry.compare) (SortedRecords SegmentMetadata SegmentMetadata.compare)

/-- Libraries as the catalog expects them. -/
def plainLibrary : CatalogLibrary where
  intSqrt n := (Nat.sqrt n.toNat : Int)
  sorted candidates := (candidates.insertionSort fun a b => a.2 ≥ b.2).map Prod.fst
  checksum bytes := bytes.foldl (fun sum b => sum * 31 + b.toUInt64) 0

/-- The moves of job `j` that write its segment at `offset` and update the table. -/
def writingMoves (j : Nat) (offset : UInt64) (length : Nat) : List CatalogMove :=
  [.act j (.allocate (some offset)), .act j (.store (some length)), .act j (.insert false), .act j (.update 0),
    .act j .unregister]

/-- Two callers come to the same new file. -/
def racedCalls : List CatalogMove :=
  [.call ⟨3, 1, 0, 7, 8, [1, 2]⟩ 50, .call ⟨4, 1, 0, 7, 8, [9]⟩ 50, .act 0 .walk, .act 1 .walk,
    .act 0 (.number 50), .act 1 (.number 50), .act 0 (.openNew true), .act 1 (.openNew true),
    .act 0 .register, .act 1 .register]

/-- Both tasks run. -/
def racedMoves : List CatalogMove := racedCalls ++ writingMoves 1 100 1 ++ writingMoves 0 200 2

theorem toc_summaries_exact_raced : ∃ s : ListCatalog,
    moves (Catalog.step plainLibrary) racedMoves Catalog.empty = some s ∧ s.TocExact ∧ completedOn s.jobs 50 = 2 := by
  have counted : (moves (Catalog.step plainLibrary) racedMoves (Catalog.empty : ListCatalog)).map
      (fun s => completedOn s.jobs 50) = some 2 := by decide +kernel
  obtain ⟨s, reached, two⟩ := Option.map_eq_some_iff.1 counted
  exact ⟨s, reached, toc_summaries_exact plainLibrary s (Reach.refl.moves racedMoves reached), two⟩

/-- While the clock reads 0, every call comes to file 1, which its walk does not see: `k` jobs with
empty segments are through. -/
structure Piled (s : ListCatalog) (k : Nat) : Prop where
  finished : ∀ job ∈ s.jobs, job.stage = .finished 1 0 ∧ job.call.length = 0
  many : s.jobs.length = k
  alone : ∀ r ∈ records s.store.toc, r.fileId = 1

def emptyCall : WriteCall := ⟨0, 0, 0, 0, 0, []⟩

/-- The moves of one call at clock reading 0. -/
def pilingMoves (j : Nat) : List CatalogMove :=
  [.call emptyCall 0, .act j .walk, .act j (.number 0), .act j (.openNew true), .act j .register] ++ writingMoves j 0 0

theorem Catalog.step_call {lib : CatalogLibrary} {s : ListCatalog} {c : WriteCall} {now : UInt64} :
    s.step lib (.call c now) = some { s with jobs := s.jobs ++ [⟨c, .walking now []⟩] } := by
  simp only [Catalog.step]

/-- A move of the last job. -/
theorem Catalog.step_last {lib : CatalogLibrary} {store : CatalogStore _ _} {front : List Job} {job : Job} {a : Act} :
    Catalog.step lib (⟨store, front ++ [job]⟩ : ListCatalog) (.act front.length a) =
      (job.act lib ⟨store, front ++ [job]⟩ a).map fun (stage, store) => ⟨store, front ++ [{ job with stage }]⟩ := by
  simp [Catalog.step]

theorem Piled.more {s : ListCatalog} {k : Nat} (h : Piled s k) :
    ∃ s', moves (Catalog.step plainLibrary) (pilingMoves k) s = some s' ∧ Piled s' (k + 1) := by
  obtain ⟨store, jobs⟩ := s
  obtain ⟨finished, rfl, alone⟩ := h
  dsimp only at finished alone ⊢
  have unseen : findNext store.toc (ContentsEntry.key 0) = none := by
    rw [findNext_eq, List.find?_eq_none]
    intro r here
    rw [ContentsEntry.compare_eq, alone r here]
    decide
  have one : (if (0 : UInt64) ≤ store.lastFileId then (0 : UInt64) + 1 else 0) = 1 := by
    rw [if_pos (UInt64.le_iff_toNat_le.2 (Nat.zero_le _))]
    rfl
  have unlocked : ∀ stage : Stage, stage.sharesLock = false →
      (jobs ++ [Job.mk emptyCall stage]).any (fun job => job.stage.sharesLock) = false := by
    intro stage own
    rw [List.any_append, List.any_eq_false.2 fun job here => by rw [(finished job here).1]; simp [Stage.sharesLock]]
    simpa using own
  have chosen := unlocked (.chosen 1 (ContentsEntry.fresh 1)) rfl
  have updated := unlocked (.updated 1 0) rfl
  have free : ∀ store : CatalogStore _ _,
      Catalog.free (⟨store, jobs ++ [⟨emptyCall, .queued 1 (ContentsEntry.fresh 1)⟩]⟩ : ListCatalog) 1 0 0 := by
    intro store job mem region here _
    rw [List.mem_append, List.mem_singleton] at mem
    rcases mem with mem | rfl
    · rw [(finished job mem).1] at here
      cases here
      rw [(finished job mem).2]
      exact .inl (Nat.le_refl _)
    · cases here
  have nobody : plainLibrary.sorted [] = [] := rfl
  have empty : emptyCall.length = 0 := rfl
  refine ⟨_, by
    simp only [pilingMoves, writingMoves, moves, List.cons_append, List.nil_append, Catalog.step_call, Option.bind_some,
      Catalog.step_last, Job.act, unseen, Option.map_some, nobody, one, if_true, chosen, Bool.false_eq_true, if_false, free,
      empty, updated]
    rfl, ?_⟩
  refine ⟨fun job mem => ?_, by simp, fun r here => ?_⟩
  · rw [List.mem_append, List.mem_singleton] at mem
    rcases mem with mem | rfl
    · exact finished job mem
    · exact ⟨rfl, rfl⟩
  · rcases (mem_overwrite ..).1 here with rfl | ⟨here, -⟩
    · change ((find store.toc _).getD _).fileId = 1
      cases found : find store.toc (ContentsEntry.fresh 1) with
      | none => rfl
      | some latest => exact alone latest (mem_of_find found)
    · exact alone r here

/-- A catalog with any number of jobs piled on file 1 is reached. -/
theorem Piled.reached (k : Nat) :
    ∃ s, Reach (Catalog.step plainLibrary) (fun _ _ => True) Catalog.empty s ∧ Piled s k := by
  induction k with
  | zero => exact ⟨Catalog.empty, .refl, fun job mem => absurd mem List.not_mem_nil, rfl, fun r here => absurd here List.not_mem_nil⟩
  | succ k ih =>
    obtain ⟨s, reach, piled⟩ := ih
    obtain ⟨s', moved, more⟩ := piled.more
    exact ⟨s', reach.moves _ moved, more⟩

/-- After 2^32 jobs on one file its `uint32_t` segment count is 0 again. -/
theorem toc_count_wraps : ∃ s : ListCatalog, Reach (Catalog.step plainLibrary) (fun _ _ => True) Catalog.empty s ∧
    ∃ r ∈ records s.store.toc, r.segmentCount = 0 ∧ completedOn s.jobs r.fileId = 2 ^ 32 := by
  obtain ⟨s, reach, piled⟩ := Piled.reached (2 ^ 32)
  have inv : s.TocInv := reach.invariant Catalog.TocInv.empty fun _ _ _ h _ moved => h.step moved
  have all : completedOn s.jobs 1 = 2 ^ 32 := by
    rw [completedOn, ← piled.many]
    refine List.countP_eq_length.2 fun job here => ?_
    rw [(piled.finished job here).1]
    rfl
  obtain ⟨job, here⟩ : ∃ job, job ∈ s.jobs := List.exists_mem_of_length_pos (by rw [piled.many]; exact Nat.two_pow_pos 32)
  obtain ⟨r, found, id⟩ := inv.listed job here 1 (by rw [(piled.finished job here).1]; rfl)
  refine ⟨s, reach, r, found, ?_, by rw [id, all]⟩
  rw [(inv.summaries r found).count, id, all]
  rfl

end Runs

end MagelessChain
