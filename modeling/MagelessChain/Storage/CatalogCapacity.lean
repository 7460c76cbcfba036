import MagelessChain.Storage.CatalogSizes
import Mathlib.Data.List.Pairwise

/-!
# The capacity of catalog files

`selectFileFor` tests the size of a file during its walk, by the total in the table of contents, and
asks later, under the lock, whether the file is being written. A task that comes to its end between
the two leaves a file that is no longer being written and longer than the walk knew. The totals of the
table are the lengths of the files that no job is writing, as long as no write has failed.
-/

namespace MagelessChain

open Lib OrderedStore

section Capacity

variable {τ σ : Type} [OrderedStore τ ContentsEntry ContentsEntry.compare]
  [OrderedStore σ SegmentMetadata SegmentMetadata.compare]

/-! ## Totals -/

/-- Two jobs under way have different files, and at most one of them is in its caller. -/
def Job.Alone (a b : Job) : Prop :=
  ¬ (a.stage.calling = true ∧ b.stage.calling = true) ∧ ∀ file, a.stage.holds = some file → b.stage.holds ≠ some file

instance : Std.Symm Job.Alone where
  symm _ _ h := ⟨fun both => h.1 both.symm, fun file here there => h.2 file there here⟩

namespace SizedCatalog

/-- A file has room for the segment of a call, by its entry, or has no segment. -/
def Room (s : SizedCatalog τ σ) (file : UInt64) (c : WriteCall) : Prop :=
  (∃ r ∈ records s.catalog.store.toc, r.fileId = file ∧ r.totalBytes.toNat + c.content.length ≤ catalogFileMaxBytes.toNat) ∨
    ∀ f, s.catalog.store.files file = some f → records f.segmentIndex = []

/-- What holds of the file of a job. -/
structure Ready (s : SizedCatalog τ σ) (job : Job) : Prop where
  fresh : ∀ file, job.stage.opens = some file → s.catalog.store.files file = none
  there : ∀ file, job.stage.holds = some file → job.stage.opens = none → (s.catalog.store.files file).isSome
  marked : ∀ file, job.stage.registered = some file → s.catalog.store.filesBeingWritten file = true
  room : ∀ file, job.stage.waiting = some file → s.Room file job.call

/-- A file, its registration and its entries are as they were. -/
structure Same (s s' : SizedCatalog τ σ) (file : UInt64) : Prop where
  files : s'.catalog.store.files file = s.catalog.store.files file
  written : s'.catalog.store.filesBeingWritten file = s.catalog.store.filesBeingWritten file
  entries : ∀ r ∈ records s.catalog.store.toc, r.fileId = file → r ∈ records s'.catalog.store.toc

theorem Ready.elsewhere {s s' : SizedCatalog τ σ} {job : Job} (h : s.Ready job)
    (same : ∀ file, job.stage.holds = some file → s.Same s' file) : s'.Ready job where
  fresh file opens := (same file (Stage.holds_of_opens opens)).files.trans (h.fresh file opens)
  there file holds old := by
    rw [(same file holds).files]
    exact h.there file holds old
  marked file registered := (same file (Stage.holds_of_registered registered)).written.trans (h.marked file registered)
  room file waiting := by
    have same := same file (Stage.holds_of_waiting waiting)
    obtain ⟨r, listed, id, fits⟩ | nothing := h.room file waiting
    · exact .inl ⟨r, same.entries r listed id, id, fits⟩
    · exact .inr fun f found => nothing f (same.files ▸ found)

/-- **The totals are the lengths**: what one caller and its tasks keep. -/
structure Inv (s : SizedCatalog τ σ) : Prop where
  toc : s.catalog.TocInv
  alone : s.catalog.jobs.Pairwise Job.Alone
  ready : ∀ job ∈ s.catalog.jobs, s.Ready job
  existing : ∀ r ∈ records s.catalog.store.toc, (s.catalog.store.files r.fileId).isSome
  totals : ∀ r ∈ records s.catalog.store.toc, (∀ job ∈ s.catalog.jobs, job.stage.growing ≠ some r.fileId) →
    s.sizes r.fileId ≤ r.totalBytes.toNat
  small : ∀ file, s.sizes file < 2 ^ 63

/-- A turn of one job, which touches no file but its own. -/
theorem Inv.moved {s : SizedCatalog τ σ} (h : s.Inv) {front back : List Job} {job : Job}
    (split : s.catalog.jobs = front ++ job :: back) {stage : Stage} {store : CatalogStore τ σ} {sizes : UInt64 → Nat}
    (toc : Catalog.TocInv ⟨store, front ++ ⟨job.call, stage⟩ :: back⟩)
    (same : ∀ file, job.stage.holds ≠ some file → s.Same ⟨⟨store, front ++ ⟨job.call, stage⟩ :: back⟩, sizes⟩ file)
    (calling : stage.calling = true → job.stage.calling = true)
    (holds : ∀ file, stage.holds = some file →
      job.stage.holds = some file ∨ ∀ other ∈ front ++ back, job.Alone other → other.stage.holds ≠ some file)
    (own : Ready ⟨⟨store, front ++ ⟨job.call, stage⟩ :: back⟩, sizes⟩ ⟨job.call, stage⟩)
    (entries : ∀ r ∈ records store.toc, (store.files r.fileId).isSome ∧ (stage.growing = some r.fileId ∨
      sizes r.fileId ≤ r.totalBytes.toNat ∨
      (r ∈ records s.catalog.store.toc ∧ sizes r.fileId = s.sizes r.fileId ∧ job.stage.growing ≠ some r.fileId)))
    (small : ∀ file, sizes file < 2 ^ 63) :
    Inv ⟨⟨store, front ++ ⟨job.call, stage⟩ :: back⟩, sizes⟩ where
  toc := toc
  alone := by
    refine pairwise_moved split h.alone fun other mem alone => ?_
    refine ⟨fun both => alone.1 ⟨calling both.1, both.2⟩, fun file here => ?_⟩
    obtain old | new := holds file here
    · exact alone.2 file old
    · exact new other mem alone
  ready other mem := by
    obtain rfl | among := eq_or_mem_around mem
    · exact own
    · have alone := pairwise_around split h.alone among
      exact (h.ready other (mem_of_mem_around split among)).elsewhere fun file there => same file fun here => alone.2 file here there
  existing r listed := (entries r listed).1
  totals r listed idle := by
    obtain growing | le | ⟨before, eq, unmoved⟩ := (entries r listed).2
    · exact absurd growing (idle ⟨job.call, stage⟩ (by simp))
    · exact le
    · refine eq.trans_le (h.totals r before fun other mem growing => ?_)
      obtain rfl | among := eq_or_mem_around (split ▸ mem)
      · exact unmoved growing
      · exact idle other (mem_of_mem_around rfl among) growing
  small := small

/-- A job that holds no file. -/
theorem Ready.of_idle {s : SizedCatalog τ σ} {job : Job} (idle : job.stage.holds = none) : s.Ready job where
  fresh file opens := by cases idle.symm.trans (Stage.holds_of_opens opens)
  there file holds _ := by cases idle.symm.trans holds
  marked file registered := by cases idle.symm.trans (Stage.holds_of_registered registered)
  room file waiting := by cases idle.symm.trans (Stage.holds_of_waiting waiting)

end SizedCatalog

/-- What a turn finds where the totals can be trusted: a picked file still has room by its entry, a
new id is no file's, and a task that threw leaves a listed file no longer than its entry says. -/
def Job.Careful (s : SizedCatalog τ σ) (job : Job) : Act → Prop
  | .pick opened => opened = true → ∀ file ∈ job.stage.tries, ∀ key ∈ find s.catalog.store.toc (ContentsEntry.key file),
    (s.catalog.store.files file).isSome → s.catalog.store.filesBeingWritten file = false →
    key.totalBytes.toNat + job.call.content.length ≤ catalogFileMaxBytes.toNat
  | .number now => s.catalog.store.files (newFileId s.catalog.store.lastFileId now) = none
  | .unregister => ∀ file ∈ job.stage.threw, ∀ r ∈ records s.catalog.store.toc, r.fileId = file →
    s.sizes file ≤ r.totalBytes.toNat
  | _ => True

-- the quantifiers over file ids are over at most one, not over all ids there are
instance (s : SizedCatalog τ σ) (job : Job) : (a : Act) → Decidable (job.Careful s a)
  | .pick opened => @instDecidableForall _ _ (instDecidableEqBool opened true) (@Option.decidableForallMem _ _ _ job.stage.tries)
  | .number now => inferInstanceAs (Decidable (s.catalog.store.files (newFileId s.catalog.store.lastFileId now) = none))
  | .unregister => @Option.decidableForallMem _ _ _ job.stage.threw
  | .walk | .openNew _ | .register | .allocate _ | .store _ | .insert _ | .update _ => .isTrue trivial

namespace SizedCatalog

def Careful (s : SizedCatalog τ σ) : CatalogMove × Nat → Prop
  | (.act j a, _) => ∀ job ∈ s.catalog.jobs[j]?, job.Careful s a
  | (.call _ _, _) => True

instance (s : SizedCatalog τ σ) : (m : CatalogMove × Nat) → Decidable (s.Careful m)
  | (.act j a, _) => inferInstanceAs (Decidable (∀ job ∈ s.catalog.jobs[j]?, job.Careful s a))
  | (.call _ _, _) => .isTrue trivial

theorem Inv.call {s : SizedCatalog τ σ} (h : s.Inv) (c : WriteCall) (now : UInt64)
    (returned : ∀ job ∈ s.catalog.jobs, job.stage.calling = false) :
    Inv { s with catalog := ⟨s.catalog.store, s.catalog.jobs ++ [⟨c, .walking now []⟩]⟩ } where
  toc := h.toc.call c now
  alone := by
    refine List.pairwise_append.2 ⟨h.alone, List.pairwise_singleton _ _, fun job mem new last => ?_⟩
    obtain rfl := List.mem_singleton.1 last
    refine ⟨fun both => ?_, fun file _ there => by cases there⟩
    rw [returned job mem] at both
    cases both.1
  ready job mem := by
    obtain rfl | mem := mem_of_mem_called mem
    · exact Ready.of_idle rfl
    · exact (h.ready job mem).elsewhere fun file _ => ⟨rfl, rfl, fun r listed _ => listed⟩
  existing := h.existing
  totals r listed idle := h.totals r listed fun job mem => idle job (List.mem_append_left _ mem)
  small := h.small

section Turns

variable {s : SizedCatalog τ σ} {front back : List Job} {job : Job} {file : UInt64}

theorem Inv.searched (h : s.Inv) (split : s.catalog.jobs = front ++ job :: back) {stage : Stage} {store : CatalogStore τ σ}
    (toc : Catalog.TocInv ⟨store, front ++ ⟨job.call, stage⟩ :: back⟩) (calling : job.stage.calling = true)
    (idle : stage.holds = none) (table : store.toc = s.catalog.store.toc) (files : store.files = s.catalog.store.files)
    (written : store.filesBeingWritten = s.catalog.store.filesBeingWritten) :
    Inv ⟨⟨store, front ++ ⟨job.call, stage⟩ :: back⟩, s.sizes⟩ := by
  refine h.moved split toc (fun file _ => ⟨congrFun files file, congrFun written file, fun r listed _ => table ▸ listed⟩)
    (fun _ => calling) (fun file holds => by cases idle.symm.trans holds) (Ready.of_idle idle) (fun r listed => ?_) h.small
  rw [table] at listed
  rw [files]
  exact ⟨h.existing r listed, .inr (.inr ⟨listed, rfl, by rw [Stage.growing_of_calling calling]; exact nofun⟩)⟩

/-- A job that takes a file nobody has. -/
theorem Inv.taken (h : s.Inv) (split : s.catalog.jobs = front ++ job :: back) {stage : Stage}
    (toc : Catalog.TocInv ⟨s.catalog.store, front ++ ⟨job.call, stage⟩ :: back⟩) (calling : job.stage.calling = true)
    (holds : stage.holds = some file) (nobody : ∀ other ∈ front ++ back, job.Alone other → other.stage.holds ≠ some file)
    (own : Ready ⟨⟨s.catalog.store, front ++ ⟨job.call, stage⟩ :: back⟩, s.sizes⟩ ⟨job.call, stage⟩) :
    Inv ⟨⟨s.catalog.store, front ++ ⟨job.call, stage⟩ :: back⟩, s.sizes⟩ := by
  refine h.moved split toc (fun _ _ => ⟨rfl, rfl, fun r listed _ => listed⟩) (fun _ => calling) (fun f here => .inr ?_) own
    (fun r listed => ⟨h.existing r listed, .inr (.inr ⟨listed, rfl, ?_⟩)⟩) h.small
  · cases holds.symm.trans here
    exact nobody
  · rw [Stage.growing_of_calling calling]
    exact nofun

theorem Inv.picked (h : s.Inv) (split : s.catalog.jobs = front ++ job :: back) {rest : List UInt64} {key : ContentsEntry}
    (toc : Catalog.TocInv ⟨s.catalog.store, front ++ ⟨job.call, .chosen file key⟩ :: back⟩)
    (at_picking : job.stage = .picking (file :: rest))
    (found : find s.catalog.store.toc (ContentsEntry.key file) = some key) (there : (s.catalog.store.files file).isSome)
    (free : s.catalog.store.filesBeingWritten file = false)
    (fits : key.totalBytes.toNat + job.call.content.length ≤ catalogFileMaxBytes.toNat) :
    Inv ⟨⟨s.catalog.store, front ++ ⟨job.call, .chosen file key⟩ :: back⟩, s.sizes⟩ := by
  have calling : job.stage.calling = true := by rw [at_picking]; rfl
  refine h.taken split toc calling rfl (fun other mem alone holds => ?_) ⟨nofun, fun f holds _ => ?_, nofun, fun f waiting => .inl ?_⟩
  · -- who has the file has registered it, or is in its caller, where this job is
    refine alone.1 ⟨calling, Stage.calling_of_holds holds fun registered => ?_⟩
    have marked := (h.ready other (mem_of_mem_around split mem)).marked _ registered
    rw [free] at marked
    cases marked
  · cases holds
    exact there
  · cases waiting
    exact ⟨key, mem_of_find found, ContentsEntry.fileId_of_compare (cmp_of_find found), fits⟩

theorem Inv.numbered (h : s.Inv) (split : s.catalog.jobs = front ++ job :: back)
    (toc : Catalog.TocInv ⟨s.catalog.store, front ++ ⟨job.call, .opening file⟩ :: back⟩) (at_end : job.stage = .picking [])
    (missing : s.catalog.store.files file = none) :
    Inv ⟨⟨s.catalog.store, front ++ ⟨job.call, .opening file⟩ :: back⟩, s.sizes⟩ := by
  have calling : job.stage.calling = true := by rw [at_end]; rfl
  refine h.taken split toc calling rfl (fun other mem alone holds => ?_) ⟨fun f opens => ?_, nofun, nofun, nofun⟩
  · -- the files of the others are there
    have idle : other.stage.opens = none := by
      refine Option.eq_none_iff_forall_ne_some.2 fun f opens => ?_
      exact alone.1 ⟨calling, Stage.calling_of_opens opens⟩
    have there := (h.ready other (mem_of_mem_around split mem)).there _ holds idle
    rw [missing] at there
    cases there
  · cases opens
    exact missing

theorem Inv.opened (h : s.Inv) (split : s.catalog.jobs = front ++ job :: back) {size : Nat}
    (toc : Catalog.TocInv ⟨{ s.catalog.store with
        lastFileId := file
        files := Function.update s.catalog.store.files file
          (some ((s.catalog.store.files file).getD ⟨Image.zero, OrderedStore.empty⟩)) },
      front ++ ⟨job.call, .chosen file (ContentsEntry.fresh file)⟩ :: back⟩)
    (at_opening : job.stage = .opening file) (below : size < 2 ^ 63) :
    Inv ⟨⟨{ s.catalog.store with
        lastFileId := file
        files := Function.update s.catalog.store.files file
          (some ((s.catalog.store.files file).getD ⟨Image.zero, OrderedStore.empty⟩)) },
      front ++ ⟨job.call, .chosen file (ContentsEntry.fresh file)⟩ :: back⟩, Function.update s.sizes file size⟩ := by
  have holds : job.stage.holds = some file := by rw [at_opening]; rfl
  have missing := (h.ready job (by simp [split])).fresh file (by rw [at_opening]; rfl)
  refine h.moved split toc
    (fun f other => ⟨Function.update_of_ne (Stage.ne_of_holds holds other) .., rfl, fun r listed _ => listed⟩)
    (fun _ => by rw [at_opening]; rfl) (fun f own => .inl (holds.trans own)) ?_ (fun r listed => ?_) fun f => ?_
  · refine ⟨nofun, fun f own _ => ?_, nofun, fun f own => .inr fun found there => ?_⟩
    · cases own
      simp
    · -- the file is new, and has no segment
      cases own
      obtain before | ⟨-, rfl⟩ := s.catalog.store.opened_cases there
      · cases missing.symm.trans before
      · exact records_empty
  · have existing := h.existing r listed
    have ne : r.fileId ≠ file := by
      intro eq
      rw [eq, missing] at existing
      cases existing
    refine ⟨?_, .inr (.inr ⟨listed, Function.update_of_ne ne .., by rw [at_opening]; exact nofun⟩)⟩
    exact (congrArg Option.isSome (Function.update_of_ne ne ..)).trans existing
  · rw [Function.update_apply]
    split
    · exact below
    · exact h.small f

theorem Inv.registered (h : s.Inv) (split : s.catalog.jobs = front ++ job :: back) {key : ContentsEntry}
    (toc : Catalog.TocInv ⟨{ s.catalog.store with
        filesBeingWritten := Function.update s.catalog.store.filesBeingWritten file true },
      front ++ ⟨job.call, .queued file key⟩ :: back⟩) (at_chosen : job.stage = .chosen file key) :
    Inv ⟨⟨{ s.catalog.store with filesBeingWritten := Function.update s.catalog.store.filesBeingWritten file true },
      front ++ ⟨job.call, .queued file key⟩ :: back⟩, s.sizes⟩ := by
  have holds : job.stage.holds = some file := by rw [at_chosen]; rfl
  have ready := h.ready job (by simp [split])
  refine h.moved split toc
    (fun f other => ⟨rfl, Function.update_of_ne (Stage.ne_of_holds holds other) .., fun r listed _ => listed⟩)
    nofun (fun f own => .inl (holds.trans own)) ?_
    (fun r listed => ⟨h.existing r listed, .inr (.inr ⟨listed, rfl, by rw [at_chosen]; exact nofun⟩)⟩) h.small
  refine ⟨nofun, fun f own _ => ?_, fun f own => ?_, fun f own => ?_⟩
  · cases own
    exact ready.there file holds (by rw [at_chosen]; rfl)
  · cases own
    exact Function.update_self ..
  · cases own
    exact ready.room file (by rw [at_chosen]; rfl)

theorem Inv.wrote (h : s.Inv) (split : s.catalog.jobs = front ++ job :: back) {stage : Stage} {store : CatalogStore τ σ} {size : Nat}
    (toc : Catalog.TocInv ⟨store, front ++ ⟨job.call, stage⟩ :: back⟩) (at_task : job.stage.registered = some file)
    (growing : stage.growing = some file) (table : store.toc = s.catalog.store.toc)
    (written : store.filesBeingWritten = s.catalog.store.filesBeingWritten)
    (files : ∀ other, other ≠ file → store.files other = s.catalog.store.files other)
    (own : (store.files file).isSome = (s.catalog.store.files file).isSome) (below : size < 2 ^ 63) :
    Inv ⟨⟨store, front ++ ⟨job.call, stage⟩ :: back⟩, Function.update s.sizes file size⟩ := by
  have holds := Stage.holds_of_registered at_task
  have registered := Stage.registered_of_growing growing
  have now_holds := Stage.holds_of_registered registered
  obtain ⟨opens, -⟩ := Stage.outside_of_registered at_task
  obtain ⟨opens', returned⟩ := Stage.outside_of_registered registered
  have ready := h.ready job (by simp [split])
  have there : (store.files file).isSome := own.trans (ready.there file holds opens)
  refine h.moved split toc
    (fun f other => ⟨files f (Stage.ne_of_holds holds other), congrFun written f, fun r listed _ => table ▸ listed⟩)
    (fun calling => by cases returned.symm.trans calling) (fun f here => .inl (holds.trans (now_holds.symm.trans here))) ?_
    (fun r listed => ?_) fun f => ?_
  · refine ⟨fun f opening => ?_, fun f here _ => ?_, fun f here => ?_, fun f waiting => ?_⟩
    · cases opens'.symm.trans opening
    · cases now_holds.symm.trans here
      exact there
    · cases registered.symm.trans here
      exact (congrFun written file).trans (ready.marked file at_task)
    · cases (Stage.begun_of_growing growing).symm.trans waiting
  · rw [table] at listed
    by_cases eq : r.fileId = file
    · rw [eq]
      exact ⟨there, .inl growing⟩
    · rw [files _ eq]
      refine ⟨h.existing r listed, .inr (.inr ⟨listed, Function.update_of_ne eq .., fun grows => eq ?_⟩)⟩
      exact Option.some.inj ((Stage.registered_of_growing grows).symm.trans at_task)
  · rw [Function.update_apply]
    split
    · exact below
    · exact h.small f

theorem Inv.updated (h : s.Inv) (split : s.catalog.jobs = front ++ job :: back) {offset : UInt64} {key : ContentsEntry}
    (toc : Catalog.TocInv ⟨{ s.catalog.store with
        toc := overwrite s.catalog.store.toc
          (((find s.catalog.store.toc key).getD key).absorb job.call (UInt64.ofNat (s.sizes file))) },
      front ++ ⟨job.call, .updated file offset⟩ :: back⟩) (at_created : job.stage = .created file key offset) :
    Inv ⟨⟨{ s.catalog.store with
        toc := overwrite s.catalog.store.toc
          (((find s.catalog.store.toc key).getD key).absorb job.call (UInt64.ofNat (s.sizes file))) },
      front ++ ⟨job.call, .updated file offset⟩ :: back⟩, s.sizes⟩ := by
  have here : job ∈ s.catalog.jobs := by simp [split]
  have holds : job.stage.holds = some file := by rw [at_created]; rfl
  have ready := h.ready job here
  have there := ready.there file holds (by rw [at_created]; rfl)
  have target : job.stage.target = some (file, key) := by rw [at_created]; rfl
  obtain ⟨id, -⟩ := h.toc.latest here target
  generalize (find s.catalog.store.toc key).getD key = latest at id toc ⊢
  -- an entry of another file stays
  have others : ∀ r, r.fileId ≠ file ↔
      ContentsEntry.compare r (latest.absorb job.call (UInt64.ofNat (s.sizes file))) ≠ .eq := fun r =>
    not_congr ⟨fun eq => ContentsEntry.compare_of_fileId (eq.trans id.symm), fun eq => (ContentsEntry.fileId_of_compare eq).trans id⟩
  refine h.moved split toc (fun f other => ⟨rfl, rfl, fun r listed eq => ?_⟩) nofun (fun f own => .inl (holds.trans own)) ?_
    (fun r listed => ?_) h.small
  · exact (mem_overwrite ..).2 (.inr ⟨listed, (others r).1 (eq ▸ Stage.ne_of_holds holds other)⟩)
  · refine ⟨nofun, fun f own _ => ?_, fun f own => ?_, nofun⟩
    · cases own
      exact there
    · cases own
      exact ready.marked file (by rw [at_created]; rfl)
  · obtain rfl | ⟨listed, differs⟩ := (mem_overwrite ..).1 listed
    · have length : (UInt64.ofNat (s.sizes file)).toNat = s.sizes file := by
        rw [UInt64.toNat_ofNat', Nat.mod_eq_of_lt]
        have small := h.small file
        omega
      change (s.catalog.store.files latest.fileId).isSome ∧
        (_ ∨ s.sizes latest.fileId ≤ (UInt64.ofNat (s.sizes file)).toNat ∨ _)
      rw [id, length]
      exact ⟨there, .inr (.inl (Nat.le_refl _))⟩
    · refine ⟨h.existing r listed, .inr (.inr ⟨listed, rfl, fun grows => (others r).2 differs ?_⟩)⟩
      rw [at_created] at grows
      exact (Option.some.inj grows).symm

theorem Inv.unregistered (h : s.Inv) (split : s.catalog.jobs = front ++ job :: back) {stage : Stage}
    (toc : Catalog.TocInv ⟨{ s.catalog.store with
        filesBeingWritten := Function.update s.catalog.store.filesBeingWritten file false },
      front ++ ⟨job.call, stage⟩ :: back⟩)
    (before : (∃ offset, job.stage = .updated file offset) ∨ job.stage = .failing file) (idle : stage.holds = none)
    (returned : stage.calling = false)
    (kept : ∀ f ∈ job.stage.threw, ∀ r ∈ records s.catalog.store.toc, r.fileId = f → s.sizes f ≤ r.totalBytes.toNat) :
    Inv ⟨⟨{ s.catalog.store with filesBeingWritten := Function.update s.catalog.store.filesBeingWritten file false },
      front ++ ⟨job.call, stage⟩ :: back⟩, s.sizes⟩ := by
  have holds : job.stage.holds = some file := by
    obtain ⟨offset, at_updated⟩ | at_failing := before
    · rw [at_updated]
      rfl
    · rw [at_failing]
      rfl
  refine h.moved split toc
    (fun f other => ⟨rfl, Function.update_of_ne (Stage.ne_of_holds holds other) .., fun r listed _ => listed⟩)
    (fun calling => by cases returned.symm.trans calling) (fun f own => by cases idle.symm.trans own) (Ready.of_idle idle)
    (fun r listed => ⟨h.existing r listed, .inr ?_⟩) h.small
  obtain ⟨offset, at_updated⟩ | at_failing := before
  · exact .inr ⟨listed, rfl, by rw [at_updated]; exact nofun⟩
  · by_cases same : r.fileId = file
    · left
      rw [same]
      exact kept file (by rw [at_failing]; rfl) r listed same
    · refine .inr ⟨listed, rfl, fun grows => same ?_⟩
      rw [at_failing] at grows
      exact (Option.some.inj grows).symm

end Turns

theorem Inv.step {lib : CatalogLibrary} {s s' : SizedCatalog τ σ} {m : CatalogMove × Nat} (h : s.Inv) (careful : s.Careful m)
    (moved : s.step lib m = some s') : s'.Inv := by
  obtain ⟨m, size⟩ := m
  obtain ⟨stepped, turned⟩ := SizedCatalog.step_cases moved
  have toc := h.toc.step stepped
  obtain ⟨c, now, rfl, returned, rfl⟩ | ⟨j, a, job, front, back, stage, store, sizes, rfl, at_j, split, rfl, turn⟩ := turned
  · exact h.call c now returned
  · have careful := careful job at_j
    cases turn with
    | searched calling idle table files written => exact h.searched split toc calling idle table files written
    | picked opened at_picking found there free =>
      subst opened
      exact h.picked split toc at_picking found there free (careful rfl _ (by rw [at_picking]; rfl) _ found there free)
    | numbered eq at_end =>
      subst eq
      exact h.numbered split toc at_end careful
    | opened at_opening _ below => exact h.opened split toc at_opening below
    | registered at_chosen => exact h.registered split toc at_chosen
    | wrote at_task growing table written files own _ below =>
      exact h.wrote split toc at_task growing table written files own below
    | updated at_created => exact h.updated split toc at_created
    | unregistered eq before idle returned =>
      subst eq
      exact h.unregistered split toc before idle returned careful

theorem Inv.empty : (empty : SizedCatalog τ σ).Inv where
  toc := Catalog.TocInv.empty
  alone := .nil
  ready _ mem := absurd mem List.not_mem_nil
  existing r listed := absurd listed (Catalog.not_mem_empty r)
  totals r listed := absurd listed (Catalog.not_mem_empty r)
  small _ := Nat.two_pow_pos 63

/-- Where the task of a job may begin its `createEntry` on a file that has segments, the segment fits. -/
def Within (s : SizedCatalog τ σ) : Prop :=
  ∀ job ∈ s.catalog.jobs, ∀ file key f, job.stage = .queued file key → s.catalog.store.files file = some f →
    records f.segmentIndex ≠ [] → s.sizes file + job.call.content.length ≤ catalogFileMaxBytes.toNat

theorem Inv.within {s : SizedCatalog τ σ} (h : s.Inv) : s.Within := by
  intro job mem file key f at_queued found stored
  have ready := h.ready job mem
  obtain ⟨r, listed, rfl, fits⟩ | nothing := ready.room file (by rw [at_queued]; rfl)
  · -- the file is the job's own, and the job has not begun: its length is the total
    have holds : job.stage.holds = some r.fileId := by rw [at_queued]; rfl
    have total := h.totals r listed fun other among grows => by
      obtain rfl | ne := eq_or_ne other job
      · rw [at_queued] at grows
        cases grows
      · exact (h.alone.forall among mem ne).2 _
          (Stage.holds_of_registered (Stage.registered_of_growing grows)) holds
    omega
  · exact absurd (nothing f found) stored

/-- **The ceiling**: with one caller, in every order of its tasks, a segment is put in a file that has
segments only where it fits, as long as each turn finds what the totals promise. -/
theorem createEntry_within {lib : CatalogLibrary} {s : SizedCatalog τ σ}
    (run : Reach (SizedCatalog.step lib) SizedCatalog.Careful SizedCatalog.empty s) : s.Within :=
  (run.invariant Inv.empty fun _ _ _ h careful moved => h.step careful moved).within

end SizedCatalog

end Capacity

/-! ## A write that ends between the walk and the choice -/

section Runs

/-- Sized catalogs kept as sorted lists. -/
abbrev ListSized :=
  SizedCatalog (SortedRecords ContentsEntry ContentsEntry.compare) (SortedRecords SegmentMetadata SegmentMetadata.compare)

/-- A call for block 7 of index 3. -/
def smallCall : WriteCall := ⟨3, 1, 0, 7, 8, [1, 2]⟩

/-- The moves of a first call up to its submission, and of its task: file 50 has a segment. -/
def firstMoves : List (CatalogMove × Nat) :=
  [(.call smallCall 50, 0), (.act 0 .walk, 0), (.act 0 (.number 50), 0), (.act 0 (.openNew true), 8192),
    (.act 0 .register, 0), (.act 0 (.allocate (some 8192)), 8192), (.act 0 (.store (some 2)), 8194),
    (.act 0 (.insert false), 8194), (.act 0 (.update 8194), 0), (.act 0 .unregister, 0)]

/-- The moves of job `j` that choose file 50. -/
def choosingMoves (j : Nat) : List (CatalogMove × Nat) := [(.act j .walk, 0), (.act j (.pick true), 0), (.act j .register, 0)]

/-- A second segment for a file with room. -/
theorem createEntry_within_second : ∃ s : ListSized, Reach (SizedCatalog.step plainLibrary) SizedCatalog.Careful SizedCatalog.empty s ∧
    s.catalog.jobs.map (fun job => job.stage.waiting) = [none, some 50] ∧ s.sizes 50 = 8194 ∧ s.Within := by
  have reached : (moves (fun s m => if s.Careful m then SizedCatalog.step plainLibrary s m else none)
      (firstMoves ++ (.call smallCall 60, 0) :: (.act 1 .walk, 0) :: choosingMoves 1) (SizedCatalog.empty : ListSized)).map
      (fun s => (s.catalog.jobs.map (fun job => job.stage.waiting), s.sizes 50)) = some ([none, some 50], 8194) := by
    decide +kernel
  obtain ⟨s, reached, eq⟩ := Option.map_eq_some_iff.1 reached
  obtain ⟨waiting, size⟩ := Prod.mk.inj eq
  have run := Reach.guarded _ .refl reached
  exact ⟨s, run, waiting, size, SizedCatalog.createEntry_within run⟩

/-- What a walk and a lookup find in a table of one entry. -/
theorem findNext_alone {τ : Type} [OrderedStore τ ContentsEntry ContentsEntry.compare] {toc : τ} {r : ContentsEntry}
    (alone : records toc = [r]) (cursor : UInt64) :
    findNext toc (ContentsEntry.key cursor) = if r.fileId ≤ cursor then some r else none := by
  have below : (ContentsEntry.compare (ContentsEntry.key cursor) r).isLE ↔ r.fileId ≤ cursor := by
    rw [ContentsEntry.compare_eq]
    exact Std.isLE_compare
  rw [findNext_eq, alone, List.find?_singleton]
  simp only [below]

theorem find_alone {τ : Type} [OrderedStore τ ContentsEntry ContentsEntry.compare] {toc : τ} {r key : ContentsEntry}
    (alone : records toc = [r]) (same : r.fileId = key.fileId) : find toc key = some r := by
  rw [find_eq, alone]
  exact List.find?_cons_of_pos (beq_iff_eq.2 (ContentsEntry.compare_of_fileId same))

/-- An update of the only entry. -/
theorem overwrite_alone {toc : SortedRecords ContentsEntry ContentsEntry.compare} {r key : ContentsEntry}
    (alone : records toc = [r]) (same : r.fileId = key.fileId) : records (overwrite toc key) = [key] := by
  have eq : ContentsEntry.compare r key = .eq := ContentsEntry.compare_of_fileId same
  have eq' : ContentsEntry.compare key r = .eq := ContentsEntry.compare_of_fileId same.symm
  have list : toc.list = [r] := alone
  change (toc.overwrite key).list = [key]
  simp [SortedRecords.overwrite, list, eq, eq']

/-- A segment of 1500 MiB. -/
def bigCall (indexId : UInt16) (content : Bytes) : WriteCall := ⟨indexId, 1, 0, 8, 9, content⟩

/-- A second call chooses file 50, and a third one reads its total in the walk. -/
def walkingMoves (content : Bytes) : List (CatalogMove × Nat) :=
  [(.call (bigCall 4 content) 60, 0), (.act 1 .walk, 0)] ++ choosingMoves 1 ++
    [(.call (bigCall 5 content) 60, 0), (.act 2 .walk, 0)]

/-- The task of the second call. -/
def bigTask : List (CatalogMove × Nat) :=
  [(.act 1 (.allocate (some 12288)), 12288), (.act 1 (.store (some 1572864000)), 1572876288),
    (.act 1 (.insert false), 1572876288), (.act 1 (.update 1572876288), 0), (.act 1 .unregister, 0)]

/-- The first job is through, and the second and the third stand at these stages. -/
def threeJobs (content : Bytes)
    (store : CatalogStore (SortedRecords ContentsEntry ContentsEntry.compare) (SortedRecords SegmentMetadata SegmentMetadata.compare))
    (sizes : UInt64 → Nat) (second third : Stage) : ListSized :=
  ⟨⟨store, [⟨smallCall, .finished 50 8192⟩, ⟨bigCall 4 content, second⟩, ⟨bigCall 5 content, third⟩]⟩, sizes⟩

theorem bigCall_length {content : Bytes} (big : content.length = 1572864000) (indexId : UInt16) :
    (bigCall indexId content).length = 1572864000 := by
  unfold WriteCall.length bigCall
  rw [big]
  decide

theorem sorted_alone (n : Int) : plainLibrary.sorted [(50, n)] = [50] := by
  simp [plainLibrary]

section Race

variable {content : Bytes} {toc : SortedRecords ContentsEntry ContentsEntry.compare}
  {files : UInt64 → Option (CatalogFile (SortedRecords SegmentMetadata SegmentMetadata.compare))} {r : ContentsEntry}
  {f : CatalogFile (SortedRecords SegmentMetadata SegmentMetadata.compare)} {written : UInt64 → Bool} {sizes : UInt64 → Nat}

/-- Both calls find room by the total of the first segment. -/
theorem walkingMoves_reach (big : content.length = 1572864000) (alone : records toc = [r]) (id : r.fileId = 50)
    (total : r.totalBytes = 8194) (file : files 50 = some f) (free : written 50 = false) (last : UInt64)
    (sizes : UInt64 → Nat) : ∃ n, moves (SizedCatalog.step plainLibrary) (walkingMoves content)
        ⟨⟨⟨toc, files, last, written⟩, [⟨smallCall, .finished 50 8192⟩]⟩, sizes⟩ =
      some (threeJobs content ⟨toc, files, last, Function.update written 50 true⟩ sizes (.queued 50 r) (.walking 49 [(50, n)])) := by
  have seen : findNext toc (ContentsEntry.key 60) = some r := by
    rw [findNext_alone alone, id]
    rfl
  have unseen : findNext toc (ContentsEntry.key 49) = none := by
    rw [findNext_alone alone, id]
    rfl
  have listed : find toc (ContentsEntry.key 50) = some r := find_alone alone id
  have fits : (8194 : UInt64) + UInt64.ofNat 1572864000 ≤ catalogFileMaxBytes := by decide
  have down : (50 : UInt64) - 1 = 49 := rfl
  have there : (files 50).isSome := by
    rw [file]
    rfl
  refine ⟨score plainLibrary r 5 8 9, ?_⟩
  simp only [walkingMoves, threeJobs, choosingMoves, moves, List.cons_append, List.nil_append, SizedCatalog.step, Catalog.step,
    List.any_cons, List.any_nil, Stage.calling, Stage.sharesLock, Bool.or_false, Bool.false_eq_true, if_false, if_true,
    Option.map_some, Option.bind_some, List.getElem?_cons_succ, List.getElem?_cons_zero, List.set_cons_succ,
    List.set_cons_zero, Job.lengthen, Job.act, seen, unseen, listed, List.length_nil, Nat.zero_lt_succ, total,
    bigCall_length big, fits, id, down, sorted_alone, there, free, true_and, not_false_eq_true]
  rfl

/-- The task makes the file longer, and is no longer registered. -/
theorem bigTask_reach (big : content.length = 1572864000) (alone : records toc = [r]) (file : files 50 = some f)
    (index : ∀ m ∈ records f.segmentIndex, m.indexId = 3) (size : sizes 50 = 8194) (last : UInt64)
    (written : UInt64 → Bool) (n : Int) :
    ∃ files' g written', moves (SizedCatalog.step plainLibrary) bigTask
        (threeJobs content ⟨toc, files, last, written⟩ sizes (.queued 50 r) (.walking 49 [(50, n)])) =
      some (threeJobs content ⟨overwrite toc (r.absorb (bigCall 4 content) 1572876288), files', last, written'⟩
        (Function.update sizes 50 1572876288) (.finished 50 12288) (.walking 49 [(50, n)])) ∧
      files' 50 = some g ∧ records g.segmentIndex ≠ [] ∧ written' 50 = false := by
  have region : ∀ store, Catalog.free (threeJobs content store sizes (.queued 50 r) (.walking 49 [(50, n)])).catalog
      50 12288 1572864000 := by
    intro store job mem region here _
    simp only [threeJobs, List.mem_cons, List.not_mem_nil, or_false] at mem
    obtain rfl | rfl | rfl := mem
    · cases here
      decide
    · cases here
    · cases here
  have reached : ∀ k ∈ some 1572864000, k = 0 ∨ (12288 : UInt64).toNat + k ≤ 1572876288 := by decide
  have latest : find toc r = some r := find_alone alone rfl
  have grows : ∀ sizes : UInt64 → Nat, ∀ n, sizes 50 ≤ n → n < 2 ^ 63 →
      lengthened sizes 50 n = some (Function.update sizes 50 n) := fun sizes n le below => if_pos ⟨le, below⟩
  have first := grows sizes 12288 (by omega) (by omega)
  have second : lengthened (Function.update sizes 50 12288) 50 1572876288 = some (Function.update sizes 50 1572876288) := by
    rw [grows _ _ (by rw [Function.update_self]; omega) (by omega), Function.update_idem]
  have third : lengthened (Function.update sizes 50 1572876288) 50 1572876288 =
      some (Function.update sizes 50 1572876288) := by
    rw [grows _ _ (by rw [Function.update_self]) (by omega), Function.update_idem]
  have total : (1572876288 : UInt64) = UInt64.ofNat 1572876288 := rfl
  unfold threeJobs at region
  refine ⟨Function.update files 50 (some ⟨f.image.write (12288 : UInt64).toNat
      (List.take 1572864000 (bigCall 4 content).payload),
      OrderedStore.insert f.segmentIndex ((bigCall 4 content).metadata plainLibrary 12288)⟩), _,
    Function.update written 50 false, ?_, Function.update_self .., fun none => ?_, Function.update_self ..⟩
  · simp only [bigTask, threeJobs, moves, SizedCatalog.step, Catalog.step, List.any_cons, List.any_nil, Stage.sharesLock,
      Bool.or_false, Bool.false_eq_true, if_false, if_true, Option.map_some, Option.bind_some, Option.getD_some,
      List.getElem?_cons_succ, List.getElem?_cons_zero, List.set_cons_succ, List.set_cons_zero, Job.lengthen, Job.act,
      region, if_pos reached, if_pos total, latest, bigCall_length big, first, second, third, Function.update_self,
      Function.update_idem, CatalogStore.withFile, file]
  · have fresh : ∀ m ∈ records f.segmentIndex,
        SegmentMetadata.compare m ((bigCall 4 content).metadata plainLibrary 12288) ≠ .eq := by
      intro m stored same
      have other := (SegmentMetadata.compare_eq same).1
      rw [index m stored] at other
      change (3 : UInt16) = 4 at other
      exact absurd other (by decide)
    have put := (mem_insert _ _ fresh ((bigCall 4 content).metadata plainLibrary 12288)).2 (.inl rfl)
    rw [none] at put
    cases put

/-- The third call goes on with what its walk found. -/
theorem choosingMoves_reach (alone : records toc = [r]) (id : r.fileId = 50) (file : files 50 = some f) (free : written 50 = false)
    (content : Bytes) (last : UInt64) (sizes : UInt64 → Nat) (n : Int) : moves (SizedCatalog.step plainLibrary) (choosingMoves 2)
        (threeJobs content ⟨toc, files, last, written⟩ sizes (.finished 50 12288) (.walking 49 [(50, n)])) =
      some (threeJobs content ⟨toc, files, last, Function.update written 50 true⟩ sizes (.finished 50 12288) (.queued 50 r)) := by
  have unseen : findNext toc (ContentsEntry.key 49) = none := by
    rw [findNext_alone alone, id]
    rfl
  have listed : find toc (ContentsEntry.key 50) = some r := find_alone alone id
  have there : (files 50).isSome := by
    rw [file]
    rfl
  simp only [choosingMoves, threeJobs, moves, SizedCatalog.step, Catalog.step, List.any_cons, List.any_nil, Stage.sharesLock,
    Bool.or_false, Bool.false_eq_true, if_false, if_true, Option.map_some, Option.bind_some, List.getElem?_cons_succ,
    List.getElem?_cons_zero, List.set_cons_succ, List.set_cons_zero, Job.lengthen, Job.act, unseen, listed, sorted_alone, there,
    free, true_and, not_false_eq_true]

end Race

/-- Two segments of 1500 MiB are put in one file: the task of the first ends between the walk and the
choice of the second, and the file has no room when the second begins its `createEntry`. -/
theorem createEntry_past_ceiling : ∃ (content : Bytes) (s : ListSized), content.length = 1572864000 ∧
    moves (SizedCatalog.step plainLibrary) (firstMoves ++ (walkingMoves content ++ (bigTask ++ choosingMoves 2)))
      SizedCatalog.empty = some s ∧
    (∃ job ∈ s.catalog.jobs, job.call = bigCall 5 content ∧ ∃ key, job.stage = .queued 50 key) ∧
    s.sizes 50 = 1572876288 ∧ ¬ s.Within := by
  have reached : (moves (SizedCatalog.step plainLibrary) firstMoves (SizedCatalog.empty : ListSized)).map
      (fun s => ((s.catalog.jobs, (records s.catalog.store.toc).map fun r => (r.fileId, r.totalBytes)),
        (s.catalog.store.files 50).map fun f => (records f.segmentIndex).map SegmentMetadata.indexId,
        s.catalog.store.filesBeingWritten 50, s.sizes 50)) =
      some (([⟨smallCall, .finished 50 8192⟩], [(50, 8194)]), some [3], false, 8194) := by
    decide +kernel
  obtain ⟨⟨⟨⟨toc, files, last, written⟩, jobs⟩, sizes⟩, first, eq⟩ := Option.map_eq_some_iff.1 reached
  simp only [Prod.mk.injEq] at eq
  obtain ⟨⟨rfl, listed⟩, index, free, size⟩ := eq
  obtain ⟨r, alone, fields⟩ := List.map_eq_singleton_iff.1 listed
  obtain ⟨f, file, index⟩ := Option.map_eq_some_iff.1 index
  have index : ∀ m ∈ records f.segmentIndex, m.indexId = 3 := by
    intro m mem
    have among := List.mem_map_of_mem (f := SegmentMetadata.indexId) mem
    rw [index] at among
    exact List.mem_singleton.1 among
  have id : r.fileId = 50 := congrArg Prod.fst fields
  have big : (List.replicate 1572864000 (0 : UInt8)).length = 1572864000 := List.length_replicate
  generalize List.replicate 1572864000 (0 : UInt8) = content at big
  obtain ⟨n, walked⟩ := walkingMoves_reach big alone id (congrArg Prod.snd fields) file free last sizes
  obtain ⟨files', g, written', grown, file', stored, free'⟩ := bigTask_reach big alone file index size last
    (Function.update written 50 true) n
  have same : r.fileId = (r.absorb (bigCall 4 content) 1572876288).fileId := rfl
  generalize r.absorb (bigCall 4 content) 1572876288 = r' at grown same
  have chose := choosingMoves_reach (overwrite_alone alone same) (same.symm.trans id) file' free' content last
    (Function.update sizes 50 1572876288) n
  have run : moves (SizedCatalog.step plainLibrary) (firstMoves ++ (walkingMoves content ++ (bigTask ++ choosingMoves 2)))
      (SizedCatalog.empty : ListSized) = some (threeJobs content
        ⟨overwrite toc r', files', last, Function.update written' 50 true⟩ (Function.update sizes 50 1572876288)
        (.finished 50 12288) (.queued 50 r')) := by
    rw [moves_append, first, Option.bind_some, moves_append, walked, Option.bind_some, moves_append, grown, Option.bind_some,
      chose]
  refine ⟨content, _, big, run, ⟨⟨bigCall 5 content, .queued 50 r'⟩, by simp [threeJobs], rfl, r', rfl⟩, ?_, fun within => ?_⟩
  · exact Function.update_self (50 : UInt64) 1572876288 sizes
  · have le := within ⟨bigCall 5 content, .queued 50 r'⟩ (by simp [threeJobs]) 50 r' g rfl file' stored
    change Function.update sizes 50 1572876288 50 + content.length ≤ _ at le
    rw [Function.update_self, big] at le
    exact absurd le (by decide)

end Runs

end MagelessChain
