import MagelessChain.Storage.CatalogToc

/-!
# The catalog files

What the files of a catalog hold while jobs of a backend write them, one segment a block and
index: each file's index has exactly the segments of the jobs that have put theirs there, no file
has the id 0, and nothing a job has done is taken back.
-/

namespace MagelessChain

open Lib OrderedStore

/-! ## What the backend writes -/

/-- A segment of one block, not merged. -/
structure WriteCall.OneBlock (c : WriteCall) : Prop where
  range : c.endBlock.toNat = c.startBlock.toNat + 1
  generation : c.mergeGeneration = 0

instance (c : WriteCall) : Decidable c.OneBlock :=
  decidable_of_iff (c.endBlock.toNat = c.startBlock.toNat + 1 ∧ c.mergeGeneration = 0)
    ⟨fun h => ⟨h.1, h.2⟩, fun h => ⟨h.range, h.generation⟩⟩

/-- Index and block of a call. -/
def WriteCall.slot (c : WriteCall) : UInt16 × UInt64 := (c.indexId, c.startBlock)

theorem SegmentMetadata.compare_eq {a b : SegmentMetadata} (h : SegmentMetadata.compare a b = .eq) :
    a.indexId = b.indexId ∧ a.blockRangeStart = b.blockRangeStart ∧ a.mergeGeneration = b.mergeGeneration := by
  rw [SegmentMetadata.compare_eq_lex] at h
  simpa [compareLex, compareOn, Ordering.then_eq_eq] using h

theorem SegmentMetadata.slot_of_compare {lib : CatalogLibrary} {c c' : WriteCall} {offset offset' : UInt64}
    (h : SegmentMetadata.compare (c.metadata lib offset) (c'.metadata lib offset') = .eq) : c.slot = c'.slot := by
  obtain ⟨index, block, -⟩ := SegmentMetadata.compare_eq h
  exact Prod.ext index block

/-- A segment in an index has a region. -/
theorem Stage.region_of_inIndex {stage : Stage} {x : UInt64 × UInt64} (h : stage.inIndex = some x) :
    stage.region = some x := by
  cases stage <;> first | exact h | cases h

theorem Stage.inIndex_of_completed {stage : Stage} (h : stage.completed.isSome) :
    ∃ file offset, stage.completed = some file ∧ stage.inIndex = some (file, offset) := by
  cases stage <;> first | exact ⟨_, _, rfl, rfl⟩ | cases h

section Invariant

variable {τ σ : Type}

/-- The segment of a call is in a file's index, at a region of the file. -/
def Catalog.Indexed (s : Catalog τ σ) (c : WriteCall) (file offset : UInt64) : Prop :=
  ∃ job ∈ s.jobs, job.call = c ∧ job.stage.inIndex = some (file, offset)

theorem Catalog.indexed_moved {s : Catalog τ σ} {front back : List Job} {job : Job} (split : s.jobs = front ++ job :: back)
    {stage : Stage} (same : stage.inIndex = job.stage.inIndex) {store : CatalogStore τ σ} {c : WriteCall}
    {file offset : UInt64} :
    Catalog.Indexed ⟨store, front ++ ⟨job.call, stage⟩ :: back⟩ c file offset ↔ s.Indexed c file offset := by
  simp [Catalog.Indexed, split, or_and_right, exists_or, same]

/-- Every call is for one block of one index, and no two for the same. -/
structure Catalog.Slots (s : Catalog τ σ) : Prop where
  oneBlock : ∀ job ∈ s.jobs, job.call.OneBlock
  distinct : (s.jobs.map fun job => job.call.slot).Nodup

theorem Catalog.Slots.unique {s : Catalog τ σ} (h : s.Slots) {job other : Job} (here : job ∈ s.jobs)
    (there : other ∈ s.jobs) (same : job.call.slot = other.call.slot) : job = other :=
  List.inj_on_of_nodup_map h.distinct here there same

variable [OrderedStore σ SegmentMetadata SegmentMetadata.compare]

/-- The file of a job under way or through is there. -/
def Catalog.Filed (s : Catalog τ σ) : Prop :=
  ∀ job ∈ s.jobs, ∀ file, (∃ key, job.stage.target = some (file, key)) ∨
    (∃ offset, job.stage.region = some (file, offset)) → (s.store.files file).isSome

/-- A file's index has the segments of the jobs that put theirs there. -/
def Catalog.IndexExact (lib : CatalogLibrary) (s : Catalog τ σ) : Prop :=
  ∀ file f, s.store.files file = some f → ∀ m, m ∈ records f.segmentIndex ↔
    ∃ c offset, s.Indexed c file offset ∧ m = c.metadata lib offset

theorem Catalog.IndexExact.keep {lib : CatalogLibrary} {s : Catalog τ σ} (h : s.IndexExact lib) (filed : s.Filed)
    {front back : List Job} {job : Job} (split : s.jobs = front ++ job :: back) {stage : Stage} {store : CatalogStore τ σ}
    (same : stage.inIndex = job.stage.inIndex)
    (files : ∀ file f', store.files file = some f' →
      (∃ f, s.store.files file = some f ∧ f'.segmentIndex = f.segmentIndex) ∨
      (s.store.files file = none ∧ f'.segmentIndex = OrderedStore.empty)) :
    Catalog.IndexExact lib ⟨store, front ++ ⟨job.call, stage⟩ :: back⟩ := by
  intro file f' found m
  simp only [Catalog.indexed_moved split same]
  rcases files file f' found with ⟨f, before, eq⟩ | ⟨missing, eq⟩
  · rw [eq]
    exact h file f before m
  · -- a new file: nobody can have put a segment there
    rw [eq, records_empty]
    refine ⟨fun mem => absurd mem List.not_mem_nil, ?_⟩
    rintro ⟨c, offset, ⟨other, mem, -, inIndex⟩, -⟩
    have there := filed other mem file (.inr ⟨offset, Stage.region_of_inIndex inIndex⟩)
    rw [missing] at there
    cases there

/-- A job that puts its segment in the index. -/
theorem Catalog.IndexExact.insert {lib : CatalogLibrary} {s : Catalog τ σ} (h : s.IndexExact lib) (slots : s.Slots)
    {front back : List Job} {job : Job} (split : s.jobs = front ++ job :: back) {file offset : UInt64}
    {key : ContentsEntry} (at_stored : job.stage = .stored file key offset) :
    Catalog.IndexExact lib ⟨s.store.withFile file fun f =>
      { f with segmentIndex := OrderedStore.insert f.segmentIndex (job.call.metadata lib offset) },
      front ++ ⟨job.call, .created file key offset⟩ :: back⟩ := by
  have cases_indexed : ∀ c f o, Catalog.Indexed ⟨s.store.withFile file fun f =>
      { f with segmentIndex := OrderedStore.insert f.segmentIndex (job.call.metadata lib offset) },
      front ++ ⟨job.call, .created file key offset⟩ :: back⟩ c f o ↔
      (job.call = c ∧ file = f ∧ offset = o) ∨ s.Indexed c f o := by
    intro c f o
    simp [Catalog.Indexed, split, or_and_right, exists_or, at_stored, Stage.inIndex, or_left_comm]
  intro f after found m
  simp only [cases_indexed]
  obtain ⟨rfl, before, there, rfl⟩ | ⟨here, found⟩ := s.store.withFile_cases found
  · have fresh : ∀ r ∈ records before.segmentIndex, SegmentMetadata.compare r (job.call.metadata lib offset) ≠ .eq := by
      intro r stored eq
      obtain ⟨c, o, ⟨other, mem, rfl, inIndex⟩, rfl⟩ := (h f before there r).1 stored
      obtain rfl : other = job := slots.unique mem (by simp [split]) (SegmentMetadata.slot_of_compare eq)
      rw [at_stored] at inIndex
      cases inIndex
    rw [mem_insert _ _ fresh, h f before there m]
    constructor
    · rintro (rfl | ⟨c, o, indexed, eq⟩)
      · exact ⟨job.call, offset, .inl ⟨rfl, rfl, rfl⟩, rfl⟩
      · exact ⟨c, o, .inr indexed, eq⟩
    · rintro ⟨c, o, ⟨rfl, -, rfl⟩ | indexed, eq⟩
      · exact .inl eq
      · exact .inr ⟨c, o, indexed, eq⟩
  · rw [h f after found m]
    constructor
    · rintro ⟨c, o, indexed, eq⟩
      exact ⟨c, o, .inr indexed, eq⟩
    · rintro ⟨c, o, ⟨-, same, -⟩ | indexed, eq⟩
      · exact absurd same.symm here
      · exact ⟨c, o, indexed, eq⟩

variable [OrderedStore τ ContentsEntry ContentsEntry.compare]

/-- The moves of a catalog under a backend: each call is for one block of one index and the first
for them, and `millis_since_epoch` has not come to its last value. -/
def BackendMove (s : Catalog τ σ) : CatalogMove → Prop
  | .call c _ => c.OneBlock ∧ ∀ job ∈ s.jobs, job.call.slot ≠ c.slot
  | .act _ (.number now) => now.toNat + 1 < 2 ^ 64
  | .act _ _ => True

instance (s : Catalog τ σ) : (m : CatalogMove) → Decidable (BackendMove s m)
  | .call c _ => inferInstanceAs (Decidable (c.OneBlock ∧ ∀ job ∈ s.jobs, job.call.slot ≠ c.slot))
  | .act _ (.number now) => inferInstanceAs (Decidable (now.toNat + 1 < 2 ^ 64))
  | .act _ .walk | .act _ (.pick _) | .act _ (.openNew _) | .act _ .register | .act _ (.allocate _) | .act _ (.store _)
  | .act _ (.insert _) | .act _ (.update _) | .act _ .unregister => .isTrue trivial

theorem Catalog.Slots.step {lib : CatalogLibrary} {s s' : Catalog τ σ} {m : CatalogMove} (h : s.Slots)
    (allowed : BackendMove s m) (moved : s.step lib m = some s') : s'.Slots := by
  obtain ⟨oneBlock, distinct⟩ := h
  rcases Catalog.step_cases moved with ⟨c, now, rfl, rfl⟩ | ⟨j, a, job, front, back, stage, store, rfl, split, -, rfl, -⟩
  · refine ⟨fun job mem => ?_, ?_⟩
    · obtain rfl | mem := mem_of_mem_called mem
      · exact allowed.1
      · exact oneBlock job mem
    · rw [List.map_append, List.map_singleton, List.nodup_append]
      refine ⟨distinct, List.nodup_singleton _, fun slot mem other eq => ?_⟩
      obtain ⟨job, here, rfl⟩ := List.mem_map.1 mem
      rw [List.mem_singleton.1 eq]
      exact allowed.2 job here
  · refine ⟨fun other mem => ?_, ?_⟩
    · rcases mem_of_mem_moved split mem with rfl | mem
      · exact oneBlock job (by simp [split])
      · exact oneBlock other mem
    · rw [split] at distinct
      simpa using distinct

/-- The id of a new file: the clock reading, or one more where the last id has come to it. -/
def newFileId (lastFileId now : UInt64) : UInt64 := if now ≤ lastFileId then now + 1 else now

/-- The ids of files that jobs have settled on or that are listed satisfy `P`, and a job's key has
the id of its file. -/
structure Catalog.Ids (P : UInt64 → Prop) (s : Catalog τ σ) : Prop where
  jobs : ∀ job ∈ s.jobs, ∀ file, job.stage.settled = some file → P file
  keys : ∀ job ∈ s.jobs, ∀ file key, job.stage.target = some (file, key) → key.fileId = file
  toc : ∀ r ∈ records s.store.toc, P r.fileId

omit [OrderedStore σ SegmentMetadata SegmentMetadata.compare] in
theorem Catalog.Ids.mono {P Q : UInt64 → Prop} {s : Catalog τ σ} (h : s.Ids P) (weaker : ∀ file, P file → Q file) :
    s.Ids Q :=
  ⟨fun job mem file settled => weaker file (h.jobs job mem file settled), h.keys, fun r found => weaker _ (h.toc r found)⟩

omit [OrderedStore σ SegmentMetadata SegmentMetadata.compare] in
theorem Catalog.Ids.empty (P : UInt64 → Prop) : (Catalog.empty : Catalog τ σ).Ids P :=
  ⟨fun _ mem => absurd mem List.not_mem_nil, fun _ mem => absurd mem List.not_mem_nil,
    fun r found => absurd found (Catalog.not_mem_empty r)⟩

/-- **Ids come from one place**: what holds of every new id holds of the ids of all files. -/
theorem Catalog.Ids.step {P : UInt64 → Prop} {lib : CatalogLibrary} {s s' : Catalog τ σ} {m : CatalogMove} (h : s.Ids P)
    (numbers : ∀ j now, m = .act j (.number now) → P (newFileId s.store.lastFileId now)) (moved : s.step lib m = some s') :
    s'.Ids P := by
  obtain ⟨jobs, keys, toc⟩ := h
  rcases Catalog.step_cases moved with ⟨c, now, rfl, rfl⟩ | ⟨j, a, job, front, back, stage, store, rfl, split, -, rfl, change⟩
  · refine ⟨fun job mem file settled => ?_, fun job mem file key target => ?_, toc⟩
    · obtain rfl | mem := mem_of_mem_called mem
      · cases settled
      · exact jobs job mem file settled
    · obtain rfl | mem := mem_of_mem_called mem
      · cases target
      · exact keys job mem file key target
  · have here : job ∈ s.jobs := by simp [split]
    have keep : (∀ file, stage.settled = some file → P file) → (∀ file key, stage.target = some (file, key) → key.fileId = file) →
        (∀ r ∈ records store.toc, P r.fileId) → Catalog.Ids P ⟨store, front ++ ⟨job.call, stage⟩ :: back⟩ := by
      intro own target entries
      refine ⟨fun other mem file settled => ?_, fun other mem file key eq => ?_, entries⟩
      · rcases mem_of_mem_moved split mem with rfl | mem
        · exact own file settled
        · exact jobs other mem file settled
      · rcases mem_of_mem_moved split mem with rfl | mem
        · exact target file key eq
        · exact keys other mem file key eq
    -- a stage that has settled on what the job had settled on, with its key or none
    have same : (∀ file, stage.settled = some file → job.stage.settled = some file) →
        (∀ file key, stage.target = some (file, key) → job.stage.target = some (file, key)) →
        (∀ r ∈ records store.toc, P r.fileId) → Catalog.Ids P ⟨store, front ++ ⟨job.call, stage⟩ :: back⟩ :=
      fun settled target => keep (fun file eq => jobs job here file (settled file eq))
        (fun file key eq => keys job here file key (target file key eq))
    cases change with
    | quiet unchanged _ follows =>
      refine same (fun file settled => ?_) (fun file key target => ?_) (unchanged ▸ toc)
      · obtain none | eq := follows.settled
        · rw [none] at settled
          cases settled
        · exact eq ▸ settled
      · obtain none | eq := follows.target
        · rw [none] at target
          cases target
        · exact eq ▸ target
    | @numbered now eq _ =>
      refine keep (fun file settled => ?_) (fun file key target => by cases target) toc
      cases settled
      exact numbers j now (eq ▸ rfl)
    | @picked file rest key _ found _ =>
      have id : key.fileId = file := ContentsEntry.fileId_of_compare (cmp_of_find found)
      refine keep (fun f settled => ?_) (fun f k target => ?_) toc
      · cases settled
        rw [← id]
        exact toc key (mem_of_find found)
      · cases target
        exact id
    | opened at_opening =>
      refine keep (fun file settled => jobs job here file (by rw [at_opening]; exact settled)) (fun file key target => ?_) toc
      cases target
      rfl
    | allocated _ at_queued _ =>
      exact same (fun file settled => by rw [at_queued]; exact settled) (fun file key target => by rw [at_queued]; exact target) toc
    | wrote at_allocated _ outcome =>
      obtain ⟨rfl, -⟩ | rfl := outcome
      · exact same (fun file settled => by rw [at_allocated]; exact settled)
          (fun file key target => by rw [at_allocated]; exact target) toc
      · exact same (fun file settled => by rw [at_allocated]; exact settled) (fun file key target => by cases target) toc
    | inserted at_stored =>
      exact same (fun file settled => by rw [at_stored]; exact settled) (fun file key target => by rw [at_stored]; exact target) toc
    | @updated file offset totalBytes key at_created =>
      refine same (fun f settled => by rw [at_created]; exact settled) (fun f key target => by cases target) fun r found => ?_
      obtain rfl | ⟨found, -⟩ := (mem_overwrite ..).1 found
      · -- the entry found under the job's key, or the key itself
        have id : ((find s.store.toc key).getD key).fileId = file := by
          have own := keys job here file key (by rw [at_created]; rfl)
          cases found : find s.store.toc key with
          | none => exact own
          | some latest => exact (ContentsEntry.fileId_of_compare (cmp_of_find found)).trans own
        change P ((find s.store.toc key).getD key).fileId
        rw [id]
        exact jobs job here file (by rw [at_created]; rfl)
      · exact toc r found

/-- No file has the id 0. -/
structure Catalog.Nonzero (s : Catalog τ σ) : Prop where
  jobs : ∀ job ∈ s.jobs, ∀ file, job.stage.settled = some file → file ≠ 0
  toc : ∀ r ∈ records s.store.toc, r.fileId ≠ 0

/-- An id is 0 only where the clock and the last id have come to their last value. -/
theorem newFileId_ne_zero {lastFileId now : UInt64} (below : now.toNat + 1 < 2 ^ 64 ∨ lastFileId < now) :
    newFileId lastFileId now ≠ 0 := by
  intro zero
  have zero := congrArg UInt64.toNat zero
  unfold newFileId at zero
  split at zero
  · rename_i le
    have bound : now.toNat + 1 < 2 ^ 64 := below.resolve_right (UInt64.not_lt.2 le)
    rw [UInt64.toNat_add] at zero
    simp at zero
    omega
  · rename_i above
    exact above (UInt64.le_iff_toNat_le.2 (by rw [zero]; exact Nat.zero_le _))

theorem Catalog.Nonzero.step {lib : CatalogLibrary} {s s' : Catalog τ σ} {m : CatalogMove} (h : s.Nonzero)
    (inv : s.TocInv) (allowed : BackendMove s m) (moved : s.step lib m = some s') : s'.Nonzero := by
  have ids : s.Ids (· ≠ 0) := ⟨h.jobs, fun job mem file key target => (inv.snapshots job mem file key target).1, h.toc⟩
  have ids' : s'.Ids (· ≠ 0) := by
    refine ids.step (fun j now eq => newFileId_ne_zero (.inl ?_)) moved
    subst eq
    exact allowed
  exact ⟨ids'.jobs, ids'.toc⟩

/-- A move leaves every file there. -/
theorem Job.Change.files {lib : CatalogLibrary} {s : Catalog τ σ} {job : Job} {a : Act} {stage : Stage}
    {store : CatalogStore τ σ} (change : job.Change lib s a stage store) {file : UInt64}
    (there : (s.store.files file).isSome) : (store.files file).isSome := by
  have used : ∀ (f : UInt64) (use : CatalogFile σ → CatalogFile σ), ((s.store.withFile f use).files file).isSome := by
    intro f use
    by_cases same : file = f
    · subst same
      simpa [CatalogStore.withFile] using there
    · simpa [CatalogStore.withFile, same] using there
  cases change with
  | quiet _ same _ => exact same ▸ there
  | numbered | picked | allocated | updated => exact there
  | @opened f _ =>
    by_cases same : file = f
    · subst same
      simp
    · simpa [same] using there
  | wrote | inserted => exact used _ _

theorem Catalog.Filed.step {lib : CatalogLibrary} {s s' : Catalog τ σ} {m : CatalogMove} (h : s.Filed)
    (moved : s.step lib m = some s') : s'.Filed := by
  rcases Catalog.step_cases moved with ⟨c, now, rfl, rfl⟩ | ⟨j, a, job, front, back, stage, store, rfl, split, -, rfl, change⟩
  · intro job mem file uses
    obtain rfl | mem := mem_of_mem_called mem
    · rcases uses with ⟨key, eq⟩ | ⟨offset, eq⟩ <;> cases eq
    · exact h job mem file uses
  · intro other mem file uses
    rcases mem_of_mem_moved split mem with rfl | mem
    · have own := h job (by simp [split])
      have before : (∃ key, job.stage.target = some (file, key)) ∨ (∃ offset, job.stage.region = some (file, offset)) →
          (store.files file).isSome := fun uses => change.files (own file uses)
      cases change with
      | quiet _ _ follows =>
        apply before
        rcases uses with ⟨key, eq⟩ | ⟨offset, eq⟩
        · rcases follows.target with none | same
          · rw [none] at eq
            cases eq
          · exact .inl ⟨key, same ▸ eq⟩
        · rcases follows.region with none | same
          · rw [none] at eq
            cases eq
          · exact .inr ⟨offset, same ▸ eq⟩
      | numbered => rcases uses with ⟨key, eq⟩ | ⟨offset, eq⟩ <;> cases eq
      | picked _ _ there =>
        rcases uses with ⟨key, eq⟩ | ⟨offset, eq⟩
        · cases eq
          exact there
        · cases eq
      | opened _ =>
        rcases uses with ⟨key, eq⟩ | ⟨offset, eq⟩
        · cases eq
          simp
        · cases eq
      | allocated _ at_queued _ =>
        rcases uses with ⟨key, eq⟩ | ⟨offset, eq⟩ <;> cases eq <;> exact before (.inl ⟨_, by rw [at_queued]; rfl⟩)
      | wrote at_allocated _ outcome =>
        rcases outcome with ⟨rfl, -⟩ | rfl
        · rcases uses with ⟨key, eq⟩ | ⟨offset, eq⟩ <;> cases eq <;> exact before (.inl ⟨_, by rw [at_allocated]; rfl⟩)
        · rcases uses with ⟨key, eq⟩ | ⟨offset, eq⟩ <;> cases eq
      | inserted at_stored =>
        rcases uses with ⟨key, eq⟩ | ⟨offset, eq⟩ <;> cases eq <;> exact before (.inl ⟨_, by rw [at_stored]; rfl⟩)
      | updated at_created =>
        rcases uses with ⟨key, eq⟩ | ⟨offset, eq⟩
        · cases eq
        · cases eq
          exact before (.inl ⟨_, by rw [at_created]; rfl⟩)
    · exact change.files (h other mem file uses)

theorem Catalog.IndexExact.step {lib : CatalogLibrary} {s s' : Catalog τ σ} {m : CatalogMove} (h : s.IndexExact lib)
    (slots : s.Slots) (filed : s.Filed) (moved : s.step lib m = some s') : s'.IndexExact lib := by
  rcases Catalog.step_cases moved with ⟨c, now, rfl, rfl⟩ | ⟨j, a, job, front, back, stage, store, rfl, split, -, rfl, change⟩
  · intro file f found m
    rw [h file f found m]
    simp [Catalog.Indexed, or_and_right, exists_or, Stage.inIndex]
  · have unchanged : ∀ file f', s.store.files file = some f' →
        (∃ f, s.store.files file = some f ∧ f'.segmentIndex = f.segmentIndex) ∨
        (s.store.files file = none ∧ f'.segmentIndex = OrderedStore.empty) := fun file f' found => .inl ⟨f', found, rfl⟩
    cases change with
    | quiet _ files follows => exact h.keep filed split follows.inIndex (files ▸ unchanged)
    | numbered _ at_end => exact h.keep filed split (by rw [at_end]; rfl) unchanged
    | picked at_picking _ _ => exact h.keep filed split (by rw [at_picking]; rfl) unchanged
    | opened at_opening =>
      refine h.keep filed split (by rw [at_opening]; rfl) fun f f' found => ?_
      obtain there | ⟨missing, rfl⟩ := s.store.opened_cases found
      · exact .inl ⟨f', there, rfl⟩
      · exact .inr ⟨missing, rfl⟩
    | allocated _ at_queued _ => exact h.keep filed split (by rw [at_queued]; rfl) unchanged
    | @wrote _ _ _ stage _ at_allocated _ outcome =>
      have same : stage.inIndex = job.stage.inIndex := by
        rw [at_allocated]
        rcases outcome with ⟨rfl, -⟩ | rfl <;> rfl
      refine h.keep filed split same fun f f' found => .inl ?_
      obtain ⟨-, before, there, rfl⟩ | ⟨-, there⟩ := s.store.withFile_cases found
      · exact ⟨before, there, rfl⟩
      · exact ⟨f', there, rfl⟩
    | inserted at_stored => exact h.insert slots split at_stored
    | updated at_created => exact h.keep filed split (by rw [at_created]; rfl) unchanged

/-- What a catalog under a backend keeps. -/
structure Catalog.BackendInv (lib : CatalogLibrary) (s : Catalog τ σ) : Prop where
  toc : s.TocInv
  slots : s.Slots
  nonzero : s.Nonzero
  filed : s.Filed
  index : s.IndexExact lib

theorem Catalog.BackendInv.empty (lib : CatalogLibrary) : (Catalog.empty : Catalog τ σ).BackendInv lib where
  toc := Catalog.TocInv.empty
  slots := ⟨fun job mem => absurd mem List.not_mem_nil, List.nodup_nil⟩
  nonzero := ⟨fun job mem => absurd mem List.not_mem_nil, fun r found => absurd found (Catalog.not_mem_empty r)⟩
  filed := fun job mem => absurd mem List.not_mem_nil
  index := fun file f found => by cases found

theorem Catalog.BackendInv.step {lib : CatalogLibrary} {s s' : Catalog τ σ} {m : CatalogMove} (h : s.BackendInv lib)
    (allowed : BackendMove s m) (moved : s.step lib m = some s') : s'.BackendInv lib where
  toc := h.toc.step moved
  slots := h.slots.step allowed moved
  nonzero := h.nonzero.step h.toc allowed moved
  filed := h.filed.step moved
  index := h.index.step h.slots h.filed moved

theorem Catalog.BackendInv.reach {lib : CatalogLibrary} {s s' : Catalog τ σ} (h : s.BackendInv lib)
    (reach : Reach (Catalog.step lib) BackendMove s s') : s'.BackendInv lib :=
  reach.invariant h fun _ _ _ h allowed moved => h.step allowed moved

/-! ## Nothing is taken back -/

/-- The job of a call is through: it has made its update, and its segment is in the file's index. -/
def Catalog.Through (s : Catalog τ σ) (c : WriteCall) (file offset : UInt64) : Prop :=
  ∃ job ∈ s.jobs, job.call = c ∧ job.stage.completed = some file ∧ job.stage.inIndex = some (file, offset)

/-- A job whose segment is in an index has its update and its unregistration left. -/
theorem Job.Change.of_inIndex {lib : CatalogLibrary} {s : Catalog τ σ} {job : Job} {a : Act} {stage : Stage}
    {store : CatalogStore τ σ} (change : job.Change lib s a stage store) (h : job.stage.inIndex.isSome) :
    stage.Follows job.stage ∨ ∃ file key offset, job.stage = .created file key offset ∧ stage = .updated file offset := by
  cases change with
  | quiet _ _ follows => exact .inl follows
  | updated here => exact .inr ⟨_, _, _, here, rfl⟩
  | numbered _ here => rw [here] at h; cases h
  | picked here _ _ => rw [here] at h; cases h
  | opened here => rw [here] at h; cases h
  | allocated _ here _ => rw [here] at h; cases h
  | wrote here _ _ => rw [here] at h; cases h
  | inserted here => rw [here] at h; cases h

theorem Job.Change.inIndex {lib : CatalogLibrary} {s : Catalog τ σ} {job : Job} {a : Act} {stage : Stage}
    {store : CatalogStore τ σ} (change : job.Change lib s a stage store) {x : UInt64 × UInt64}
    (h : job.stage.inIndex = some x) : stage.inIndex = some x := by
  obtain follows | ⟨file, key, offset, here, rfl⟩ := change.of_inIndex (by rw [h]; rfl)
  · exact follows.inIndex.trans h
  · rw [here] at h
    exact h

theorem Job.Change.completed {lib : CatalogLibrary} {s : Catalog τ σ} {job : Job} {a : Act} {stage : Stage}
    {store : CatalogStore τ σ} (change : job.Change lib s a stage store) {file : UInt64}
    (h : job.stage.completed = some file) : stage.completed = some file := by
  obtain ⟨_, offset, -, indexed⟩ := Stage.inIndex_of_completed (by rw [h]; rfl)
  obtain follows | ⟨file, key, offset, here, rfl⟩ := change.of_inIndex (by rw [indexed]; rfl)
  · exact follows.completed.trans h
  · rw [here] at h
    cases h

/-- What the moves of a job do not take from its stage, a run does not take from the job. -/
theorem Catalog.lasts {lib : CatalogLibrary} {P : Stage → Prop} {c : WriteCall}
    (keep : ∀ {s : Catalog τ σ} {job : Job} {a : Act} {stage : Stage} {store : CatalogStore τ σ},
      job.Change lib s a stage store → P job.stage → P stage)
    {allowed : Catalog τ σ → CatalogMove → Prop} {s s' : Catalog τ σ} (reach : Reach (Catalog.step lib) allowed s s')
    (h : ∃ job ∈ s.jobs, job.call = c ∧ P job.stage) : ∃ job ∈ s'.jobs, job.call = c ∧ P job.stage := by
  refine reach.invariant (P := fun s => ∃ job ∈ s.jobs, job.call = c ∧ P job.stage) h ?_
  rintro s m s' ⟨job, mem, rfl, holds⟩ - moved
  rcases Catalog.step_cases moved with ⟨c, now, rfl, rfl⟩ | ⟨j, a, acting, front, back, stage, store, rfl, split, -, rfl, change⟩
  · exact ⟨job, List.mem_append_left _ mem, rfl, holds⟩
  · rw [split, List.mem_append, List.mem_cons] at mem
    rcases mem with mem | rfl | mem
    · exact ⟨job, List.mem_append_left _ mem, rfl, holds⟩
    · exact ⟨⟨job.call, stage⟩, by simp, rfl, keep change holds⟩
    · exact ⟨job, by simp [mem], rfl, holds⟩

theorem Catalog.Indexed.reach {lib : CatalogLibrary} {allowed : Catalog τ σ → CatalogMove → Prop} {s s' : Catalog τ σ}
    {c : WriteCall} {file offset : UInt64} (h : s.Indexed c file offset)
    (reach : Reach (Catalog.step lib) allowed s s') : s'.Indexed c file offset :=
  Catalog.lasts (P := fun stage => stage.inIndex = some (file, offset)) (fun change => change.inIndex) reach h

theorem Catalog.Through.reach {lib : CatalogLibrary} {allowed : Catalog τ σ → CatalogMove → Prop} {s s' : Catalog τ σ}
    {c : WriteCall} {file offset : UInt64} (h : s.Through c file offset)
    (reach : Reach (Catalog.step lib) allowed s s') : s'.Through c file offset :=
  Catalog.lasts (P := fun stage => stage.completed = some file ∧ stage.inIndex = some (file, offset))
    (fun change h => ⟨change.completed h.1, change.inIndex h.2⟩) reach h

end Invariant

end MagelessChain
