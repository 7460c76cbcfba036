import MagelessChain.Storage.CatalogFiles

/-!
# The lengths of catalog files

A catalog that one thread calls, with the length of each file: a move that may make a file longer says
to what, and the total that a task puts in the table of contents is the length its file has then. Each
move of a job is one of a few turns, which say what becomes of the files, their lengths and their
registration as being written.
-/

namespace MagelessChain

open Lib OrderedStore

/-- A catalog that one thread calls, and the lengths of its files. -/
structure SizedCatalog (τ σ : Type) where
  catalog : Catalog τ σ
  sizes : UInt64 → Nat

namespace Stage

/-- `writeSegment` is still in its caller. -/
def calling : Stage → Bool
  | .walking _ _ | .picking _ | .opening _ | .chosen _ _ => true
  | _ => false

/-- The candidate a job tries next. -/
def tries : Stage → Option UInt64
  | .picking (file :: _) => some file
  | _ => none

/-- The file of a job whose task threw, before it is no longer registered. -/
def threw : Stage → Option UInt64
  | .failing file => some file
  | _ => none

/-- The new file a job is about to open. -/
def opens : Stage → Option UInt64
  | .opening file => some file
  | _ => none

/-- The file of a job whose `createEntry` has not begun. -/
def waiting : Stage → Option UInt64
  | .chosen file _ | .queued file _ => some file
  | _ => none

/-- The file of a job that has registered it as being written. -/
def registered : Stage → Option UInt64
  | .queued file _ | .allocated file _ _ | .stored file _ _ | .created file _ _ | .updated file _ | .failing file => some file
  | _ => none

/-- The file of a job that may have made it longer than its entry says. -/
def growing : Stage → Option UInt64
  | .allocated file _ _ | .stored file _ _ | .created file _ _ | .failing file => some file
  | _ => none

/-- The file of a job under way. -/
def holds : Stage → Option UInt64
  | .opening file | .chosen file _ | .queued file _ | .allocated file _ _ | .stored file _ _ | .created file _ _
  | .updated file _ | .failing file => some file
  | _ => none

theorem holds_of_opens {stage : Stage} {file : UInt64} (h : stage.opens = some file) : stage.holds = some file := by
  cases stage <;> first | exact h | cases h

theorem holds_of_waiting {stage : Stage} {file : UInt64} (h : stage.waiting = some file) : stage.holds = some file := by
  cases stage <;> first | exact h | cases h

theorem holds_of_registered {stage : Stage} {file : UInt64} (h : stage.registered = some file) : stage.holds = some file := by
  cases stage <;> first | exact h | cases h

theorem registered_of_growing {stage : Stage} {file : UInt64} (h : stage.growing = some file) : stage.registered = some file := by
  cases stage <;> first | exact h | cases h

/-- A job under way has one file. -/
theorem ne_of_holds {stage : Stage} {file other : UInt64} (h : stage.holds = some file) (elsewhere : stage.holds ≠ some other) :
    other ≠ file := fun same => elsewhere (same ▸ h)

/-- A job under way is in its caller or has registered its file. -/
theorem calling_of_holds {stage : Stage} {file : UInt64} (h : stage.holds = some file) (outside : stage.registered ≠ some file) :
    stage.calling = true := by
  cases stage <;> first | rfl | exact absurd h outside

/-- A job that has registered its file is not about to open one, and has left its caller. -/
theorem outside_of_registered {stage : Stage} {file : UInt64} (h : stage.registered = some file) :
    stage.opens = none ∧ stage.calling = false := by
  cases stage <;> first | exact ⟨rfl, rfl⟩ | cases h

/-- A job whose file grows has begun. -/
theorem begun_of_growing {stage : Stage} {file : UInt64} (h : stage.growing = some file) : stage.waiting = none := by
  cases stage <;> first | rfl | cases h

theorem calling_of_opens {stage : Stage} {file : UInt64} (h : stage.opens = some file) : stage.calling = true := by
  cases stage <;> first | rfl | cases h

theorem growing_of_calling {stage : Stage} (h : stage.calling = true) : stage.growing = none := by
  cases stage <;> first | rfl | cases h

end Stage

/-! ## Lengths -/

/-- A call leaves a file `size` bytes long. -/
def lengthened (sizes : UInt64 → Nat) (file : UInt64) (size : Nat) : Option (UInt64 → Nat) :=
  if sizes file ≤ size ∧ size < 2 ^ 63 then some (Function.update sizes file size) else none

/-- The lengths after a move of a job: opening a new file, allocating, writing and inserting may make
its file longer; the total of an update is the file's length. -/
def Job.lengthen (job : Job) (a : Act) (size : Nat) (sizes : UInt64 → Nat) : Option (UInt64 → Nat) :=
  match job.stage, a with
  | .opening file, .openNew true => lengthened sizes file size
  | .queued file _, .allocate _ => lengthened sizes file size
  | .allocated file _ offset, .store written =>
    -- `pwrite` leaves no file shorter than the end of what it wrote
    if ∀ n ∈ written, n = 0 ∨ offset.toNat + n ≤ size then lengthened sizes file size else none
  | .stored file _ _, .insert _ => lengthened sizes file size
  | .created file _ _, .update totalBytes => if totalBytes = UInt64.ofNat (sizes file) then some sizes else none
  | _, _ => some sizes

theorem lengthened_eq {sizes after : UInt64 → Nat} {file : UInt64} {size : Nat} (h : lengthened sizes file size = some after) :
    sizes file ≤ size ∧ size < 2 ^ 63 ∧ after = Function.update sizes file size := by
  unfold lengthened at h
  split at h
  · rename_i range
    exact ⟨range.1, range.2, (Option.some.inj h).symm⟩
  · cases h

section Sizes

variable {τ σ : Type} [OrderedStore τ ContentsEntry ContentsEntry.compare]
  [OrderedStore σ SegmentMetadata SegmentMetadata.compare]

namespace SizedCatalog

def empty : SizedCatalog τ σ := ⟨Catalog.empty, fun _ => 0⟩

/-- A move, and the length it leaves its file at. The thread calls `writeSegment` when the call before
has returned. -/
def step (lib : CatalogLibrary) (s : SizedCatalog τ σ) : CatalogMove × Nat → Option (SizedCatalog τ σ)
  | (.call c now, _) =>
    if s.catalog.jobs.any (·.stage.calling) then none
    else (s.catalog.step lib (.call c now)).map fun catalog => { s with catalog }
  | (.act j a, size) =>
    match s.catalog.jobs[j]? with
    | none => none
    | some job => (job.lengthen a size s.sizes).bind fun sizes =>
      (s.catalog.step lib (.act j a)).map fun catalog => ⟨catalog, sizes⟩

end SizedCatalog

/-- What a move of a job does to the files, their lengths and their registration. -/
inductive Job.Turn (s : SizedCatalog τ σ) (job : Job) (a : Act) : Stage → CatalogStore τ σ → (UInt64 → Nat) → Prop where
  /-- goes on with its search, or throws -/
  | searched {stage : Stage} {store : CatalogStore τ σ} : job.stage.calling = true → stage.holds = none →
      store.toc = s.catalog.store.toc → store.files = s.catalog.store.files →
      store.filesBeingWritten = s.catalog.store.filesBeingWritten → Turn s job a stage store s.sizes
  | picked {file : UInt64} {rest : List UInt64} {key : ContentsEntry} : a = .pick true → job.stage = .picking (file :: rest) →
      find s.catalog.store.toc (ContentsEntry.key file) = some key → (s.catalog.store.files file).isSome →
      s.catalog.store.filesBeingWritten file = false → Turn s job a (.chosen file key) s.catalog.store s.sizes
  | numbered {now : UInt64} : a = .number now → job.stage = .picking [] →
      Turn s job a (.opening (newFileId s.catalog.store.lastFileId now)) s.catalog.store s.sizes
  | opened {file : UInt64} {size : Nat} : job.stage = .opening file → s.sizes file ≤ size → size < 2 ^ 63 →
      Turn s job a (.chosen file (ContentsEntry.fresh file)) { s.catalog.store with
        lastFileId := file
        files := Function.update s.catalog.store.files file
          (some ((s.catalog.store.files file).getD ⟨Image.zero, OrderedStore.empty⟩)) } (Function.update s.sizes file size)
  | registered {file : UInt64} {key : ContentsEntry} : job.stage = .chosen file key →
      Turn s job a (.queued file key) { s.catalog.store with
        filesBeingWritten := Function.update s.catalog.store.filesBeingWritten file true } s.sizes
  /-- goes on with `createEntry`, or throws there -/
  | wrote {file : UInt64} {stage : Stage} {store : CatalogStore τ σ} {size : Nat} : job.stage.registered = some file →
      stage.growing = some file → store.toc = s.catalog.store.toc →
      store.filesBeingWritten = s.catalog.store.filesBeingWritten →
      (∀ other, other ≠ file → store.files other = s.catalog.store.files other) →
      (store.files file).isSome = (s.catalog.store.files file).isSome → s.sizes file ≤ size → size < 2 ^ 63 →
      Turn s job a stage store (Function.update s.sizes file size)
  | updated {file offset : UInt64} {key : ContentsEntry} : job.stage = .created file key offset →
      Turn s job a (.updated file offset) { s.catalog.store with
        toc := overwrite s.catalog.store.toc
          (((find s.catalog.store.toc key).getD key).absorb job.call (UInt64.ofNat (s.sizes file))) } s.sizes
  | unregistered {file : UInt64} {stage : Stage} : a = .unregister →
      ((∃ offset, job.stage = .updated file offset) ∨ job.stage = .failing file) → stage.holds = none → stage.calling = false →
      Turn s job a stage { s.catalog.store with
        filesBeingWritten := Function.update s.catalog.store.filesBeingWritten file false } s.sizes

/-- Every move of a job is one of these turns. -/
theorem Job.act_turn {lib : CatalogLibrary} {s : SizedCatalog τ σ} {job : Job} {a : Act} {size : Nat} {stage : Stage}
    {store : CatalogStore τ σ} {sizes : UInt64 → Nat} (grown : job.lengthen a size s.sizes = some sizes)
    (acted : job.act lib s.catalog a = some (stage, store)) : job.Turn s a stage store sizes := by
  -- the task's steps: the file may have got longer
  have wrote : ∀ {file : UInt64} {stage' : Stage} {store' : CatalogStore τ σ}, job.stage.registered = some file →
      stage'.growing = some file → store'.toc = s.catalog.store.toc →
      store'.filesBeingWritten = s.catalog.store.filesBeingWritten →
      (∀ other, other ≠ file → store'.files other = s.catalog.store.files other) →
      (store'.files file).isSome = (s.catalog.store.files file).isSome →
      lengthened s.sizes file size = some sizes → job.Turn s a stage' store' sizes := by
    intro file stage' store' here there toc written files own grown
    obtain ⟨le, below, rfl⟩ := lengthened_eq grown
    exact .wrote here there toc written files own le below
  have other_file : ∀ {file : UInt64} {use : CatalogFile σ → CatalogFile σ} (other : UInt64), other ≠ file →
      (s.catalog.store.withFile file use).files other = s.catalog.store.files other := by
    intro file use other ne
    simp [CatalogStore.withFile, ne]
  have own_file : ∀ (file : UInt64) (use : CatalogFile σ → CatalogFile σ),
      ((s.catalog.store.withFile file use).files file).isSome = (s.catalog.store.files file).isSome := by
    intro file use
    simp [CatalogStore.withFile]
  unfold Job.act at acted
  unfold Job.lengthen at grown
  dsimp only at acted
  split at acted
  · rename_i cursor candidates at_walking
    simp only [at_walking, Option.some.injEq] at grown
    subst grown
    have calling : job.stage.calling = true := by rw [at_walking]; rfl
    split at acted
    · cases acted
      exact .searched calling rfl rfl rfl rfl
    · split at acted
      · cases acted
        exact .searched calling rfl rfl rfl rfl
      · cases acted
        exact .searched calling rfl rfl rfl rfl
  · rename_i file rest opened at_picking
    simp only [at_picking, Option.some.injEq] at grown
    subst grown
    have calling : job.stage.calling = true := by rw [at_picking]; rfl
    split at acted
    · cases acted
      exact .searched calling rfl rfl rfl rfl
    · rename_i key found
      split at acted
      · rename_i fine
        cases acted
        exact .picked (by rw [fine.1]) at_picking found fine.2.1 (by simpa using fine.2.2)
      · cases acted
        exact .searched calling rfl rfl rfl rfl
  · rename_i now at_end
    simp only [at_end, Option.some.injEq] at grown
    subst grown
    cases acted
    exact .numbered rfl at_end
  · rename_i file opened at_opening
    have calling : job.stage.calling = true := by rw [at_opening]; rfl
    split at acted
    · rename_i fine
      subst fine
      simp only [at_opening] at grown
      obtain ⟨le, below, rfl⟩ := lengthened_eq grown
      cases acted
      exact .opened at_opening le below
    · rename_i failed
      simp only [at_opening, Bool.not_eq_true] at grown failed
      subst failed
      cases grown
      cases acted
      exact .searched calling rfl rfl rfl rfl
  · rename_i file key at_chosen
    simp only [at_chosen, Option.some.injEq] at grown
    subst grown
    split at acted
    · cases acted
    · cases acted
      exact .registered at_chosen
  · rename_i file key at_queued
    simp only [at_queued] at grown
    cases acted
    exact wrote (by rw [at_queued]; rfl) rfl rfl rfl (fun _ _ => rfl) rfl grown
  · rename_i file key offset at_queued
    simp only [at_queued] at grown
    split at acted
    · cases acted
      exact wrote (by rw [at_queued]; rfl) rfl rfl rfl (fun _ _ => rfl) rfl grown
    · cases acted
  · rename_i file key offset written at_allocated
    simp only [at_allocated] at grown
    split at grown
    · cases acted
      refine wrote (by rw [at_allocated]; rfl) ?_ rfl rfl other_file (own_file ..) grown
      split <;> rfl
    · cases grown
  · rename_i file key offset at_stored
    simp only [at_stored] at grown
    cases acted
    exact wrote (by rw [at_stored]; rfl) rfl rfl rfl (fun _ _ => rfl) rfl grown
  · rename_i file key offset at_stored
    simp only [at_stored] at grown
    cases acted
    exact wrote (by rw [at_stored]; rfl) rfl rfl rfl other_file (own_file ..) grown
  · rename_i file key offset totalBytes at_created
    simp only [at_created] at grown
    split at grown
    · rename_i total
      subst total
      cases grown
      cases acted
      exact .updated at_created
    · cases grown
  · rename_i file offset at_updated
    simp only [at_updated, Option.some.injEq] at grown
    subst grown
    split at acted
    · cases acted
    · cases acted
      exact .unregistered rfl (.inl ⟨offset, at_updated⟩) rfl rfl
  · rename_i file at_failing
    simp only [at_failing, Option.some.injEq] at grown
    subst grown
    split at acted
    · cases acted
    · cases acted
      exact .unregistered rfl (.inr at_failing) rfl rfl
  · cases acted

/-- A move under lengths is a move of the catalog: a new job, or one job takes a turn. -/
theorem SizedCatalog.step_cases {lib : CatalogLibrary} {s s' : SizedCatalog τ σ} {m : CatalogMove × Nat}
    (h : s.step lib m = some s') : s.catalog.step lib m.1 = some s'.catalog ∧
    ((∃ c now, m.1 = .call c now ∧ (∀ job ∈ s.catalog.jobs, job.stage.calling = false) ∧
      s' = { s with catalog := ⟨s.catalog.store, s.catalog.jobs ++ [⟨c, .walking now []⟩]⟩ }) ∨
    ∃ j a job front back stage store sizes, m.1 = .act j a ∧ s.catalog.jobs[j]? = some job ∧
      s.catalog.jobs = front ++ job :: back ∧ s' = ⟨⟨store, front ++ ⟨job.call, stage⟩ :: back⟩, sizes⟩ ∧
      job.Turn s a stage store sizes) := by
  obtain ⟨m, size⟩ := m
  cases m with
  | call c now =>
    simp only [SizedCatalog.step] at h
    split at h
    · cases h
    · rename_i returned
      obtain ⟨catalog, stepped, rfl⟩ := Option.map_eq_some_iff.1 h
      refine ⟨stepped, .inl ⟨c, now, rfl, by simpa using returned, ?_⟩⟩
      simp only [Catalog.step, Option.some.injEq] at stepped
      rw [← stepped]
  | act j a =>
    simp only [SizedCatalog.step] at h
    split at h
    · cases h
    · rename_i job here
      obtain ⟨sizes, grown, h⟩ := Option.bind_eq_some_iff.1 h
      obtain ⟨catalog, stepped, rfl⟩ := Option.map_eq_some_iff.1 h
      refine ⟨stepped, .inr ?_⟩
      simp only [Catalog.step, here] at stepped
      obtain ⟨⟨stage, store⟩, acted, rfl⟩ := Option.map_eq_some_iff.1 stepped
      obtain ⟨inside, at_j⟩ := List.getElem?_eq_some_iff.1 here
      refine ⟨j, a, job, s.catalog.jobs.take j, s.catalog.jobs.drop (j + 1), stage, store, sizes, rfl, here, ?_, ?_,
        Job.act_turn grown acted⟩
      · rw [← at_j, List.getElem_cons_drop, List.take_append_drop]
      · rw [List.set_eq_take_append_cons_drop, if_pos inside]

end Sizes

end MagelessChain
