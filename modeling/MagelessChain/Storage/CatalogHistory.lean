import MagelessChain.Storage.CatalogQuery
import Mathlib.Data.List.Induction

/-!
# File ids over the life of a catalog

A new file gets the clock reading as its id, or one more than the reading where `lastFileId` has
come to it, and `lastFileId` is 0 again when the catalog is reopened. `rangeScan` and
`selectFileFor` go down from the clock reading of their own moment. So ids are distinct, and files
are seen, as long as the clock goes on between the creations and on to the scan; the loops end as
long as no id wraps to 0.
-/

namespace MagelessChain

open Lib OrderedStore

/-- How a file got its id: the clock reading, `lastFileId` at that moment, and the job that created
it, counted in its opening of the catalog. -/
structure Creation where
  now : UInt64
  lastFileId : UInt64
  session : Nat
  job : Nat
  deriving DecidableEq, Repr

def Creation.fileId (c : Creation) : UInt64 := newFileId c.lastFileId c.now

/-- A catalog, how often it was reopened, and the files created since its directory was empty. -/
structure CatalogHistory (τ σ : Type) where
  catalog : Catalog τ σ
  session : Nat
  created : List Creation

/-- A move of the catalog, or a new process on its directory. -/
inductive HistoryMove where
  | move (m : CatalogMove)
  | reopen

/-- What a new process finds: the files and the table of contents, and no job. -/
def Catalog.reopen {τ σ : Type} (s : Catalog τ σ) : Catalog τ σ :=
  ⟨{ s.store with lastFileId := 0, filesBeingWritten := fun _ => false }, []⟩

/-! ## Creations one after another -/

/-- `P` holds of each creation and those before it. -/
def EachAfter (P : List Creation → Creation → Prop) (created : List Creation) : Prop :=
  ∀ before c after, created = before ++ c :: after → P before c

theorem eachAfter_nil (P : List Creation → Creation → Prop) : EachAfter P [] := by
  intro before c after parts
  cases before <;> cases parts

theorem eachAfter_snoc {P : List Creation → Creation → Prop} {created : List Creation} {c : Creation} :
    EachAfter P (created ++ [c]) ↔ EachAfter P created ∧ P created c := by
  constructor
  · intro each
    refine ⟨fun before o after parts => each before o (after ++ [c]) ?_, each created c [] rfl⟩
    rw [parts, List.append_assoc, List.cons_append]
  · rintro ⟨each, last⟩ before o after parts
    obtain rfl | ⟨after, d, rfl⟩ := List.eq_nil_or_concat after
    · obtain ⟨rfl, eq⟩ := List.append_inj' parts rfl
      cases eq
      exact last
    · rw [List.concat_eq_append, ← List.cons_append, ← List.append_assoc] at parts
      obtain ⟨eq, -⟩ := List.append_inj' parts rfl
      exact each before o after eq

/-- No creation before has the id. -/
def Creation.Fresh (before : List Creation) (c : Creation) : Prop := ∀ o ∈ before, o.fileId ≠ c.fileId

theorem nodup_iff_fresh (created : List Creation) : (created.map Creation.fileId).Nodup ↔ EachAfter Creation.Fresh created := by
  induction created using List.reverseRecOn with
  | nil => exact ⟨fun _ => eachAfter_nil _, fun _ => List.nodup_nil⟩
  | append_singleton created c ih =>
    rw [eachAfter_snoc, ← ih, List.map_append, List.map_singleton, List.nodup_append]
    constructor
    · rintro ⟨nodup, -, apart⟩
      exact ⟨nodup, fun o mem => apart _ (List.mem_map_of_mem mem) _ (List.mem_singleton_self _)⟩
    · rintro ⟨nodup, fresh⟩
      refine ⟨nodup, List.nodup_singleton _, fun id mem other last => ?_⟩
      obtain ⟨o, among, rfl⟩ := List.mem_map.1 mem
      obtain rfl := List.mem_singleton.1 last
      exact fresh o among

/-- The clock tells the id from all before it: the reading is past `lastFileId` and past every id, or it
is `lastFileId` and no id is past it. -/
def Creation.Spaced (before : List Creation) (c : Creation) : Prop :=
  (c.lastFileId < c.now ∧ ∀ o ∈ before, o.fileId < c.now) ∨
    (c.now = c.lastFileId ∧ ∀ o ∈ before, 0 < o.fileId ∧ o.fileId ≤ c.now)

/-- The clock does not step back, and `lastFileId` is 0 or the id of a file. -/
structure Creation.Chronological (before : List Creation) (c : Creation) : Prop where
  clock : ∀ o ∈ before, o.now ≤ c.now
  last : c.lastFileId = 0 ∨ ∃ o ∈ before, o.fileId = c.lastFileId

/-- The id of a creation as a number. -/
theorem Creation.toNat_fileId (c : Creation) :
    (c.lastFileId < c.now ∧ c.fileId.toNat = c.now.toNat) ∨
      (c.now ≤ c.lastFileId ∧ c.fileId.toNat = (c.now.toNat + 1) % 2 ^ 64) := by
  unfold Creation.fileId newFileId
  split
  · rename_i le
    refine .inr ⟨le, ?_⟩
    rw [UInt64.toNat_add]
    rfl
  · rename_i above
    exact .inl ⟨UInt64.not_le.1 above, rfl⟩

theorem Creation.Spaced.fresh {before : List Creation} {c : Creation} (spaced : Creation.Spaced before c) : Creation.Fresh before c := by
  intro o mem same
  have same := congrArg UInt64.toNat same
  have id := c.toNat_fileId
  have bound := c.now.toNat_lt
  simp only [Creation.Spaced, UInt64.lt_iff_toNat_lt, UInt64.le_iff_toNat_le, ← UInt64.toNat_inj] at spaced id
  have zero : (0 : UInt64).toNat = 0 := rfl
  obtain ⟨past, below⟩ | ⟨last, range⟩ := spaced
  · have lt := below o mem
    omega
  · obtain ⟨positive, le⟩ := range o mem
    omega

/-- An id past a later reading is one past it, and was one past its own. -/
theorem Creation.ahead {o : Creation} {now : UInt64} (clock : o.now ≤ now) (past : now < o.fileId) :
    o.now = now ∧ o.now ≤ o.lastFileId ∧ o.fileId.toNat = now.toNat + 1 := by
  have id := o.toNat_fileId
  have bound := now.toNat_lt
  simp only [UInt64.lt_iff_toNat_lt, UInt64.le_iff_toNat_le, ← UInt64.toNat_inj] at clock past id ⊢
  omega

/-- **A new id is told by the clock** from those before it, where the clock does not step back. -/
theorem Creation.spaced_of_fresh {created before after : List Creation} {c : Creation} (parts : created = before ++ c :: after)
    (chronological : EachAfter Creation.Chronological created) (fresh : EachAfter Creation.Fresh created) :
    Creation.Spaced before c := by
  obtain ⟨clock, last⟩ := chronological before c after parts
  have new := fresh before c after parts
  have zero : (0 : UInt64).toNat = 0 := rfl
  obtain ⟨above, id⟩ | ⟨bumped, id⟩ := c.toNat_fileId
  · refine .inl ⟨above, fun o mem => UInt64.not_le.1 fun le => ?_⟩
    have id : c.fileId = c.now := UInt64.toNat_inj.1 id
    -- an id that is not below the reading is one past it, and so is the last id it was bumped past
    have past : ∀ p ∈ before, c.now ≤ p.fileId → c.now < p.fileId := by
      intro p among le
      refine UInt64.lt_of_le_of_ne le fun same => new p among ?_
      rw [id, same]
    obtain ⟨now, reached, one⟩ := Creation.ahead (clock o mem) (past o mem le)
    obtain ⟨earlier, later, rfl⟩ := List.append_of_mem mem
    have parts : created = earlier ++ o :: (later ++ c :: after) := by simp [parts]
    obtain ⟨older, none | ⟨p, among, same⟩⟩ := chronological _ _ _ parts
    · rw [none, now] at reached
      exact UInt64.not_lt.2 (UInt64.le_iff_toNat_le.2 (Nat.zero_le _)) (UInt64.lt_of_lt_of_le above reached)
    · have there : p ∈ earlier ++ o :: later := List.mem_append_left _ among
      obtain ⟨-, -, one'⟩ := Creation.ahead (clock p there) (past p there (by rw [same, ← now]; exact reached))
      exact fresh _ _ _ parts p among (UInt64.toNat_inj.1 (one'.trans one.symm))
  · have bound := c.now.toNat_lt
    have below : ∀ o ∈ before, o.fileId ≤ c.now := by
      intro o mem
      refine UInt64.not_lt.1 fun past => new o mem ?_
      obtain ⟨-, -, one⟩ := Creation.ahead (clock o mem) past
      have bound' := o.fileId.toNat_lt
      rw [← UInt64.toNat_inj]
      omega
    refine .inr ⟨UInt64.le_antisymm bumped ?_, fun o mem => ⟨?_, below o mem⟩⟩
    · obtain none | ⟨o, mem, same⟩ := last
      · rw [none]
        exact UInt64.le_iff_toNat_le.2 (Nat.zero_le _)
      · rw [← same]
        exact below o mem
    · -- an id is 0 only at the last reading there is, and so is the one that comes next
      have differs : o.fileId.toNat ≠ c.fileId.toNat := fun same => new o mem (UInt64.toNat_inj.1 same)
      have clock := UInt64.le_iff_toNat_le.1 (clock o mem)
      have own := o.toNat_fileId
      have bound' := o.now.toNat_lt
      simp only [UInt64.lt_iff_toNat_lt, UInt64.le_iff_toNat_le] at own ⊢
      omega

/-- The ids are distinct exactly where each is told by the clock from those before it. -/
theorem nodup_iff_spaced {created : List Creation} (chronological : EachAfter Creation.Chronological created) :
    (created.map Creation.fileId).Nodup ↔ EachAfter Creation.Spaced created := by
  rw [nodup_iff_fresh]
  constructor
  · intro fresh before c after parts
    exact Creation.spaced_of_fresh parts chronological fresh
  · intro spaced before c after parts
    exact (spaced before c after parts).fresh

section History

variable {τ σ : Type} [OrderedStore τ ContentsEntry ContentsEntry.compare]
  [OrderedStore σ SegmentMetadata SegmentMetadata.compare]

/-- A move of a job leaves `lastFileId` as it is, or opens a new file. -/
theorem Job.act_lastFileId {lib : CatalogLibrary} {s : Catalog τ σ} {job : Job} {a : Act} {stage : Stage}
    {store : CatalogStore τ σ} (h : job.act lib s a = some (stage, store)) :
    store.lastFileId = s.store.lastFileId ∨ job.stage = .opening store.lastFileId := by
  unfold Job.act at h
  dsimp only at h
  split at h
  case h_4 file opened at_opening =>
    split at h <;> cases h <;> exact .inr at_opening
  all_goals
    repeat' split at h
    all_goals first
      | cases h; exact .inl rfl
      | cases h

theorem Catalog.step_lastFileId {lib : CatalogLibrary} {s s' : Catalog τ σ} {m : CatalogMove} (h : s.step lib m = some s') :
    s'.store.lastFileId = s.store.lastFileId ∨ ∃ job ∈ s.jobs, job.stage.settled = some s'.store.lastFileId := by
  cases m with
  | call c now =>
    cases h
    exact .inl rfl
  | act j a =>
    simp only [Catalog.step] at h
    split at h
    · cases h
    · rename_i job here
      obtain ⟨⟨stage, store⟩, acted, rfl⟩ := Option.map_eq_some_iff.1 h
      obtain same | at_opening := Job.act_lastFileId acted
      · exact .inl same
      · exact .inr ⟨job, List.mem_of_getElem? here, by rw [at_opening]; rfl⟩

namespace CatalogHistory

/-- An empty directory. -/
def empty : CatalogHistory τ σ := ⟨Catalog.empty, 0, []⟩

omit [OrderedStore τ ContentsEntry ContentsEntry.compare] [OrderedStore σ SegmentMetadata SegmentMetadata.compare] in
/-- The file a move creates. -/
def creates (s : CatalogHistory τ σ) : CatalogMove → List Creation
  | .act j (.number now) => [⟨now, s.catalog.store.lastFileId, s.session, j⟩]
  | _ => []

def step (lib : CatalogLibrary) (s : CatalogHistory τ σ) : HistoryMove → Option (CatalogHistory τ σ)
  | .move m => (s.catalog.step lib m).map fun catalog => { s with catalog, created := s.created ++ s.creates m }
  | .reopen => some { s with catalog := s.catalog.reopen, session := s.session + 1 }

/-- A file id was given to a creation. -/
def Given (s : CatalogHistory τ σ) (file : UInt64) : Prop := ∃ c ∈ s.created, c.fileId = file

/-- Every file that a job has settled on or that is listed was created. -/
def Logged (s : CatalogHistory τ σ) : Prop := s.catalog.Ids s.Given

omit [OrderedStore σ SegmentMetadata SegmentMetadata.compare] in
theorem Logged.empty : (empty : CatalogHistory τ σ).Logged := Catalog.Ids.empty _

theorem Logged.step {lib : CatalogLibrary} {s s' : CatalogHistory τ σ} {m : HistoryMove} (h : s.Logged)
    (moved : s.step lib m = some s') : s'.Logged := by
  cases m with
  | move m =>
    obtain ⟨catalog, stepped, rfl⟩ := Option.map_eq_some_iff.1 moved
    have ids : s.catalog.Ids fun file => ∃ c ∈ s.created ++ s.creates m, c.fileId = file :=
      h.mono fun file ⟨c, mem, eq⟩ => ⟨c, List.mem_append_left _ mem, eq⟩
    refine ids.step (fun j now eq => ?_) stepped
    subst eq
    exact ⟨⟨now, s.catalog.store.lastFileId, s.session, j⟩, List.mem_append_right _ (List.mem_singleton_self _), rfl⟩
  | reopen =>
    cases moved
    exact ⟨fun job mem => absurd mem List.not_mem_nil, fun job mem => absurd mem List.not_mem_nil, h.toc⟩

theorem Logged.reach {lib : CatalogLibrary} {allowed : CatalogHistory τ σ → HistoryMove → Prop} {s : CatalogHistory τ σ}
    (run : Reach (CatalogHistory.step lib) allowed CatalogHistory.empty s) : s.Logged :=
  run.invariant Logged.empty fun _ _ _ h _ moved => h.step moved

/-! ## Fresh ids -/

/-- The clock has not stepped back since the creations so far. -/
def NonDecreasing (s : CatalogHistory τ σ) : HistoryMove → Prop
  | .move (.act _ (.number now)) => ∀ c ∈ s.created, c.now ≤ now
  | _ => True

instance (s : CatalogHistory τ σ) : (m : HistoryMove) → Decidable (s.NonDecreasing m)
  | .move (.act _ (.number now)) => inferInstanceAs (Decidable (∀ c ∈ s.created, c.now ≤ now))
  | .reopen | .move (.call _ _) | .move (.act _ .walk) | .move (.act _ (.pick _)) | .move (.act _ (.openNew _))
  | .move (.act _ .register) | .move (.act _ (.allocate _)) | .move (.act _ (.store _)) | .move (.act _ (.insert _))
  | .move (.act _ (.update _)) | .move (.act _ .unregister) => .isTrue trivial

/-- A job under way with a file that it created. -/
structure GivenNew (s : CatalogHistory τ σ) (j : Nat) (file : UInt64) : Prop where
  created : ∃ c ∈ s.created, c.session = s.session ∧ c.job = j ∧ c.fileId = file
  inFlight : ∃ job key, s.catalog.jobs[j]? = some job ∧ job.stage.target = some (file, key)

/-- What the creations so far, and `lastFileId`, keep. -/
structure Chronicle (s : CatalogHistory τ σ) : Prop where
  logged : s.Logged
  creations : EachAfter Creation.Chronological s.created
  last : s.catalog.store.lastFileId = 0 ∨ s.Given s.catalog.store.lastFileId

omit [OrderedStore σ SegmentMetadata SegmentMetadata.compare] in
theorem Chronicle.empty : (empty : CatalogHistory τ σ).Chronicle := ⟨Logged.empty, eachAfter_nil _, .inl rfl⟩

theorem Chronicle.step {lib : CatalogLibrary} {s s' : CatalogHistory τ σ} {m : HistoryMove} (h : s.Chronicle)
    (clock : s.NonDecreasing m) (moved : s.step lib m = some s') : s'.Chronicle := by
  have logged := h.logged.step moved
  cases m with
  | reopen =>
    cases moved
    exact ⟨logged, h.creations, .inl rfl⟩
  | move m =>
    obtain ⟨catalog, stepped, rfl⟩ := Option.map_eq_some_iff.1 moved
    have last : catalog.store.lastFileId = 0 ∨ ∃ c ∈ s.created ++ s.creates m, c.fileId = catalog.store.lastFileId := by
      obtain same | ⟨job, mem, settled⟩ := Catalog.step_lastFileId stepped
      · rw [same]
        exact h.last.imp_right fun ⟨c, mem, id⟩ => ⟨c, List.mem_append_left _ mem, id⟩
      · obtain ⟨c, mem, id⟩ := h.logged.jobs job mem _ settled
        exact .inr ⟨c, List.mem_append_left _ mem, id⟩
    have nothing : s.creates m = [] → EachAfter Creation.Chronological (s.created ++ s.creates m) := by
      intro none
      rw [none, List.append_nil]
      exact h.creations
    refine ⟨logged, ?_, last⟩
    cases m with
    | call c now => exact nothing rfl
    | act j a =>
      cases a with
      | number now => exact eachAfter_snoc.2 ⟨h.creations, clock, h.last⟩
      | _ => exact nothing rfl

/-- **New files get fresh ids**, over any run whose clock does not step back, exactly where the clock
tells each creation from those before it. -/
theorem new_files_distinct {lib : CatalogLibrary} {s : CatalogHistory τ σ} (run : Reach (step lib) NonDecreasing empty s) :
    ((s.created.map Creation.fileId).Nodup ∧ ∀ i j file, s.GivenNew i file → s.GivenNew j file → i = j) ↔
      EachAfter Creation.Spaced s.created := by
  have chronicle := run.invariant Chronicle.empty fun _ _ _ h clock moved => h.step clock moved
  rw [← nodup_iff_spaced chronicle.creations]
  constructor
  · exact And.left
  · intro distinct
    refine ⟨distinct, ?_⟩
    rintro i j file ⟨⟨c, mem, -, rfl, id⟩, -⟩ ⟨⟨c', mem', -, rfl, id'⟩, -⟩
    rw [List.inj_on_of_nodup_map distinct mem mem' (id.trans id'.symm)]

end CatalogHistory

/-! ## Walks of the table of contents -/

/-- What `selectFileFor` does with an entry its loop comes to. -/
def considerCandidate (lib : CatalogLibrary) (c : WriteCall) (candidates : List (UInt64 × Int)) (key : ContentsEntry) :
    List (UInt64 × Int) :=
  if key.totalBytes + UInt64.ofNat c.length ≤ catalogFileMaxBytes then
    candidates ++ [(key.fileId, score lib key c.indexId c.startBlock c.endBlock)]
  else candidates

/-- The loop of `selectFileFor`, in at most `fuel` rounds: the entries it considers, and its candidates. -/
def selectWalk (lib : CatalogLibrary) (c : WriteCall) : Nat → (Nat → CatalogStore τ σ) → UInt64 → List (UInt64 × Int) →
    Option (List ContentsEntry × List (UInt64 × Int))
  | 0, _, _, _ => none
  | fuel + 1, scan, cursor, candidates =>
    match findNext (scan 0).toc (ContentsEntry.key cursor) with
    | none => some ([], candidates)
    | some key =>
      if candidates.length < 16 then
        (selectWalk lib c fuel (fun k => scan (k + 1)) (key.fileId - 1) (considerCandidate lib c candidates key)).map
          fun (considered, chosen) => (key :: considered, chosen)
      else some ([], candidates)

/-- One round of the loop is one move of the job. -/
theorem Job.act_walk (lib : CatalogLibrary) (s : Catalog τ σ) (c : WriteCall) (cursor : UInt64) (candidates : List (UInt64 × Int)) :
    Job.act lib s ⟨c, .walking cursor candidates⟩ .walk = some
      (match findNext s.store.toc (ContentsEntry.key cursor) with
      | none => (.picking (lib.sorted candidates), s.store)
      | some key =>
        if candidates.length < 16 then (.walking (key.fileId - 1) (considerCandidate lib c candidates key), s.store)
        else (.picking (lib.sorted candidates), s.store)) := by
  simp only [Job.act]
  cases findNext s.store.toc (ContentsEntry.key cursor) with
  | none => rfl
  | some key =>
    dsimp only
    split <;> rfl

omit [OrderedStore σ SegmentMetadata SegmentMetadata.compare] in
/-- The loop ends, wherever it starts, and comes to the entries by strictly decreasing ids. -/
theorem selectWalk_ends (lib : CatalogLibrary) (c : WriteCall) : ∀ {fuel : Nat} (scan : Nat → CatalogStore τ σ) (cursor : UInt64)
    (candidates : List (UInt64 × Int)), (∀ k, ∀ r ∈ records (scan k).toc, r.fileId ≠ 0) → cursor.toNat < fuel →
    ∃ entries chosen, (∀ more, fuel ≤ more → selectWalk lib c more scan cursor candidates = some (entries, chosen)) ∧
      Descending entries ∧ ∀ r ∈ entries, r.fileId ≤ cursor := by
  intro fuel
  induction fuel with
  | zero => intro scan cursor candidates nonzero enough; omega
  | succ fuel ih =>
    intro scan cursor candidates nonzero enough
    have round : ∀ {entries chosen}, (∀ more, selectWalk lib c (more + 1) scan cursor candidates = some (entries, chosen)) →
        ∀ more, fuel + 1 ≤ more → selectWalk lib c more scan cursor candidates = some (entries, chosen) := by
      intro entries chosen ends more le
      obtain ⟨more, rfl⟩ : ∃ k, more = k + 1 := ⟨more - 1, by omega⟩
      exact ends more
    cases found : findNext (scan 0).toc (ContentsEntry.key cursor) with
    | none =>
      refine ⟨[], candidates, round fun more => ?_, List.Pairwise.nil, fun r mem => absurd mem List.not_mem_nil⟩
      simp only [selectWalk, found]
    | some key =>
      by_cases room : candidates.length < 16
      · obtain ⟨listed, below⟩ := mem_of_findNext found
        rw [ContentsEntry.compare_eq, Std.isLE_compare] at below
        have down := toNat_sub_one (nonzero 0 key listed)
        have le := UInt64.le_iff_toNat_le.1 below
        change key.fileId.toNat ≤ cursor.toNat at le
        obtain ⟨entries, chosen, ends, descending, past⟩ := ih (fun k => scan (k + 1)) (key.fileId - 1)
          (considerCandidate lib c candidates key) (fun k => nonzero (k + 1)) (by omega)
        have less : ∀ r ∈ entries, r.fileId < key.fileId := by
          intro r mem
          have le := UInt64.le_iff_toNat_le.1 (past r mem)
          rw [UInt64.lt_iff_toNat_lt]
          omega
        refine ⟨key :: entries, chosen, fun more le => ?_, List.pairwise_cons.2 ⟨less, descending⟩, fun r mem => ?_⟩
        · obtain ⟨more, rfl⟩ : ∃ k, more = k + 1 := ⟨more - 1, by omega⟩
          simp only [selectWalk, found, room, if_true, ends more (by omega), Option.map_some]
        · obtain rfl | mem := List.mem_cons.1 mem
          · exact below
          · exact UInt64.le_trans (UInt64.le_of_lt (less r mem)) below
      · refine ⟨[], candidates, round fun more => ?_, List.Pairwise.nil, fun r mem => absurd mem List.not_mem_nil⟩
        simp only [selectWalk, found, room, if_false]

/-- A file whose id is not 0 after it was created. -/
def CatalogHistory.BelowLast (s : CatalogHistory τ σ) : HistoryMove → Prop
  | .move (.act _ (.number now)) => now.toNat + 1 < 2 ^ 64 ∨ s.catalog.store.lastFileId < now
  | _ => True

omit [OrderedStore τ ContentsEntry ContentsEntry.compare] [OrderedStore σ SegmentMetadata SegmentMetadata.compare] in
theorem CatalogHistory.creates_cases {s : CatalogHistory τ σ} {m : CatalogMove} {c : Creation} (mem : c ∈ s.creates m) :
    ∃ j, m = .act j (.number c.now) ∧ c.lastFileId = s.catalog.store.lastFileId := by
  cases m with
  | call call now => cases mem
  | act j a =>
    cases a with
    | number now =>
      obtain rfl := List.mem_singleton.1 mem
      exact ⟨j, rfl, rfl⟩
    | _ => cases mem

theorem CatalogHistory.nonzero {lib : CatalogLibrary} {s : CatalogHistory τ σ}
    (run : Reach (CatalogHistory.step lib) CatalogHistory.BelowLast CatalogHistory.empty s) :
    ∀ r ∈ records s.catalog.store.toc, r.fileId ≠ 0 := by
  have ids : ∀ c ∈ s.created, c.fileId ≠ 0 := by
    refine run.invariant (P := fun s => ∀ c ∈ s.created, c.fileId ≠ 0) (fun c mem => absurd mem List.not_mem_nil) ?_
    intro s m s' before below moved
    cases m with
    | reopen =>
      cases moved
      exact before
    | move m =>
      obtain ⟨catalog, -, rfl⟩ := Option.map_eq_some_iff.1 moved
      intro c mem
      obtain mem | mem := List.mem_append.1 mem
      · exact before c mem
      · obtain ⟨j, rfl, last⟩ := creates_cases mem
        rw [Creation.fileId, last]
        exact newFileId_ne_zero below
  intro r listed zero
  obtain ⟨c, mem, id⟩ := (Logged.reach run).toc r listed
  exact ids c mem (id.trans zero)

/-- **Walks end**: while the table changes between any two rounds, the loops of `rangeScan` and
`selectFileFor` stop, and come to each file at most once, by strictly decreasing ids. -/
theorem walks_end {lib : CatalogLibrary} {scan : Nat → CatalogHistory τ σ}
    (runs : ∀ k, Reach (CatalogHistory.step lib) CatalogHistory.BelowLast CatalogHistory.empty (scan k)) (now : UInt64)
    (c : WriteCall) :
    (∀ k, ∀ r ∈ records (scan k).catalog.store.toc, r.fileId ≠ 0) ∧
    (∃ entries, (∀ fuel, now.toNat < fuel → scanned fuel (fun k => (scan k).catalog.store) now = some entries) ∧
      Descending entries) ∧
    ∃ entries candidates, (∀ fuel, now.toNat < fuel →
      selectWalk lib c fuel (fun k => (scan k).catalog.store) now [] = some (entries, candidates)) ∧ Descending entries := by
  have nonzero : ∀ k, ∀ r ∈ records (scan k).catalog.store.toc, r.fileId ≠ 0 := fun k => CatalogHistory.nonzero (runs k)
  refine ⟨nonzero, scanned_ends nonzero now, ?_⟩
  obtain ⟨entries, candidates, ends, descending, -⟩ := selectWalk_ends lib c (fun k => (scan k).catalog.store) now [] nonzero
    (Nat.lt_succ_self now.toNat)
  exact ⟨entries, candidates, fun fuel enough => ends fuel (by omega), descending⟩

omit [OrderedStore σ SegmentMetadata SegmentMetadata.compare] in
/-- With a file of id 0 the loop of `rangeScan` goes on for ever. -/
theorem scanned_none_of_zero {store : CatalogStore τ σ} {r : ContentsEntry} (listed : r ∈ records store.toc)
    (zero : r.fileId = 0) (fuel : Nat) (now : UInt64) : scanned fuel (fun _ => store) now = none := by
  have more : ∀ fuel cursor, walk (fun _ => store.toc) (fun _ => false) olderFile fuel cursor = none := by
    intro fuel
    induction fuel with
    | zero => intro cursor; rfl
    | succ fuel ih =>
      intro cursor
      have below : (ContentsEntry.compare cursor r).isLE := by
        rw [ContentsEntry.compare_eq, zero, Std.isLE_compare, UInt64.le_iff_toNat_le]
        exact Nat.zero_le _
      obtain ⟨next, found, -⟩ := findNext_least listed below
      simp only [walk, found, ih]
      rfl
  exact more fuel _

/-! ## What a scan sees -/

/-- The clock has come to the reading a file was created at, and past it where its id is one more. -/
def Creation.SeenAt (c : Creation) (now : UInt64) : Prop :=
  if c.now ≤ c.lastFileId then c.now < now else c.now ≤ now

/-- `rangeScan` ends and comes to every entry of the table of contents. -/
def CatalogStore.Considers (store : CatalogStore τ σ) (now : UInt64) : Prop :=
  ∃ fuel entries, scanned fuel (fun _ => store) now = some entries ∧ ∀ r ∈ records store.toc, r ∈ entries

theorem Creation.seenAt_iff (c : Creation) (now : UInt64) : c.SeenAt now ↔ c.fileId ≠ 0 ∧ c.fileId ≤ now := by
  unfold Creation.SeenAt Creation.fileId newFileId
  have bound := c.now.toNat_lt
  have bound' := now.toNat_lt
  have zero : (0 : UInt64).toNat = 0 := rfl
  have one : (1 : UInt64).toNat = 1 := rfl
  split
  · rw [Ne, ← UInt64.toNat_inj, UInt64.le_iff_toNat_le, UInt64.lt_iff_toNat_lt, UInt64.toNat_add]
    omega
  · rename_i above
    rw [UInt64.le_iff_toNat_le] at above
    rw [Ne, ← UInt64.toNat_inj, UInt64.le_iff_toNat_le]
    omega

omit [OrderedStore σ SegmentMetadata SegmentMetadata.compare] in
/-- A scan considers every entry exactly where no id is 0 or past its reading. -/
theorem CatalogStore.considers_iff (store : CatalogStore τ σ) (now : UInt64) :
    store.Considers now ↔ ∀ r ∈ records store.toc, r.fileId ≠ 0 ∧ r.fileId ≤ now := by
  constructor
  · rintro ⟨fuel, entries, ends, all⟩
    have nonzero : ∀ r ∈ records store.toc, r.fileId ≠ 0 := by
      intro r listed zero
      rw [scanned_none_of_zero listed zero] at ends
      cases ends
    have advances : Advances (fun _ : Nat => store.toc) (fun _ => false) olderFile := rangeScan_advances fun _ => nonzero
    intro r listed
    obtain ⟨-, above, -⟩ := mem_of_mem_walk advances ends r (all r listed)
    rw [ContentsEntry.compare_eq, Std.isLE_compare] at above
    exact ⟨nonzero r listed, above⟩
  · intro range
    have nonzero : ∀ r ∈ records store.toc, r.fileId ≠ 0 := fun r listed => (range r listed).1
    have advances : Advances (fun _ : Nat => store.toc) (fun _ => false) olderFile := rangeScan_advances fun _ => nonzero
    obtain ⟨entries, ends, -⟩ : ∃ entries, (∀ fuel, now.toNat < fuel → scanned fuel (fun _ => store) now = some entries) ∧
        Descending entries := scanned_ends (fun _ => nonzero) now
    have walked := ends (now.toNat + 1) (Nat.lt_succ_self _)
    refine ⟨now.toNat + 1, entries, walked, fun r listed => ?_⟩
    have below : (ContentsEntry.compare (ContentsEntry.key now) r).isLE := by
      rw [ContentsEntry.compare_eq]
      exact Std.isLE_compare.2 (range r listed).2
    obtain ⟨v, mem, same⟩ := mem_walk (x := r) advances walked (fun _ => ⟨r, listed, Std.ReflCmp.compare_self⟩) below
      fun _ _ _ _ _ => rfl
    obtain ⟨-, -, -, stored⟩ := mem_of_mem_walk advances walked v mem
    exact eq_of_cmp_eq stored listed same ▸ mem

/-- **What a scan sees**: in every state of a catalog under any clock, `rangeScan` considers every entry
exactly where its reading has come to the creations of all listed files. -/
theorem rangeScan_considers_iff {lib : CatalogLibrary} {s : CatalogHistory τ σ}
    (run : Reach (CatalogHistory.step lib) (fun _ _ => True) CatalogHistory.empty s) (now : UInt64) :
    s.catalog.store.Considers now ↔ ∀ c ∈ s.created, s.catalog.Listed c.fileId → c.SeenAt now := by
  rw [CatalogStore.considers_iff]
  constructor
  · rintro range c - ⟨r, listed, id⟩
    rw [c.seenAt_iff, ← id]
    exact range r listed
  · intro seen r listed
    obtain ⟨c, mem, id⟩ := (CatalogHistory.Logged.reach run).toc r listed
    have at_reading := seen c mem ⟨r, listed, id.symm⟩
    rwa [c.seenAt_iff, id] at at_reading

end History

/-! ## Creations in one millisecond -/

section Runs

/-- Histories of catalogs kept as sorted lists. -/
abbrev ListHistory :=
  CatalogHistory (SortedRecords ContentsEntry ContentsEntry.compare) (SortedRecords SegmentMetadata SegmentMetadata.compare)

/-- The moves of a call up to its submission with a new file, over a table it finds nothing in. -/
def creatingMoves (c : WriteCall) (j : Nat) (now : UInt64) : List HistoryMove :=
  [.call c now, .act j .walk, .act j (.number now), .act j (.openNew true), .act j .register].map .move

/-- The moves of its task. -/
def taskMoves (j : Nat) (length : Nat) : List HistoryMove := (writingMoves j 4096 length).map .move

/-- A call for block 7 of an index. -/
def blockSeven (indexId : UInt16) : WriteCall := ⟨indexId, 1, 0, 7, 8, [1, 2]⟩

/-- Two calls in millisecond 50, and their tasks. -/
def twoFiles : List HistoryMove :=
  creatingMoves (blockSeven 3) 0 50 ++ creatingMoves (blockSeven 4) 1 50 ++ taskMoves 0 2 ++ taskMoves 1 2

/-- Three calls in millisecond 50. -/
def threeFiles : List HistoryMove :=
  creatingMoves (blockSeven 3) 0 50 ++ creatingMoves (blockSeven 4) 1 50 ++ creatingMoves (blockSeven 5) 2 50

/-- Two calls in the last millisecond there is, and their tasks. -/
def lastFiles : List HistoryMove :=
  creatingMoves (blockSeven 3) 0 (UInt64.ofNat (2 ^ 64 - 1)) ++ creatingMoves (blockSeven 4) 1 (UInt64.ofNat (2 ^ 64 - 1)) ++
    taskMoves 0 2 ++ taskMoves 1 2

/-- What the three calls come to. -/
theorem threeFiles_reach : ∃ s : ListHistory,
    Reach (CatalogHistory.step plainLibrary) CatalogHistory.NonDecreasing CatalogHistory.empty s ∧
    s.created = [⟨50, 0, 0, 0⟩, ⟨50, 50, 0, 1⟩, ⟨50, 51, 0, 2⟩] ∧ s.session = 0 ∧
    s.catalog.jobs.map Job.stage =
      [.queued 50 (ContentsEntry.fresh 50), .queued 51 (ContentsEntry.fresh 51), .queued 51 (ContentsEntry.fresh 51)] := by
  have reached : (moves (fun s m => if s.NonDecreasing m then CatalogHistory.step plainLibrary s m else none) threeFiles
      (CatalogHistory.empty : ListHistory)).map (fun s => (s.created, s.session, s.catalog.jobs.map Job.stage)) =
      some ([⟨50, 0, 0, 0⟩, ⟨50, 50, 0, 1⟩, ⟨50, 51, 0, 2⟩], 0,
        [.queued 50 (ContentsEntry.fresh 50), .queued 51 (ContentsEntry.fresh 51), .queued 51 (ContentsEntry.fresh 51)]) := by
    decide +kernel
  obtain ⟨s, reached, eq⟩ := Option.map_eq_some_iff.1 reached
  obtain ⟨created, eq⟩ := Prod.mk.inj eq
  obtain ⟨session, jobs⟩ := Prod.mk.inj eq
  exact ⟨s, Reach.guarded threeFiles .refl reached, created, session, jobs⟩

/-- A job at a stage of the catalog it is in. -/
theorem exists_job_of_stage {τ σ : Type} {s : Catalog τ σ} {stages : List Stage} (all : s.jobs.map Job.stage = stages) {j : Nat}
    {stage : Stage} (here : stages[j]? = some stage) : ∃ job, s.jobs[j]? = some job ∧ job.stage = stage := by
  rw [← all, List.getElem?_map] at here
  exact Option.map_eq_some_iff.1 here

/-- The second and the third call of one millisecond get one id. -/
theorem new_files_collide : ∃ s : ListHistory,
    Reach (CatalogHistory.step plainLibrary) CatalogHistory.NonDecreasing CatalogHistory.empty s ∧
    ¬ (s.created.map Creation.fileId).Nodup ∧ s.GivenNew 1 51 ∧ s.GivenNew 2 51 := by
  obtain ⟨s, reached, created, session, stages⟩ := threeFiles_reach
  obtain ⟨job, second, stage⟩ := exists_job_of_stage stages (j := 1) rfl
  obtain ⟨job', third, stage'⟩ := exists_job_of_stage stages (j := 2) rfl
  refine ⟨s, reached, ?_, ⟨⟨⟨50, 50, 0, 1⟩, ?_, session.symm, rfl, by decide⟩, job, _, second, by rw [stage]; rfl⟩,
    ⟨⟨50, 51, 0, 2⟩, ?_, session.symm, rfl, by decide⟩, job', _, third, by rw [stage']; rfl⟩
  · rw [created]
    decide
  · rw [created]
    decide
  · rw [created]
    decide

/-- Two calls in one millisecond get ids of their own. -/
theorem new_files_distinct_two : ∃ s : ListHistory,
    Reach (CatalogHistory.step plainLibrary) CatalogHistory.NonDecreasing CatalogHistory.empty s ∧
    s.created = [⟨50, 0, 0, 0⟩, ⟨50, 50, 0, 1⟩] ∧
    (s.created.map Creation.fileId).Nodup ∧ ∀ i j file, s.GivenNew i file → s.GivenNew j file → i = j := by
  have counted : (moves (fun s m => if s.NonDecreasing m then CatalogHistory.step plainLibrary s m else none) twoFiles
      (CatalogHistory.empty : ListHistory)).map (fun s => s.created) = some [⟨50, 0, 0, 0⟩, ⟨50, 50, 0, 1⟩] := by decide +kernel
  obtain ⟨s, reached, created⟩ := Option.map_eq_some_iff.1 counted
  have run := Reach.guarded twoFiles .refl reached
  refine ⟨s, run, created, (CatalogHistory.new_files_distinct run).2 ?_⟩
  rw [created]
  have first : EachAfter Creation.Spaced ([] ++ [⟨50, 0, 0, 0⟩]) := by
    refine eachAfter_snoc.2 ⟨eachAfter_nil _, ?_⟩
    unfold Creation.Spaced
    decide
  have spaced : EachAfter Creation.Spaced ([⟨50, 0, 0, 0⟩] ++ [⟨50, 50, 0, 1⟩]) := by
    refine eachAfter_snoc.2 ⟨first, ?_⟩
    unfold Creation.Spaced
    decide
  exact spaced

/-- The state after two calls in millisecond 50 and their tasks. -/
theorem twoFiles_reach : ∃ s : ListHistory, moves (CatalogHistory.step plainLibrary) twoFiles CatalogHistory.empty = some s ∧
    s.created = [⟨50, 0, 0, 0⟩, ⟨50, 50, 0, 1⟩] ∧ (records s.catalog.store.toc).map ContentsEntry.fileId = [51, 50] ∧
    s.catalog.jobs.map Job.stage = [.finished 50 4096, .finished 51 4096] ∧
    rangeScan 5 (fun _ => s.catalog.store) 4 0 20 50 = some [] := by
  have reached : (moves (CatalogHistory.step plainLibrary) twoFiles (CatalogHistory.empty : ListHistory)).map
      (fun s => (s.created, (records s.catalog.store.toc).map ContentsEntry.fileId, s.catalog.jobs.map Job.stage,
        rangeScan 5 (fun _ => s.catalog.store) 4 0 20 50)) =
      some ([⟨50, 0, 0, 0⟩, ⟨50, 50, 0, 1⟩], [51, 50], [.finished 50 4096, .finished 51 4096], some []) := by
    decide +kernel
  obtain ⟨s, reached, eq⟩ := Option.map_eq_some_iff.1 reached
  obtain ⟨created, eq⟩ := Prod.mk.inj eq
  obtain ⟨listed, eq⟩ := Prod.mk.inj eq
  obtain ⟨stages, missed⟩ := Prod.mk.inj eq
  exact ⟨s, reached, created, listed, stages, missed⟩

/-- A scan in millisecond 50 does not come to the file of the second call, whose task is through. -/
theorem rangeScan_misses_file : ∃ s : ListHistory,
    moves (CatalogHistory.step plainLibrary) twoFiles CatalogHistory.empty = some s ∧
    s.catalog.jobs.map Job.stage = [.finished 50 4096, .finished 51 4096] ∧
    rangeScan 5 (fun _ => s.catalog.store) 4 0 20 50 = some [] ∧ ¬ s.catalog.store.Considers 50 := by
  obtain ⟨s, reached, -, ids, stages, missed⟩ := twoFiles_reach
  refine ⟨s, reached, stages, missed, fun considers => ?_⟩
  obtain ⟨r, listed, id⟩ := List.mem_map.1 (ids ▸ List.mem_cons_self : (51 : UInt64) ∈ (records s.catalog.store.toc).map ContentsEntry.fileId)
  have le := ((s.catalog.store.considers_iff 50).1 considers r listed).2
  rw [id] at le
  exact absurd le (by decide)

/-- A scan in millisecond 51 comes to both files. -/
theorem rangeScan_considers_both : ∃ s : ListHistory,
    moves (CatalogHistory.step plainLibrary) twoFiles CatalogHistory.empty = some s ∧ s.catalog.store.Considers 51 := by
  obtain ⟨s, reached, created, -⟩ := twoFiles_reach
  refine ⟨s, reached, (rangeScan_considers_iff (Reach.refl.moves twoFiles reached) 51).2 ?_⟩
  rw [created]
  intro c mem _
  obtain rfl | mem := List.mem_cons.1 mem
  · unfold Creation.SeenAt
    decide
  · obtain rfl := List.mem_singleton.1 mem
    unfold Creation.SeenAt
    decide

/-- With two files created in the last millisecond the id of the second is 0, and `rangeScan` does not end. -/
theorem rangeScan_never_ends : ∃ s : ListHistory,
    moves (CatalogHistory.step plainLibrary) lastFiles CatalogHistory.empty = some s ∧
    (∃ r ∈ records s.catalog.store.toc, r.fileId = 0) ∧
    ∀ fuel now, scanned fuel (fun _ => s.catalog.store) now = none := by
  have reached : (moves (CatalogHistory.step plainLibrary) lastFiles (CatalogHistory.empty : ListHistory)).map
      (fun s => (records s.catalog.store.toc).map ContentsEntry.fileId) = some [UInt64.ofNat (2 ^ 64 - 1), 0] := by
    decide +kernel
  obtain ⟨s, reached, ids⟩ := Option.map_eq_some_iff.1 reached
  obtain ⟨r, listed, zero⟩ : ∃ r ∈ records s.catalog.store.toc, r.fileId = 0 := by
    refine List.mem_map.1 ?_
    rw [ids]
    exact List.mem_cons_of_mem _ (List.mem_singleton_self _)
  exact ⟨s, reached, ⟨r, listed, zero⟩, fun fuel now => scanned_none_of_zero listed zero fuel now⟩

instance {τ σ : Type} (s : CatalogHistory τ σ) : (m : HistoryMove) → Decidable (s.BelowLast m)
  | .move (.act _ (.number now)) => inferInstanceAs (Decidable (now.toNat + 1 < 2 ^ 64 ∨ s.catalog.store.lastFileId < now))
  | .reopen | .move (.call _ _) | .move (.act _ .walk) | .move (.act _ (.pick _)) | .move (.act _ (.openNew _))
  | .move (.act _ .register) | .move (.act _ (.allocate _)) | .move (.act _ (.store _)) | .move (.act _ (.insert _))
  | .move (.act _ (.update _)) | .move (.act _ .unregister) => .isTrue trivial

/-- A file created at reading 0 has id 1, and walks over it end. -/
theorem walks_end_from_zero : ∃ s : ListHistory,
    Reach (CatalogHistory.step plainLibrary) CatalogHistory.BelowLast CatalogHistory.empty s ∧
    (records s.catalog.store.toc).map ContentsEntry.fileId = [1] ∧
    (∃ entries, (∀ fuel, 5 < fuel → scanned fuel (fun _ => s.catalog.store) 5 = some entries) ∧ Descending entries) ∧
    ∃ entries candidates, (∀ fuel, 5 < fuel →
      selectWalk plainLibrary (blockSeven 4) fuel (fun _ => s.catalog.store) 5 [] = some (entries, candidates)) ∧
      Descending entries := by
  have reached : (moves (fun s m => if s.BelowLast m then CatalogHistory.step plainLibrary s m else none)
      (creatingMoves (blockSeven 3) 0 0 ++ taskMoves 0 2) (CatalogHistory.empty : ListHistory)).map
      (fun s => (records s.catalog.store.toc).map ContentsEntry.fileId) = some [1] := by decide +kernel
  obtain ⟨s, reached, ids⟩ := Option.map_eq_some_iff.1 reached
  have run := Reach.guarded _ .refl reached
  exact ⟨s, run, ids, (walks_end (fun _ => run) 5 (blockSeven 4)).2⟩

end Runs

end MagelessChain
