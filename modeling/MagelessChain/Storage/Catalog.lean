import MagelessChain.Chain.Design
import MagelessChain.Lib.Machine
import MagelessChain.Lib.OrderedStore
import Mathlib.Logic.Function.Basic

/-!
# The catalog

`storage/Catalog.{h,cpp}` and `storage/CatalogFile.{h,cpp}`: segments in numbered files, a table
of contents with one summary a file, writes that run half in their caller and half on the
executor, and queries. A call of `writeSegment` and its background task are one job; a job's
stage says where it stands, and each move of a job is one call it makes on the shared stores.
libexcessive's `BTree` is taken as an `OrderedStore`, its `FreeSpaceFile` by what it hands out.
-/

namespace MagelessChain

open Lib Std

/-- `catalog_contents_entry_t`. -/
structure ContentsEntry where
  fileId : UInt64
  blockRangeMin : UInt64
  blockRangeMax : UInt64
  totalBytes : UInt64
  bloom : BitVec 256
  segmentCount : UInt32
  deriving DecidableEq

/-- `catalog_contents_entry_t::compare`: by file id, newest first. -/
def ContentsEntry.compare (a b : ContentsEntry) : Ordering :=
  if a.fileId < b.fileId then .gt
  else if a.fileId > b.fileId then .lt
  else .eq

theorem ContentsEntry.compare_eq (a b : ContentsEntry) : compare a b = Ord.compare b.fileId a.fileId := by
  have fields := lt_gt_eq_then b.fileId a.fileId .eq
  rw [Ordering.then_eq] at fields
  rw [← fields, compare]
  by_cases lt : a.fileId < b.fileId
  · have ge : ¬ b.fileId < a.fileId := UInt64.not_lt.2 (UInt64.le_of_lt lt)
    simp [lt, ge]
  · simp [lt]

instance : TransCmp ContentsEntry.compare := by
  have flip : ContentsEntry.compare = fun a b => compareOn ContentsEntry.fileId b a := by
    funext a b
    exact ContentsEntry.compare_eq a b
  rw [flip]
  infer_instance

/-- A key of the table of contents: the file id and zeros. -/
def ContentsEntry.key (fileId : UInt64) : ContentsEntry := ⟨fileId, 0, 0, 0, 0, 0⟩

/-- The entry of a file with nothing in it. -/
def ContentsEntry.fresh (fileId : UInt64) : ContentsEntry := ⟨fileId, UInt64.ofNat (2 ^ 64 - 1), 0, 0, 0, 0⟩

/-- `segment_btree_metadata_t`. -/
structure SegmentMetadata where
  blockRangeStart : UInt64
  blockRangeEnd : UInt64
  byteOffset : UInt64
  byteLength : UInt64
  checksum : UInt64
  mergeGeneration : UInt32
  indexId : UInt16
  encodingVersion : UInt16
  deriving DecidableEq

namespace SegmentMetadata

/-- `segment_btree_metadata_t::compare`. -/
def compare (a b : SegmentMetadata) : Ordering :=
  if a.indexId < b.indexId then .lt
  else if a.indexId > b.indexId then .gt
  else if a.blockRangeStart < b.blockRangeStart then .lt
  else if a.blockRangeStart > b.blockRangeStart then .gt
  else if a.mergeGeneration < b.mergeGeneration then .lt
  else if a.mergeGeneration > b.mergeGeneration then .gt
  else .eq

/-- `segment_btree_metadata_t::successor`. -/
def successor (s : SegmentMetadata) : SegmentMetadata :=
  if s.mergeGeneration ≠ UInt32.ofNat (2 ^ 32 - 1) then { s with mergeGeneration := s.mergeGeneration + 1 }
  else if s.blockRangeStart ≠ UInt64.ofNat (2 ^ 64 - 1) then
    { s with mergeGeneration := 0, blockRangeStart := s.blockRangeStart + 1 }
  else if s.indexId ≠ UInt16.ofNat (2 ^ 16 - 1) then
    { s with mergeGeneration := 0, blockRangeStart := 0, indexId := s.indexId + 1 }
  else { s with mergeGeneration := 0, blockRangeStart := 0 }

/-- The order of a segment index is lexicographic. -/
theorem compare_eq_lex : compare =
    compareLex (compareOn indexId) (compareLex (compareOn blockRangeStart) (compareOn mergeGeneration)) := by
  funext a b
  simp only [compare, compareLex, compareOn, lt_gt_eq_then, Ordering.then_eq]

instance : TransCmp compare := by
  rw [compare_eq_lex]
  infer_instance

/-- The key fields as one number. -/
def rank (s : SegmentMetadata) : Nat :=
  (s.indexId.toNat * 2 ^ 64 + s.blockRangeStart.toNat) * 2 ^ 32 + s.mergeGeneration.toNat

theorem compare_eq_rank (a b : SegmentMetadata) : compare a b = Ord.compare a.rank b.rank := by
  rw [rank, rank, compare_digits a.mergeGeneration.toNat_lt b.mergeGeneration.toNat_lt,
    compare_digits a.blockRangeStart.toNat_lt b.blockRangeStart.toNat_lt, compare_eq_lex]
  simp only [compareLex, compareOn]
  rw [compare_toNat fun _ _ => UInt16.lt_iff_toNat_lt, compare_toNat fun _ _ => UInt64.lt_iff_toNat_lt,
    compare_toNat fun _ _ => UInt32.lt_iff_toNat_lt, Ordering.then_assoc]

/-- The greatest key there is. -/
def IsLast (s : SegmentMetadata) : Prop :=
  s.indexId = UInt16.ofNat (2 ^ 16 - 1) ∧ s.blockRangeStart = UInt64.ofNat (2 ^ 64 - 1) ∧
    s.mergeGeneration = UInt32.ofNat (2 ^ 32 - 1)

/-- `successor` counts up, with a carry from field to field. -/
theorem rank_successor {s : SegmentMetadata} (more : ¬ s.IsLast) : s.successor.rank = s.rank + 1 := by
  unfold successor
  split
  · rename_i below
    have bound := s.mergeGeneration.toNat_lt
    have ne : s.mergeGeneration.toNat ≠ 2 ^ 32 - 1 := fun last => below (UInt32.toNat_inj.1 last)
    have up : (s.mergeGeneration + 1).toNat = s.mergeGeneration.toNat + 1 := by
      rw [UInt32.toNat_add]
      exact Nat.mod_eq_of_lt (by change s.mergeGeneration.toNat + 1 < 2 ^ 32; omega)
    unfold rank
    dsimp only
    omega
  · rename_i generation
    have generation := not_not.1 generation
    have low : s.mergeGeneration.toNat = 2 ^ 32 - 1 := by rw [generation]; rfl
    split
    · rename_i below
      have up := toNat_add_one below
      have zero : (0 : UInt32).toNat = 0 := rfl
      unfold rank
      dsimp only
      omega
    · rename_i start
      have start := not_not.1 start
      have mid : s.blockRangeStart.toNat = 2 ^ 64 - 1 := by rw [start]; rfl
      have below : s.indexId ≠ UInt16.ofNat (2 ^ 16 - 1) := fun last => more ⟨last, start, generation⟩
      rw [if_pos below]
      have bound := s.indexId.toNat_lt
      have ne : s.indexId.toNat ≠ 2 ^ 16 - 1 := fun last => below (UInt16.toNat_inj.1 last)
      have up : (s.indexId + 1).toNat = s.indexId.toNat + 1 := by
        rw [UInt16.toNat_add]
        exact Nat.mod_eq_of_lt (by change s.indexId.toNat + 1 < 2 ^ 16; omega)
      have zero : (0 : UInt32).toNat = 0 := rfl
      have zero' : (0 : UInt64).toNat = 0 := rfl
      unfold rank
      dsimp only
      omega

end SegmentMetadata

/-! ## Bloom filter and scores -/

/-- `bloomKeyHash`: two bits of a 256-bit word. -/
def bloomKeyHash (indexId : UInt16) : BitVec 256 :=
  let miniHash := indexId.toUInt64 * 15879638260049341073 + 5277654339219660263
  let hash1 := miniHash % 2404975667
  let hash2 := miniHash % 3414420799
  BitVec.twoPow 256 (hash1 &&& 255).toNat ||| BitVec.twoPow 256 (hash2 &&& 255).toNat

/-- `bloomMaybeContains`. -/
def bloomMaybeContains (bits : BitVec 256) (indexId : UInt16) : Bool :=
  bits &&& bloomKeyHash indexId == bloomKeyHash indexId

/-- `blockRangeDistance`. -/
def blockRangeDistance (e : ContentsEntry) (segStart segEnd : UInt64) : UInt64 :=
  if e.segmentCount = 0 then 0
  else if segEnd < e.blockRangeMin then e.blockRangeMin - segEnd
  else if segStart > e.blockRangeMax then segStart - e.blockRangeMax
  else 0

def catalogFileMaxBytes : UInt64 := 2047 * 1024 * 1024

/-- What the catalog takes from libraries: the integer part of a `double` square root, the order
`StaticPriorityQueue` sorts its keys into by score, and the checksum. -/
structure CatalogLibrary where
  intSqrt : UInt64 → Int
  sorted : List (UInt64 × Int) → List UInt64
  checksum : Bytes → UInt64

/-- The number of set bits. -/
def countBits (bits : BitVec 256) : Nat := (List.range 256).countP bits.getLsbD

/-- The score of a candidate file. The segment count is subtracted in 32-bit arithmetic. -/
def score (lib : CatalogLibrary) (key : ContentsEntry) (indexId : UInt16) (startBlock endBlock : UInt64) : Int :=
  let byBloom : Int := 256 - countBits key.bloom
  let byIndex := if bloomMaybeContains key.bloom indexId then byBloom + 100 else byBloom
  let byRange := byIndex - (lib.intSqrt (blockRangeDistance key startBlock endBlock)).tdiv 10
  (byRange - key.segmentCount.toNat).bmod (2 ^ 32)

/-! ## Jobs -/

/-- The arguments of `writeSegment`. -/
structure WriteCall where
  indexId : UInt16
  version : UInt16
  mergeGeneration : UInt16
  startBlock : UInt64
  endBlock : UInt64
  content : Bytes
  deriving DecidableEq, Repr

/-- The size of a segment, taken into a `uint32_t`. -/
def WriteCall.length (c : WriteCall) : Nat := (UInt32.ofNat c.content.length).toNat

/-- The bytes `createEntry` writes. -/
def WriteCall.payload (c : WriteCall) : Bytes := c.content.take c.length

theorem WriteCall.length_payload (c : WriteCall) : c.payload.length = c.length := by
  rw [WriteCall.payload, List.length_take, Nat.min_eq_left]
  rw [WriteCall.length, UInt32.toNat_ofNat']
  exact Nat.mod_le _ _

/-- The length of an entry is the one written. -/
theorem WriteCall.toNat_length (c : WriteCall) : (UInt64.ofNat c.length).toNat = c.length := by
  rw [UInt64.toNat_ofNat', Nat.mod_eq_of_lt]
  exact Nat.lt_trans (UInt32.toNat_lt _) (by decide)

/-- Where a job stands. -/
inductive Stage where
  /-- `selectFileFor`: walks the table of contents, collecting candidates -/
  | walking (cursor : UInt64) (candidates : List (UInt64 × Int))
  /-- tries one candidate after the other, under the shared lock -/
  | picking (candidates : List UInt64)
  /-- has chosen the id of a new file, still under the shared lock -/
  | opening (newId : UInt64)
  /-- `selectFileFor` returned; `key` is the caller's snapshot -/
  | chosen (file : UInt64) (key : ContentsEntry)
  /-- submitted: `writeSegment` has returned -/
  | queued (file : UInt64) (key : ContentsEntry)
  /-- `createEntry`: has a region, then its bytes are written, then it is in the segment index -/
  | allocated (file : UInt64) (key : ContentsEntry) (offset : UInt64)
  | stored (file : UInt64) (key : ContentsEntry) (offset : UInt64)
  | created (file : UInt64) (key : ContentsEntry) (offset : UInt64)
  /-- the table of contents is updated -/
  | updated (file : UInt64) (offset : UInt64)
  /-- the file is no longer registered as being written -/
  | finished (file : UInt64) (offset : UInt64)
  /-- the task threw; the file is still registered, and then no longer -/
  | failing (file : UInt64)
  | failed (file : UInt64)
  /-- `writeSegment` threw -/
  | refused (e : Exn)
  deriving DecidableEq

/-- A call of `writeSegment` and the task it submits. -/
structure Job where
  call : WriteCall
  stage : Stage
  deriving DecidableEq

/-- A catalog file: its payload bytes and its segment index. -/
structure CatalogFile (σ : Type) where
  image : Image
  segmentIndex : σ

/-- The stores the jobs share. -/
structure CatalogStore (τ σ : Type) where
  toc : τ
  files : UInt64 → Option (CatalogFile σ)
  lastFileId : UInt64
  filesBeingWritten : UInt64 → Bool

/-- A catalog and all jobs so far. -/
structure Catalog (τ σ : Type) where
  store : CatalogStore τ σ
  jobs : List Job

/-- The moves of a job, with what its surroundings supply: whether opening a file succeeds, the
clock, the region `FreeSpaceFile` hands out, how much `pwrite` writes, whether the insertion
throws, the file's size. -/
inductive Act where
  | walk
  | pick (opened : Bool)
  | number (now : UInt64)
  | openNew (opened : Bool)
  | register
  | allocate (offset : Option UInt64)
  | store (written : Option Nat)
  | insert (throws : Bool)
  | update (totalBytes : UInt64)
  | unregister

/-- A new call, or a move of a job. -/
inductive CatalogMove where
  | call (c : WriteCall) (now : UInt64)
  | act (job : Nat) (a : Act)

namespace Stage

/-- The stages in which a job holds `beingWrittenMutex` shared. -/
def sharesLock : Stage → Bool
  | .picking _ | .opening _ => true
  | _ => false

/-- The file and key of a job between `selectFileFor` and its update. -/
def target : Stage → Option (UInt64 × ContentsEntry)
  | .chosen file key | .queued file key | .allocated file key _ | .stored file key _ | .created file key _ =>
    some (file, key)
  | _ => none

/-- The region a job's payload has. -/
def region : Stage → Option (UInt64 × UInt64)
  | .allocated file _ offset | .stored file _ offset | .created file _ offset | .updated file offset
  | .finished file offset => some (file, offset)
  | _ => none

/-- The file and region of a job whose payload is written. -/
def written : Stage → Option (UInt64 × UInt64)
  | .stored file _ offset | .created file _ offset | .updated file offset | .finished file offset => some (file, offset)
  | _ => none

/-- The file and region of a job whose segment is in the file's index. -/
def inIndex : Stage → Option (UInt64 × UInt64)
  | .created file _ offset | .updated file offset | .finished file offset => some (file, offset)
  | _ => none

/-- The file of a job that has updated the table of contents. -/
def completed : Stage → Option UInt64
  | .updated file _ | .finished file _ => some file
  | _ => none

/-- The file a job has settled on. -/
def settled : Stage → Option UInt64
  | .opening file | .chosen file _ | .queued file _ | .allocated file _ _ | .stored file _ _ | .created file _ _
  | .updated file _ | .finished file _ | .failing file | .failed file => some file
  | _ => none

/-- A stage that comes after another without anything new in it. -/
structure Follows (stage' stage : Stage) : Prop where
  target : stage'.target = none ∨ stage'.target = stage.target
  region : stage'.region = none ∨ stage'.region = stage.region
  written : stage'.written = none ∨ stage'.written = stage.written
  inIndex : stage'.inIndex = stage.inIndex
  completed : stage'.completed = stage.completed
  settled : stage'.settled = none ∨ stage'.settled = stage.settled

end Stage

/-- The segment index entry `createEntry` makes. -/
def WriteCall.metadata (lib : CatalogLibrary) (c : WriteCall) (offset : UInt64) : SegmentMetadata :=
  ⟨c.startBlock, c.endBlock, offset, UInt64.ofNat c.length, lib.checksum (c.content.take (c.length / 8 * 8)),
    c.mergeGeneration.toUInt32, c.indexId, c.version⟩

/-- What the task's update makes of the entry it found. -/
def ContentsEntry.absorb (key : ContentsEntry) (c : WriteCall) (totalBytes : UInt64) : ContentsEntry :=
  { key with
    totalBytes
    blockRangeMin := min key.blockRangeMin c.startBlock
    blockRangeMax := max key.blockRangeMax c.endBlock
    bloom := key.bloom ||| bloomKeyHash c.indexId
    segmentCount := key.segmentCount + 1 }

section Moves

variable {τ σ : Type} [OrderedStore τ ContentsEntry ContentsEntry.compare]
  [OrderedStore σ SegmentMetadata SegmentMetadata.compare]

/-- A catalog over an empty directory. -/
def Catalog.empty : Catalog τ σ := ⟨⟨OrderedStore.empty, fun _ => none, 0, fun _ => false⟩, []⟩

omit [OrderedStore σ SegmentMetadata SegmentMetadata.compare] in
theorem Catalog.not_mem_empty (r : ContentsEntry) : r ∉ OrderedStore.records (Catalog.empty : Catalog τ σ).store.toc := by
  rw [show OrderedStore.records (Catalog.empty : Catalog τ σ).store.toc = [] from OrderedStore.records_empty]
  exact List.not_mem_nil

/-- Use a catalog file. -/
def CatalogStore.withFile (s : CatalogStore τ σ) (file : UInt64) (use : CatalogFile σ → CatalogFile σ) :
    CatalogStore τ σ :=
  { s with files := Function.update s.files file ((s.files file).map use) }

omit [OrderedStore τ ContentsEntry ContentsEntry.compare] [OrderedStore σ SegmentMetadata SegmentMetadata.compare] in
/-- After a use of one file, a file is the used one or as it was. -/
theorem CatalogStore.withFile_cases {s : CatalogStore τ σ} {file f : UInt64} {use : CatalogFile σ → CatalogFile σ}
    {after : CatalogFile σ} (found : (s.withFile file use).files f = some after) :
    (f = file ∧ ∃ before, s.files f = some before ∧ after = use before) ∨ (f ≠ file ∧ s.files f = some after) := by
  by_cases here : f = file
  · subst here
    simp only [CatalogStore.withFile, Function.update_self, Option.map_eq_some_iff] at found
    obtain ⟨before, there, rfl⟩ := found
    exact .inl ⟨rfl, before, there, rfl⟩
  · simp only [CatalogStore.withFile, Function.update_of_ne here] at found
    exact .inr ⟨here, found⟩

omit [OrderedStore τ ContentsEntry ContentsEntry.compare] in
/-- After one file is opened, a file is as it was, or new and empty. -/
theorem CatalogStore.opened_cases {s : CatalogStore τ σ} {file f : UInt64} {after : CatalogFile σ}
    (found : Function.update s.files file (some ((s.files file).getD ⟨Image.zero, OrderedStore.empty⟩)) f = some after) :
    s.files f = some after ∨ (s.files f = none ∧ after = ⟨Image.zero, OrderedStore.empty⟩) := by
  by_cases here : f = file
  · subst here
    rw [Function.update_self] at found
    cases before : s.files f with
    | none =>
      rw [before] at found
      cases found
      exact .inr ⟨rfl, rfl⟩
    | some old =>
      rw [before] at found
      exact .inl found
  · rw [Function.update_of_ne here] at found
    exact .inl found

/-- `FreeSpaceFile` hands out a region that no job has. -/
def Catalog.free (s : Catalog τ σ) (file offset : UInt64) (length : Nat) : Prop :=
  ∀ job ∈ s.jobs, ∀ region ∈ job.stage.region, region.1 = file →
    Image.Apart offset.toNat length region.2.toNat job.call.length

-- written out: over a type with finitely many values the quantifier would be decided by trying them all
instance (s : Catalog τ σ) (file offset : UInt64) (length : Nat) : Decidable (s.free file offset length) :=
  @List.decidableBAll _ _ (fun _ => Option.decidableForallMem _) s.jobs

/-- One move of a job: the stage it comes to and the stores it leaves, `none` where the move is
not its next. -/
def Job.act (lib : CatalogLibrary) (s : Catalog τ σ) (job : Job) (a : Act) : Option (Stage × CatalogStore τ σ) :=
  let c := job.call
  let store := s.store
  match job.stage, a with
  | .walking cursor candidates, .walk =>
    match OrderedStore.findNext store.toc (ContentsEntry.key cursor) with
    | none => some (.picking (lib.sorted candidates), store)
    | some key =>
      if candidates.length < 16 then
        let fits := key.totalBytes + UInt64.ofNat c.length ≤ catalogFileMaxBytes
        some (.walking (key.fileId - 1) (if fits then
          candidates ++ [(key.fileId, score lib key c.indexId c.startBlock c.endBlock)] else candidates), store)
      else some (.picking (lib.sorted candidates), store)
  | .picking (id :: rest), .pick opened =>
    match OrderedStore.find store.toc (ContentsEntry.key id) with
    | none => some (.refused (.runtimeError
        "Catalog file not found in BTree, despite supposedly being indexed (SEVERE BUG, REPORT THIS!)"), store)
    | some key =>
      if opened ∧ (store.files id).isSome ∧ ¬ store.filesBeingWritten id then some (.chosen id key, store)
      else some (.picking rest, store)
  | .picking [], .number now => some (.opening (if now ≤ store.lastFileId then now + 1 else now), store)
  | .opening newId, .openNew opened =>
    let store := { store with lastFileId := newId }
    if opened then
      some (.chosen newId (ContentsEntry.fresh newId), { store with
        files := Function.update store.files newId (some ((store.files newId).getD ⟨Image.zero, OrderedStore.empty⟩)) })
    else some (.refused (.runtimeError "Unable to find a catalog file to write a segment too."), store)
  | .chosen file key, .register =>
    if s.jobs.any (·.stage.sharesLock) then none
    else some (.queued file key, { store with filesBeingWritten := Function.update store.filesBeingWritten file true })
  | .queued file _, .allocate none => some (.failing file, store)
  | .queued file key, .allocate (some offset) =>
    if s.free file offset c.length then some (.allocated file key offset, store) else none
  | .allocated file key offset, .store written =>
    some (if written = some c.length then .stored file key offset else .failing file, store.withFile file fun f =>
      { f with image := f.image.write offset.toNat (c.payload.take (written.getD 0)) })
  | .stored file _ _, .insert true => some (.failing file, store)
  | .stored file key offset, .insert false =>
    some (.created file key offset, store.withFile file fun f =>
      { f with segmentIndex := OrderedStore.insert f.segmentIndex (c.metadata lib offset) })
  | .created file key offset, .update totalBytes =>
    let latest := (OrderedStore.find store.toc key).getD key
    some (.updated file offset, { store with toc := OrderedStore.overwrite store.toc (latest.absorb c totalBytes) })
  | .updated file offset, .unregister =>
    if s.jobs.any (·.stage.sharesLock) then none
    else some (.finished file offset,
      { store with filesBeingWritten := Function.update store.filesBeingWritten file false })
  | .failing file, .unregister =>
    if s.jobs.any (·.stage.sharesLock) then none
    else some (.failed file, { store with filesBeingWritten := Function.update store.filesBeingWritten file false })
  | _, _ => none

/-- One move of the catalog. -/
def Catalog.step (lib : CatalogLibrary) (s : Catalog τ σ) : CatalogMove → Option (Catalog τ σ)
  | .call c now => some { s with jobs := s.jobs ++ [⟨c, .walking now []⟩] }
  | .act j a =>
    match s.jobs[j]? with
    | none => none
    | some job => (job.act lib s a).map fun (stage, store) => ⟨store, s.jobs.set j { job with stage }⟩

/-! ## What a move can do -/

/-- The ways a job changes its stage and the shared stores. -/
inductive Job.Change (lib : CatalogLibrary) (s : Catalog τ σ) (job : Job) (a : Act) : Stage → CatalogStore τ σ → Prop where
  | quiet {stage : Stage} {store : CatalogStore τ σ} : store.toc = s.store.toc → store.files = s.store.files →
      stage.Follows job.stage → Change lib s job a stage store
  | numbered {now : UInt64} : a = .number now → job.stage = .picking [] →
      Change lib s job a (.opening (if now ≤ s.store.lastFileId then now + 1 else now)) s.store
  | picked {file : UInt64} {rest : List UInt64} {key : ContentsEntry} : job.stage = .picking (file :: rest) →
      OrderedStore.find s.store.toc (ContentsEntry.key file) = some key → (s.store.files file).isSome →
      Change lib s job a (.chosen file key) s.store
  | opened {file : UInt64} : job.stage = .opening file →
      Change lib s job a (.chosen file (ContentsEntry.fresh file)) { s.store with
        lastFileId := file
        files := Function.update s.store.files file
          (some ((s.store.files file).getD ⟨Image.zero, OrderedStore.empty⟩)) }
  | allocated {file offset : UInt64} {key : ContentsEntry} : a = .allocate (some offset) → job.stage = .queued file key →
      s.free file offset job.call.length → Change lib s job a (.allocated file key offset) s.store
  | wrote {file offset : UInt64} {key : ContentsEntry} {stage : Stage} {bytes : Bytes} :
      job.stage = .allocated file key offset → bytes.length ≤ job.call.payload.length →
      ((stage = .stored file key offset ∧ bytes = job.call.payload) ∨ stage = .failing file) →
      Change lib s job a stage (s.store.withFile file fun f => { f with image := f.image.write offset.toNat bytes })
  | inserted {file offset : UInt64} {key : ContentsEntry} : job.stage = .stored file key offset →
      Change lib s job a (.created file key offset) (s.store.withFile file fun f =>
        { f with segmentIndex := OrderedStore.insert f.segmentIndex (job.call.metadata lib offset) })
  | updated {file offset totalBytes : UInt64} {key : ContentsEntry} : job.stage = .created file key offset →
      Change lib s job a (.updated file offset) { s.store with
        toc := OrderedStore.overwrite s.store.toc
          (((OrderedStore.find s.store.toc key).getD key).absorb job.call totalBytes) }

/-- Every move of a job is one of these changes. -/
theorem Job.act_change {lib : CatalogLibrary} {s : Catalog τ σ} {job : Job} {a : Act} {stage : Stage}
    {store : CatalogStore τ σ} (h : job.act lib s a = some (stage, store)) : job.Change lib s a stage store := by
  unfold Job.act at h
  dsimp only at h
  split at h
  · rename_i cursor candidates at_walking
    have quiet : ∀ {stage' : Stage}, stage'.Follows job.stage → some (stage', s.store) = some (stage, store) →
        job.Change lib s .walk stage store := by
      intro stage' follows eq
      cases eq
      exact .quiet rfl rfl follows
    split at h
    · exact quiet (at_walking ▸ ⟨.inl rfl, .inl rfl, .inl rfl, rfl, rfl, .inl rfl⟩) h
    · split at h
      · exact quiet (at_walking ▸ ⟨.inl rfl, .inl rfl, .inl rfl, rfl, rfl, .inl rfl⟩) h
      · exact quiet (at_walking ▸ ⟨.inl rfl, .inl rfl, .inl rfl, rfl, rfl, .inl rfl⟩) h
  · rename_i file rest opened at_picking
    split at h
    · cases h
      exact .quiet rfl rfl (at_picking ▸ ⟨.inl rfl, .inl rfl, .inl rfl, rfl, rfl, .inl rfl⟩)
    · rename_i key found
      split at h
      · rename_i fine
        cases h
        exact .picked at_picking found fine.2.1
      · cases h
        exact .quiet rfl rfl (at_picking ▸ ⟨.inl rfl, .inl rfl, .inl rfl, rfl, rfl, .inl rfl⟩)
  · rename_i now at_end
    cases h
    exact .numbered rfl at_end
  · rename_i file opened at_opening
    split at h
    · cases h
      exact .opened at_opening
    · cases h
      exact .quiet rfl rfl (at_opening ▸ ⟨.inl rfl, .inl rfl, .inl rfl, rfl, rfl, .inl rfl⟩)
  · rename_i file key at_chosen
    split at h
    · cases h
    · cases h
      exact .quiet rfl rfl (at_chosen ▸ ⟨.inr rfl, .inr rfl, .inr rfl, rfl, rfl, .inr rfl⟩)
  · rename_i file key at_queued
    cases h
    exact .quiet rfl rfl (at_queued ▸ ⟨.inl rfl, .inl rfl, .inl rfl, rfl, rfl, .inr rfl⟩)
  · rename_i file key offset at_queued
    split at h
    · rename_i free
      cases h
      exact .allocated rfl at_queued free
    · cases h
  · rename_i file key offset written at_allocated
    cases h
    refine .wrote at_allocated ?_ ?_
    · rw [List.length_take]
      exact Nat.min_le_right _ _
    · split
      · rename_i whole
        subst whole
        exact .inl ⟨rfl, List.take_of_length_le (List.length_take_le _ _)⟩
      · exact .inr rfl
  · rename_i file key offset at_stored
    cases h
    exact .quiet rfl rfl (at_stored ▸ ⟨.inl rfl, .inl rfl, .inl rfl, rfl, rfl, .inr rfl⟩)
  · rename_i file key offset at_stored
    cases h
    exact .inserted at_stored
  · rename_i file key offset totalBytes at_created
    cases h
    exact .updated at_created
  · rename_i file offset at_updated
    split at h
    · cases h
    · cases h
      exact .quiet rfl rfl (at_updated ▸ ⟨.inr rfl, .inr rfl, .inr rfl, rfl, rfl, .inr rfl⟩)
  · rename_i file at_failing
    split at h
    · cases h
    · cases h
      exact .quiet rfl rfl (at_failing ▸ ⟨.inr rfl, .inr rfl, .inr rfl, rfl, rfl, .inr rfl⟩)
  · cases h

/-- A move of the catalog: a new job, or one job in the middle of the others changes. -/
theorem Catalog.step_cases {lib : CatalogLibrary} {s s' : Catalog τ σ} {m : CatalogMove} (h : s.step lib m = some s') :
    (∃ c now, m = .call c now ∧ s' = { s with jobs := s.jobs ++ [⟨c, .walking now []⟩] }) ∨
    ∃ j a job front back stage store, m = .act j a ∧ s.jobs = front ++ job :: back ∧ front.length = j ∧
      s' = ⟨store, front ++ ⟨job.call, stage⟩ :: back⟩ ∧ job.Change lib s a stage store := by
  cases m with
  | call c now =>
    simp only [Catalog.step, Option.some.injEq] at h
    exact .inl ⟨c, now, rfl, h.symm⟩
  | act j a =>
    simp only [Catalog.step] at h
    split at h
    · cases h
    · rename_i job here
      obtain ⟨⟨stage, store⟩, acted, eq⟩ := Option.map_eq_some_iff.1 h
      obtain ⟨inside, at_j⟩ := List.getElem?_eq_some_iff.1 here
      refine .inr ⟨j, a, job, s.jobs.take j, s.jobs.drop (j + 1), stage, store, rfl, ?_, ?_, ?_, Job.act_change acted⟩
      · rw [← at_j, List.getElem_cons_drop, List.take_append_drop]
      · rw [List.length_take]
        omega
      · rw [← eq, List.set_eq_take_append_cons_drop, if_pos inside]

/-- After a call, each job is the new one or was there before. -/
theorem mem_of_mem_called {jobs : List Job} {new other : Job} (mem : other ∈ jobs ++ [new]) : other = new ∨ other ∈ jobs := by
  rw [List.mem_append, List.mem_singleton] at mem
  exact mem.symm

/-- A job among others is one of them or around it. -/
theorem eq_or_mem_around {front back : List Job} {job other : Job} (mem : other ∈ front ++ job :: back) :
    other = job ∨ other ∈ front ++ back := by
  rw [List.mem_append, List.mem_cons] at mem
  rw [List.mem_append]
  rcases mem with mem | mem | mem
  · exact .inr (.inl mem)
  · exact .inl mem
  · exact .inr (.inr mem)

/-- The jobs around one of them are jobs. -/
theorem mem_of_mem_around {jobs front back : List Job} {job other : Job} (split : jobs = front ++ job :: back)
    (mem : other ∈ front ++ back) : other ∈ jobs := by
  rw [split]
  obtain mem | mem := List.mem_append.1 mem
  · exact List.mem_append_left _ mem
  · exact List.mem_append_right _ (List.mem_cons_of_mem _ mem)

/-- After a move, each job is the one that moved or was there before. -/
theorem mem_of_mem_moved {jobs front back : List Job} {job moved other : Job} (split : jobs = front ++ job :: back)
    (mem : other ∈ front ++ moved :: back) : other = moved ∨ other ∈ jobs :=
  (eq_or_mem_around mem).imp_right (mem_of_mem_around split)

/-- What holds between any two jobs holds between one and those around it. -/
theorem pairwise_around {R : Job → Job → Prop} [Std.Symm R] {jobs front back : List Job} {job other : Job}
    (split : jobs = front ++ job :: back) (h : jobs.Pairwise R) (mem : other ∈ front ++ back) : R job other := by
  subst split
  rw [List.pairwise_append, List.pairwise_cons] at h
  obtain ⟨-, ⟨after, -⟩, across⟩ := h
  obtain mem | mem := List.mem_append.1 mem
  · exact Std.Symm.symm _ _ (across other mem job List.mem_cons_self)
  · exact after other mem

/-- A relation between any two jobs after one of them moved, if the moved one has it to all the others. -/
theorem pairwise_moved {R : Job → Job → Prop} [Std.Symm R] {jobs front back : List Job} {job moved : Job}
    (split : jobs = front ++ job :: back) (h : jobs.Pairwise R)
    (own : ∀ other ∈ front ++ back, R job other → R moved other) : (front ++ moved :: back).Pairwise R := by
  have own : ∀ other ∈ front ++ back, R moved other := fun other mem => own other mem (pairwise_around split h mem)
  subst split
  rw [List.pairwise_append, List.pairwise_cons] at h ⊢
  obtain ⟨before, ⟨-, tail⟩, across⟩ := h
  refine ⟨before, ⟨fun other mem => own other (List.mem_append_right _ mem), tail⟩, fun other mem x here => ?_⟩
  obtain rfl | here := List.mem_cons.1 here
  · exact Std.Symm.symm _ _ (own other (List.mem_append_left _ mem))
  · exact across other mem x (List.mem_cons_of_mem _ here)

/-! ## Queries

A query calls the stores once a round, and jobs may move between two calls: `scan k` is the store
`rangeScan` finds in round `k`, `visit k` the one the `k`-th file is opened in. `forEachSegment`
runs under the file's read lock. -/

/-- `Catalog::rangeScan`, in at most `fuel` rounds of its loop. -/
def rangeScan (fuel : Nat) (scan : Nat → CatalogStore τ σ) (indexId : UInt16) (startBlock endBlock now : UInt64) :
    Option (List UInt64) :=
  (OrderedStore.walk (fun k => (scan k).toc) (fun _ => false) (fun key => { key with fileId := key.fileId - 1 }) fuel
    (ContentsEntry.key now)).map fun entries =>
      (entries.filter fun key => bloomKeyHash indexId &&& key.bloom == bloomKeyHash indexId &&
        (decide (key.blockRangeMin ≤ endBlock) && decide (key.blockRangeMax ≥ startBlock))).map ContentsEntry.fileId

/-- `CatalogFileReader::forEachSegment`: the segments its callback is called with. -/
def forEachSegment (fuel : Nat) (segmentIndex : σ) (indexId : UInt16) (startBlock endBlock : UInt64) :
    Option (List SegmentMetadata) :=
  (OrderedStore.walk (fun _ => segmentIndex)
    (fun cursor => decide (cursor.indexId ≠ indexId) || decide (cursor.blockRangeStart > endBlock))
    SegmentMetadata.successor fuel ⟨startBlock, 0, 0, 0, 0, 0, indexId, 0⟩).map
      (·.filter fun cursor => decide (cursor.blockRangeEnd ≥ startBlock))

/-- `forEachSegment` on one file after the other. A file that is not there is passed over. -/
def visitFiles (fuel : Nat) (indexId : UInt16) (startBlock endBlock : UInt64) :
    (Nat → CatalogStore τ σ) → List UInt64 → Option (List (UInt64 × SegmentMetadata))
  | _, [] => some []
  | visit, file :: rest =>
    match (visit 0).files file with
    | none => visitFiles fuel indexId startBlock endBlock (fun k => visit (k + 1)) rest
    | some f =>
      match forEachSegment fuel f.segmentIndex indexId startBlock endBlock,
        visitFiles fuel indexId startBlock endBlock (fun k => visit (k + 1)) rest with
      | some visited, some more => some (visited.map (file, ·) ++ more)
      | _, _ => none

/-- A query: `rangeScan`, then `forEachSegment` on each of its files. -/
def query (fuel : Nat) (scan visit : Nat → CatalogStore τ σ) (indexId : UInt16) (startBlock endBlock now : UInt64) :
    Option (List (UInt64 × SegmentMetadata)) :=
  (rangeScan fuel scan indexId startBlock endBlock now).bind (visitFiles fuel indexId startBlock endBlock visit)

end Moves

end MagelessChain
