import MagelessChain.Storage.EpochFile
import MagelessChain.Storage.CatalogToc

/-!
# Entries of a catalog file

`CatalogFile::createEntry` writes a payload into a region of the file and enters the region in the
segment index, and `CatalogFileReader::openEntry` maps the region from the page it begins in. The
length is narrowed to 32 bits where it is written, and the handle is moved from the start of the
page to the payload unless the page is the first of the file. So payloads are read back that are
shorter than 4 GiB and do not begin inside the first page.
-/

namespace MagelessChain

open Lib OrderedStore

/-! ## Reading -/

/-- A mapping of a part of a file, and the position in it, which is at first its start. -/
structure MmapHandle where
  start : UInt64
  length : UInt64
  position : UInt64 := 0
  deriving DecidableEq, Repr

namespace MmapHandle

def seek (h : MmapHandle) (offset : UInt64) : MmapHandle := { h with position := offset }

/-- The byte of the file the handle is at. -/
def offset (h : MmapHandle) : Nat := h.start.toNat + h.position.toNat

/-- The next bytes, as far as the mapping goes. -/
def next (h : MmapHandle) (image : Image) (n : Nat) : Bytes := image.read h.offset (min n (h.length.toNat - h.position.toNat))

end MmapHandle

/-- `CatalogFileReader::openEntry`. -/
def openEntry (offset size : UInt64) : MmapHandle :=
  let readOffset := offset &&& ~~~4095
  let handle : MmapHandle := { start := readOffset, length := size + (offset - readOffset) }
  if readOffset ≠ 0 then handle.seek (offset - readOffset) else handle

/-- How far into its page an offset is. -/
theorem toNat_inPage (offset : UInt64) : (offset - (offset &&& ~~~4095)).toNat = offset.toNat % 4096 := by
  have page := toNat_and_not_4095 offset
  have below : offset &&& ~~~4095 ≤ offset := by
    rw [UInt64.le_iff_toNat_le, page]
    exact Nat.div_mul_le_self _ _
  rw [UInt64.toNat_sub_of_le _ _ below, page]
  omega

/-- The handle is at the payload, unless the payload begins inside the first page. -/
theorem openEntry_offset (offset size : UInt64) :
    (openEntry offset size).offset = offset.toNat ↔ offset = 0 ∨ 4096 ≤ offset.toNat := by
  have page := toNat_and_not_4095 offset
  simp only [openEntry]
  by_cases first : offset &&& ~~~4095 = 0
  · have low : offset.toNat / 4096 * 4096 = 0 := by rw [← page, first]; rfl
    rw [if_neg (not_not.2 first)]
    simp only [MmapHandle.offset, first]
    change 0 + 0 = offset.toNat ↔ _
    rw [← UInt64.toNat_inj]
    change _ ↔ offset.toNat = 0 ∨ _
    omega
  · have high : offset.toNat / 4096 * 4096 ≠ 0 := by
      intro zero
      exact first (UInt64.toNat_inj.1 (page.trans zero))
    rw [if_pos first]
    simp only [MmapHandle.offset, MmapHandle.seek, page, toNat_inPage]
    omega

/-- The mapping reaches to the end of the payload. -/
theorem openEntry_length {offset size : UInt64} (small : size.toNat < 2 ^ 32) :
    size.toNat ≤ (openEntry offset size).length.toNat - (openEntry offset size).position.toNat := by
  have mapped : (size + (offset - (offset &&& ~~~4095))).toNat = size.toNat + offset.toNat % 4096 := by
    rw [UInt64.toNat_add, toNat_inPage]
    exact Nat.mod_eq_of_lt (by omega)
  simp only [openEntry]
  split
  · simp only [MmapHandle.seek, mapped, toNat_inPage]
    omega
  · change size.toNat ≤ (size + (offset - (offset &&& ~~~4095))).toNat - 0
    omega

/-- An entry is read back as `content`: the handle is at the payload, and its next bytes are the content. -/
structure SegmentMetadata.ReadsBack (image : Image) (e : SegmentMetadata) (content : Bytes) : Prop where
  positioned : (openEntry e.byteOffset e.byteLength).offset = e.byteOffset.toNat
  bytes : (openEntry e.byteOffset e.byteLength).next image e.byteLength.toNat = content

/-! ## Writing -/

section Writing

variable {σ : Type} [OrderedStore σ SegmentMetadata SegmentMetadata.compare]

/-- What the surroundings of `createEntry` do: the region `getFreeRegion` hands out, `none` for a
negative offset, how much `pwrite` writes, and what the insertion throws. -/
structure EntryEnv where
  region : Option UInt64
  written : Option Nat
  inserting : Option Exn
  deriving DecidableEq

/-- `CatalogFile::createEntry`. -/
def CatalogFile.createEntry (lib : CatalogLibrary) (f : CatalogFile σ) (c : WriteCall) (env : EntryEnv) :
    CatalogFile σ × Option Exn :=
  match env.region with
  | none => (f, some (.runtimeError "CatalogFile::createEntry: failed to allocate file region"))
  | some offset =>
    let f := { f with image := f.image.write offset.toNat (c.payload.take (env.written.getD 0)) }
    if env.written ≠ some c.length then (f, some (.runtimeError "CatalogFile::createEntry: pwrite failed"))
    else
      match env.inserting with
      | some e => (f, some e)
      | none => ({ f with segmentIndex := OrderedStore.insert f.segmentIndex (c.metadata lib offset) }, none)

/-- The moves of a job that writes and inserts are the ones of `createEntry` on its file. -/
theorem Job.act_createEntry {τ : Type} [OrderedStore τ ContentsEntry ContentsEntry.compare] {lib : CatalogLibrary}
    {s s' : Catalog τ σ} {c : WriteCall} {file offset : UInt64} {key : ContentsEntry} {f : CatalogFile σ}
    {stage stage' : Stage} {store' : CatalogStore τ σ} (there : s.store.files file = some f)
    (wrote : Job.act lib s ⟨c, .allocated file key offset⟩ (.store (some c.length)) = some (stage, s'.store))
    (inserted : Job.act lib s' ⟨c, stage⟩ (.insert false) = some (stage', store')) :
    stage' = .created file key offset ∧
      store'.files file = some (f.createEntry lib c ⟨some offset, some c.length, none⟩).1 := by
  simp only [Job.act, if_true, Option.some.injEq, Prod.mk.injEq] at wrote
  obtain ⟨rfl, store⟩ := wrote
  simp only [Job.act, Option.some.injEq, Prod.mk.injEq] at inserted
  obtain ⟨rfl, rfl⟩ := inserted
  constructor
  · rfl
  · rw [← store]
    simp [CatalogStore.withFile, CatalogFile.createEntry, there]

/-- A file with the regions handed out in it, and the calls that returned with the offsets they had. -/
structure EntryFile (σ : Type) where
  file : CatalogFile σ
  live : List (UInt64 × Nat)
  made : List (WriteCall × UInt64)

/-- A call of `createEntry`, or a write into a node of one of the trees. -/
inductive EntryMove where
  | createEntry (c : WriteCall) (env : EntryEnv)
  | node (offset : Nat) (bytes : Bytes)

namespace EntryFile

/-- A file nothing was written to by `createEntry`, whatever its trees have in it. -/
def new (image : Image) : EntryFile σ := ⟨⟨image, OrderedStore.empty⟩, [], []⟩

/-- A range meets no live region. -/
def free (s : EntryFile σ) (offset length : Nat) : Prop :=
  ∀ region ∈ s.live, Image.Clear region.1.toNat region.2 offset length

instance (s : EntryFile σ) (offset length : Nat) : Decidable (s.free offset length) :=
  inferInstanceAs (Decidable (∀ region ∈ s.live, _))

/-- One move. The allocator hands out no region that meets a live one, and a node meets none. -/
def step (lib : CatalogLibrary) (s : EntryFile σ) : EntryMove → Option (EntryFile σ)
  | .createEntry c env =>
    match env.region with
    | none => some s
    | some offset =>
      if s.free offset.toNat c.length then
        let (file, thrown) := s.file.createEntry lib c env
        some ⟨file, s.live ++ [(offset, c.length)], if thrown = none then s.made ++ [(c, offset)] else s.made⟩
      else none
  | .node offset bytes =>
    if s.free offset bytes.length then some { s with file := { s.file with image := s.file.image.write offset bytes } }
    else none

/-- Every call that returned has its payload in a live region, and no other entries are in the index. -/
structure Kept (lib : CatalogLibrary) (s : EntryFile σ) : Prop where
  live : ∀ made ∈ s.made, (made.2, made.1.length) ∈ s.live
  held : ∀ made ∈ s.made, s.file.image.Holds made.2.toNat made.1.payload
  entries : ∀ e ∈ records s.file.segmentIndex, ∃ made ∈ s.made, e = made.1.metadata lib made.2

theorem createEntry_cases {lib : CatalogLibrary} {f : CatalogFile σ} {c : WriteCall} {env : EntryEnv} {offset : UInt64}
    (region : env.region = some offset) :
    (∃ bytes e, bytes.length ≤ c.length ∧ f.createEntry lib c env = (⟨f.image.write offset.toNat bytes, f.segmentIndex⟩, some e)) ∨
    f.createEntry lib c env = (⟨f.image.write offset.toNat c.payload,
      OrderedStore.insert f.segmentIndex (c.metadata lib offset)⟩, none) := by
  have part : (c.payload.take (env.written.getD 0)).length ≤ c.length := by
    rw [List.length_take, WriteCall.payload, List.length_take]
    omega
  simp only [CatalogFile.createEntry, region]
  split
  · exact .inl ⟨_, _, part, rfl⟩
  · rename_i whole
    have whole := not_not.1 whole
    cases env.inserting with
    | some e => exact .inl ⟨_, _, part, rfl⟩
    | none =>
      right
      rw [whole, Option.getD_some, WriteCall.payload, List.take_take, Nat.min_self]

theorem Kept.new (lib : CatalogLibrary) (image : Image) : Kept lib (EntryFile.new image : EntryFile σ) := by
  constructor
  · exact fun _ mem => absurd mem List.not_mem_nil
  · exact fun _ mem => absurd mem List.not_mem_nil
  · intro e mem
    change e ∈ records (OrderedStore.empty : σ) at mem
    rw [records_empty] at mem
    cases mem

/-- A payload in a live region stays when a range is written that meets none. -/
theorem Kept.write {lib : CatalogLibrary} {s : EntryFile σ} (kept : Kept lib s) {offset n : Nat} (free : s.free offset n)
    {bytes : Bytes} (part : bytes.length ≤ n) :
    ∀ made ∈ s.made, (s.file.image.write offset bytes).Holds made.2.toNat made.1.payload := by
  intro made mem
  refine (kept.held made mem).write_clear ?_ part
  have clear := free _ (kept.live made mem)
  rwa [← WriteCall.length_payload] at clear

/-- **What one move keeps**, with a tree whose insertions add no other record. -/
theorem Kept.step {lib : CatalogLibrary} (adds : ∀ (t : σ) k, ∀ r ∈ records (OrderedStore.insert t k), r = k ∨ r ∈ records t)
    {s s' : EntryFile σ} {m : EntryMove} (kept : Kept lib s) (moved : s.step lib m = some s') : Kept lib s' := by
  cases m with
  | node offset bytes =>
    simp only [EntryFile.step] at moved
    split at moved
    · rename_i free
      cases moved
      exact ⟨kept.live, kept.write free (Nat.le_refl _), kept.entries⟩
    · cases moved
  | createEntry c env =>
    simp only [EntryFile.step] at moved
    split at moved
    · cases moved
      exact kept
    · rename_i offset region
      split at moved
      · rename_i free
        obtain ⟨bytes, e, part, created⟩ | created := @createEntry_cases _ _ lib s.file c _ _ region
        · rw [created] at moved
          cases moved
          constructor
          · exact fun made mem => List.mem_append_left _ (kept.live made mem)
          · exact kept.write free part
          · exact kept.entries
        · rw [created] at moved
          cases moved
          constructor
          · intro made mem
            obtain mem | mem := List.mem_append.1 mem
            · exact List.mem_append_left _ (kept.live made mem)
            · rw [List.mem_singleton.1 mem]
              exact List.mem_append_right _ (List.mem_singleton_self _)
          · intro made mem
            obtain mem | mem := List.mem_append.1 mem
            · exact kept.write free (Nat.le_of_eq c.length_payload) made mem
            · rw [List.mem_singleton.1 mem]
              exact Image.holds_write _ _ _
          · intro e mem
            obtain rfl | mem := adds _ _ e mem
            · exact ⟨(c, offset), List.mem_append_right _ (List.mem_singleton_self _), rfl⟩
            · obtain ⟨made, among, eq⟩ := kept.entries e mem
              exact ⟨made, List.mem_append_left _ among, eq⟩
      · cases moved

end EntryFile

/-- The payload is the content where the length fits its 32 bits. -/
theorem WriteCall.payload_eq_content (c : WriteCall) : c.payload = c.content ↔ c.content.length < 2 ^ 32 := by
  have length : c.length = c.content.length % 2 ^ 32 := UInt32.toNat_ofNat'
  constructor
  · intro same
    have lengths := congrArg List.length same
    rw [c.length_payload, length] at lengths
    omega
  · intro fits
    rw [WriteCall.payload, length, Nat.mod_eq_of_lt fits]
    exact List.take_length

/-- A handle that is at the payload reads what was written. -/
theorem WriteCall.next_of_holds {image : Image} {c : WriteCall} {offset : UInt64}
    (held : image.Holds offset.toNat c.payload)
    (positioned : (openEntry offset (UInt64.ofNat c.length)).offset = offset.toNat) :
    (openEntry offset (UInt64.ofNat c.length)).next image (UInt64.ofNat c.length).toNat = c.payload := by
  have length := c.toNat_length
  have small : (UInt64.ofNat c.length).toNat < 2 ^ 32 := by
    rw [length]
    exact UInt32.toNat_lt _
  rw [MmapHandle.next, positioned, Nat.min_eq_left (openEntry_length small), length, ← c.length_payload]
  exact held

/-- Where the handle is at the payload, the bytes it reads are the ones written. -/
theorem readsBack_iff_of_holds (lib : CatalogLibrary) {image : Image} {c : WriteCall} {offset : UInt64}
    (held : image.Holds offset.toNat c.payload) : (c.metadata lib offset).ReadsBack image c.content ↔
      c.content.length < 2 ^ 32 ∧ (offset = 0 ∨ 4096 ≤ offset.toNat) := by
  have next := @WriteCall.next_of_holds image c offset held
  rw [← c.payload_eq_content, ← openEntry_offset offset (UInt64.ofNat c.length)]
  constructor
  · rintro ⟨positioned, bytes⟩
    exact ⟨(next positioned).symm.trans bytes, positioned⟩
  · rintro ⟨same, positioned⟩
    exact ⟨positioned, (next positioned).trans same⟩

/-- **Payloads read back exactly**, for every entry `forEachSegment` comes to after calls of
`createEntry` on a file: where the content is shorter than 4 GiB and its region does not begin
inside the first page. -/
theorem payload_readsBack_iff {lib : CatalogLibrary} {image : Image} {s : EntryFile σ} {fuel : Nat} {indexId : UInt16}
    {startBlock endBlock : UInt64} {entries : List SegmentMetadata}
    (adds : ∀ (t : σ) k, ∀ r ∈ records (OrderedStore.insert t k), r = k ∨ r ∈ records t)
    (run : Reach (EntryFile.step lib) (fun _ _ => True) (EntryFile.new image) s)
    (visits : forEachSegment fuel s.file.segmentIndex indexId startBlock endBlock = some entries) :
    ∀ e ∈ entries, (∃ made ∈ s.made, e = made.1.metadata lib made.2) ∧
      ∀ made ∈ s.made, e = made.1.metadata lib made.2 →
        (e.ReadsBack s.file.image made.1.content ↔
          made.1.content.length < 2 ^ 32 ∧ (made.2 = 0 ∨ 4096 ≤ made.2.toNat)) := by
  have kept : s.Kept lib := run.invariant (EntryFile.Kept.new lib image) fun _ _ _ kept _ moved => kept.step adds moved
  intro e mem
  obtain ⟨walked, walk, rfl⟩ := Option.map_eq_some_iff.1 visits
  obtain ⟨-, stored⟩ := mem_records_of_mem_walk walk e (List.mem_of_mem_filter mem)
  constructor
  · exact kept.entries e stored
  · rintro made among rfl
    exact readsBack_iff_of_holds lib (kept.held made among)

end Writing

/-! ## Payloads in the first page and behind it -/

section Runs

/-- A segment index kept as a sorted list. -/
abbrev ListIndex := SortedRecords SegmentMetadata SegmentMetadata.compare

theorem ListIndex.adds (t : ListIndex) (k : SegmentMetadata) :
    ∀ r ∈ records (OrderedStore.insert t k), r = k ∨ r ∈ records t := by
  intro r mem
  obtain rfl | ⟨before, -⟩ := (SortedRecords.mem_overwrite t k r).1 mem
  · exact .inl rfl
  · exact .inr before

/-- A call with three bytes of content. -/
def threeBytes : WriteCall := ⟨3, 1, 0, 7, 8, [1, 2, 3]⟩

/-- The file after it returned with an offset. -/
def afterThreeBytes (offset : UInt64) : EntryFile ListIndex :=
  ⟨((⟨Image.zero, OrderedStore.empty⟩ : CatalogFile ListIndex).createEntry plainLibrary threeBytes
      ⟨some offset, some 3, none⟩).1, [(offset, 3)], [(threeBytes, offset)]⟩

theorem afterThreeBytes_reach (offset : UInt64) : Reach (EntryFile.step plainLibrary) (fun _ _ => True)
    (EntryFile.new Image.zero : EntryFile ListIndex) (afterThreeBytes offset) :=
  Reach.refl.tail (m := .createEntry threeBytes ⟨some offset, some 3, none⟩) trivial rfl

theorem afterThreeBytes_visits (offset : UInt64) : forEachSegment 2 (afterThreeBytes offset).file.segmentIndex 3 0 20 =
    some [threeBytes.metadata plainLibrary offset] := by
  rfl

theorem payload_readsBack_second_page :
    (threeBytes.metadata plainLibrary 5000).ReadsBack (afterThreeBytes 5000).file.image [1, 2, 3] := by
  have back := payload_readsBack_iff ListIndex.adds (afterThreeBytes_reach 5000) (afterThreeBytes_visits 5000) _
    (List.mem_singleton_self _)
  exact (back.2 (threeBytes, 5000) (List.mem_singleton_self _) rfl).2 ⟨by decide, .inr (by decide)⟩

/-- With the region at byte 64 of the file, the handle is at byte 0 and the bytes it reads are not
those of the payload. -/
theorem payload_misread_first_page : ∃ s entries, Reach (EntryFile.step plainLibrary) (fun _ _ => True)
      (EntryFile.new Image.zero : EntryFile ListIndex) s ∧ s.made = [(threeBytes, 64)] ∧
    forEachSegment 2 s.file.segmentIndex 3 0 20 = some entries ∧ ∃ e ∈ entries, e = threeBytes.metadata plainLibrary 64 ∧
      (openEntry e.byteOffset e.byteLength).next s.file.image e.byteLength.toNat = [0, 0, 0] ∧
      ¬ e.ReadsBack s.file.image [1, 2, 3] := by
  refine ⟨afterThreeBytes 64, _, afterThreeBytes_reach 64, rfl, afterThreeBytes_visits 64, _, List.mem_singleton_self _,
    rfl, by decide, ?_⟩
  intro back
  exact absurd back.positioned (by decide)

end Runs

end MagelessChain
