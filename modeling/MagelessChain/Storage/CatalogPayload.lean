import MagelessChain.Storage.CatalogEntry
import MagelessChain.Storage.CatalogQuery
import Mathlib.Algebra.Order.BigOperators.Group.List

/-!
# What an index reads

An index maps the payloads of the segments its query visits. `FreeSpaceFile` hands out regions
that do not meet, so a payload stays as its job wrote it, and once the jobs of an index are
through, a query of all blocks reads back what was handed to `writeSegment`. The handle of
`openEntry` is at the payload where the region does not begin inside the first page.
-/

namespace MagelessChain

open Lib OrderedStore

theorem Stage.region_of_written {stage : Stage} {x : UInt64 × UInt64} (h : stage.written = some x) :
    stage.region = some x := by
  cases stage <;> first | exact h | cases h

theorem Stage.written_of_inIndex {stage : Stage} {x : UInt64 × UInt64} (h : stage.inIndex = some x) :
    stage.written = some x := by
  cases stage <;> first | exact h | cases h

/-- The regions of two jobs do not meet. -/
def Job.Apart (a b : Job) : Prop :=
  ∀ file offset offset', a.stage.region = some (file, offset) → b.stage.region = some (file, offset') →
    Image.Apart offset.toNat a.call.length offset'.toNat b.call.length

instance : Std.Symm Job.Apart where
  symm _ _ h file offset offset' here there := (h file offset' offset there here).symm

section Payloads

variable {τ σ : Type}

/-- Regions do not meet, and each written payload stands in its region. -/
structure Catalog.Payloads (s : Catalog τ σ) : Prop where
  apart : s.jobs.Pairwise Job.Apart
  held : ∀ job ∈ s.jobs, ∀ file offset, job.stage.written = some (file, offset) →
    ∀ f, s.store.files file = some f → f.image.Holds offset.toNat job.call.payload

/-- Regions do not meet after a job moved, if its new region meets no other. -/
theorem apart_moved {jobs front back : List Job} {job : Job} {stage : Stage} (split : jobs = front ++ job :: back)
    (h : jobs.Pairwise Job.Apart) (own : ∀ other ∈ jobs, job.Apart other → Job.Apart ⟨job.call, stage⟩ other) :
    (front ++ ⟨job.call, stage⟩ :: back).Pairwise Job.Apart := by
  exact pairwise_moved split h fun other mem => own other (mem_of_mem_around split mem)

/-- A job that keeps its region or gives it up. -/
theorem Job.Apart.keep {job other : Job} {stage : Stage} (h : job.Apart other)
    (region : stage.region = none ∨ stage.region = job.stage.region) : Job.Apart ⟨job.call, stage⟩ other := by
  intro file offset offset' here there
  rcases region with none | same
  · rw [none] at here
    cases here
  · exact h file offset offset' (same ▸ here) there

/-- A job that writes no payload, while files keep their bytes. -/
theorem Catalog.Payloads.keep {s : Catalog τ σ} (h : s.Payloads) (filed : s.Filed) {front back : List Job} {job : Job}
    (split : s.jobs = front ++ job :: back) {stage : Stage} {store : CatalogStore τ σ}
    (own : ∀ other ∈ s.jobs, job.Apart other → Job.Apart ⟨job.call, stage⟩ other)
    (written : stage.written = none ∨ stage.written = job.stage.written)
    (files : ∀ file f', store.files file = some f' →
      (∃ f, s.store.files file = some f ∧ f'.image = f.image) ∨ s.store.files file = none) :
    Catalog.Payloads ⟨store, front ++ ⟨job.call, stage⟩ :: back⟩ := by
  refine ⟨apart_moved split h.apart own, fun other mem file offset wrote f' found => ?_⟩
  have before : ∃ old ∈ s.jobs, old.call = other.call ∧ old.stage.written = some (file, offset) := by
    rcases mem_of_mem_moved split mem with rfl | mem
    · rcases written with none | same
      · rw [none] at wrote
        cases wrote
      · exact ⟨job, by simp [split], rfl, same ▸ wrote⟩
    · exact ⟨other, mem, rfl, wrote⟩
  obtain ⟨old, mem, call, wrote⟩ := before
  rw [← call]
  rcases files file f' found with ⟨f, there, eq⟩ | missing
  · rw [eq]
    exact h.held old mem file offset wrote f there
  · have there := filed old mem file (.inr ⟨offset, Stage.region_of_written wrote⟩)
    rw [missing] at there
    cases there

/-- A job that writes into its region. -/
theorem Catalog.Payloads.write {s : Catalog τ σ} (h : s.Payloads) {front back : List Job} {job : Job}
    (split : s.jobs = front ++ job :: back) {stage : Stage} {file offset : UInt64} {key : ContentsEntry} {bytes : Bytes}
    (at_allocated : job.stage = .allocated file key offset) (fits : bytes.length ≤ job.call.payload.length)
    (outcome : (stage = .stored file key offset ∧ bytes = job.call.payload) ∨ stage = .failing file) :
    Catalog.Payloads ⟨s.store.withFile file fun f => { f with image := f.image.write offset.toNat bytes },
      front ++ ⟨job.call, stage⟩ :: back⟩ := by
  have region : job.stage.region = some (file, offset) := by rw [at_allocated]; rfl
  have same : stage.region = none ∨ stage.region = job.stage.region := by
    rcases outcome with ⟨rfl, -⟩ | rfl
    · exact .inr region.symm
    · exact .inl rfl
  have apart : ∀ other ∈ front ++ back, job.Apart other := fun other mem =>
    pairwise_around split h.apart mem
  refine ⟨apart_moved split h.apart fun other _ apart => apart.keep same, fun other mem f o wrote after found => ?_⟩
  obtain rfl | among := eq_or_mem_around mem
  · rcases outcome with ⟨rfl, rfl⟩ | rfl
    · cases wrote
      obtain ⟨-, before, -, rfl⟩ | ⟨elsewhere, -⟩ := s.store.withFile_cases found
      · exact Image.holds_write _ _ _
      · exact absurd rfl elsewhere
    · cases wrote
  · have old : other ∈ s.jobs := mem_of_mem_around split among
    obtain ⟨rfl, before, there, rfl⟩ | ⟨-, there⟩ := s.store.withFile_cases found
    · apply (h.held other old f o wrote before there).write
      have free := apart other among f offset o region (Stage.region_of_written wrote)
      rw [WriteCall.length_payload] at fits ⊢
      unfold Image.Apart at free ⊢
      omega
    · exact h.held other old f o wrote after there

variable [OrderedStore τ ContentsEntry ContentsEntry.compare] [OrderedStore σ SegmentMetadata SegmentMetadata.compare]

theorem Catalog.Payloads.step {lib : CatalogLibrary} {s s' : Catalog τ σ} {m : CatalogMove} (h : s.Payloads)
    (filed : s.Filed) (moved : s.step lib m = some s') : s'.Payloads := by
  rcases Catalog.step_cases moved with ⟨c, now, rfl, rfl⟩ | ⟨j, a, job, front, back, stage, store, rfl, split, -, rfl, change⟩
  · refine ⟨List.pairwise_append.2 ⟨h.apart, List.pairwise_singleton _ _, fun job mem new here => ?_⟩,
      fun job mem file offset wrote => ?_⟩
    · rw [List.mem_singleton.1 here]
      intro file offset offset' _ there
      cases there
    · obtain rfl | mem := mem_of_mem_called mem
      · cases wrote
      · exact h.held job mem file offset wrote
  · have unchanged : ∀ file f', s.store.files file = some f' →
        (∃ f, s.store.files file = some f ∧ f'.image = f.image) ∨ s.store.files file = none :=
      fun file f' found => .inl ⟨f', found, rfl⟩
    cases change with
    | quiet _ files follows =>
      exact h.keep filed split (fun other _ apart => apart.keep follows.region) follows.written (files ▸ unchanged)
    | numbered _ _ => exact h.keep filed split (fun other _ apart => apart.keep (.inl rfl)) (.inl rfl) unchanged
    | picked _ _ _ => exact h.keep filed split (fun other _ apart => apart.keep (.inl rfl)) (.inl rfl) unchanged
    | opened _ =>
      refine h.keep filed split (fun other _ apart => apart.keep (.inl rfl)) (.inl rfl) fun f f' found => ?_
      obtain there | ⟨missing, -⟩ := s.store.opened_cases found
      · exact .inl ⟨f', there, rfl⟩
      · exact .inr missing
    | allocated _ _ free =>
      refine h.keep filed split (fun other mem _ => ?_) (.inl rfl) unchanged
      intro file offset offset' here there
      cases here
      exact free other mem _ there rfl
    | wrote at_allocated fits outcome => exact h.write split at_allocated fits outcome
    | inserted at_stored =>
      refine h.keep filed split (fun other _ apart => apart.keep (.inr (by rw [at_stored]; rfl)))
        (.inr (by rw [at_stored]; rfl)) fun f f' found => .inl ?_
      obtain ⟨-, before, there, rfl⟩ | ⟨-, there⟩ := s.store.withFile_cases found
      · exact ⟨before, there, rfl⟩
      · exact ⟨f', there, rfl⟩
    | updated at_created =>
      exact h.keep filed split (fun other _ apart => apart.keep (.inr (by rw [at_created]; rfl)))
        (.inr (by rw [at_created]; rfl)) unchanged

end Payloads

/-! ## What a query of all blocks reads -/

section Reads

variable {τ σ : Type} [OrderedStore τ ContentsEntry ContentsEntry.compare]
  [OrderedStore σ SegmentMetadata SegmentMetadata.compare]

/-- The number of segments in the file of an entry. -/
def CatalogStore.segments (s : CatalogStore τ σ) (r : ContentsEntry) : Nat :=
  match s.files r.fileId with
  | some f => (records f.segmentIndex).length
  | none => 0

/-- More rounds than the loops of a query over a store of this size can take. -/
def CatalogStore.rounds (s : CatalogStore τ σ) : Nat :=
  (records s.toc).length + ((records s.toc).map s.segments).sum + 1

/-- A visited segment, with what is read for it from the image of its file. -/
def CatalogStore.segment (s : CatalogStore τ σ) (read : Image → SegmentMetadata → Bytes) (v : UInt64 × SegmentMetadata) :
    Segment :=
  ⟨v.2.indexId, v.2.encodingVersion, v.2.mergeGeneration.toUInt16, v.2.blockRangeStart, v.2.blockRangeEnd,
    match s.files v.1 with
    | some f => read f.image v.2
    | none => []⟩

/-- What stands in the region of a segment. -/
def SegmentMetadata.bytes (image : Image) (e : SegmentMetadata) : Bytes :=
  image.read e.byteOffset.toNat e.byteLength.toNat

/-- What an index reads through the handle `CatalogFileReader::openEntry` gives it. -/
def SegmentMetadata.opened (image : Image) (e : SegmentMetadata) : Bytes :=
  (openEntry e.byteOffset e.byteLength).next image e.byteLength.toNat

/-- The segments each index comes to at one moment, by a query of all blocks. -/
def Catalog.shown (s : Catalog τ σ) (read : Image → SegmentMetadata → Bytes) (now : UInt64) : Visible := fun indexId =>
  match query s.store.rounds (fun _ => s.store) (fun _ => s.store) indexId 0 (UInt64.ofNat (2 ^ 64 - 1)) now with
  | some visited => (visited.map (s.store.segment read) : List Segment)
  | none => 0

/-- The segments each index has, with their payloads. -/
def Catalog.visible (s : Catalog τ σ) (now : UInt64) : Visible := s.shown SegmentMetadata.bytes now

/-- The segments each index has, as it reads them. -/
def Catalog.mapped (s : Catalog τ σ) (now : UInt64) : Visible := s.shown SegmentMetadata.opened now

/-- The segment of a call as its index reads it back. -/
def WriteCall.segment (c : WriteCall) : Segment :=
  ⟨c.indexId, c.version, c.mergeGeneration, c.startBlock, c.endBlock, c.payload⟩

/-- The query of an index's view ends. -/
theorem Catalog.query_rounds {lib : CatalogLibrary} {s : Catalog τ σ} (inv : s.BackendInv lib) (indexId : UInt16)
    (startBlock endBlock now : UInt64) : ∃ visited, query s.store.rounds (fun _ => s.store) (fun _ => s.store) indexId
      startBlock endBlock now = some visited := by
  have rounds : (records s.store.toc).length < s.store.rounds := by unfold CatalogStore.rounds; omega
  obtain ⟨files, scanned⟩ := rangeScan_ends_of_const inv.nonzero.toc rounds indexId startBlock endBlock now
  have unmerged : Unmerged fun _ : Nat => s.store := fun _ file f there => inv.unmerged there
  have enough : ∀ file ∈ files, ∀ f, s.store.files file = some f → (records f.segmentIndex).length < s.store.rounds := by
    intro file among f there
    obtain ⟨-, r, found, rfl⟩ := listed_of_mem_rangeScan (fun _ => inv.nonzero.toc) scanned file among
    have part : (records f.segmentIndex).length ≤ ((records s.store.toc).map s.store.segments).sum := by
      refine List.single_le_sum (fun _ _ => Nat.zero_le _) _ (List.mem_map.2 ⟨r, found, ?_⟩)
      simp only [CatalogStore.segments, there]
    unfold CatalogStore.rounds
    omega
  obtain ⟨visited, walked⟩ := visitFiles_ends_within unmerged.advancing (fun _ => enough) indexId startBlock endBlock
  exact ⟨visited, Option.bind_eq_some_iff.2 ⟨files, scanned, walked⟩⟩

/-- A segment in an index is read back as its call, where its payload is. -/
theorem Catalog.segment_eq {lib : CatalogLibrary} {s : Catalog τ σ} (inv : s.BackendInv lib) (payloads : s.Payloads)
    {c : WriteCall} {file offset : UInt64} (indexed : s.Indexed c file offset) {read : Image → SegmentMetadata → Bytes}
    (reads : ∀ image : Image, image.Holds offset.toNat c.payload → read image (c.metadata lib offset) = c.payload) :
    s.store.segment read (file, c.metadata lib offset) = c.segment := by
  obtain ⟨job, mem, rfl, inIndex⟩ := indexed
  have written := Stage.written_of_inIndex inIndex
  obtain ⟨f, there⟩ := Option.isSome_iff_exists.1 (inv.filed job mem file (.inr ⟨offset, Stage.region_of_inIndex inIndex⟩))
  have held := reads f.image (payloads.held job mem file offset written f there)
  simp only [CatalogStore.segment, there, held]
  simp only [WriteCall.metadata, WriteCall.segment, UInt16.toUInt16_toUInt32]

theorem SegmentMetadata.bytes_eq (lib : CatalogLibrary) {image : Image} {c : WriteCall} {offset : UInt64}
    (held : image.Holds offset.toNat c.payload) : (c.metadata lib offset).bytes image = c.payload := by
  unfold bytes
  have length : (c.metadata lib offset).byteLength.toNat = c.payload.length := by
    rw [c.length_payload]
    exact c.toNat_length
  rw [length]
  exact held.read

theorem SegmentMetadata.opened_eq (lib : CatalogLibrary) {image : Image} {c : WriteCall} {offset : UInt64}
    (held : image.Holds offset.toNat c.payload) (placed : offset = 0 ∨ 4096 ≤ offset.toNat) :
    (c.metadata lib offset).opened image = c.payload :=
  WriteCall.next_of_holds held ((openEntry_offset _ _).2 placed)

/-- **What an index comes to** once all its jobs are through and the clock has reached every file id:
the segments that were handed to `writeSegment` for it, where each is read back. -/
theorem Catalog.BackendInv.shown_eq {lib : CatalogLibrary} {s : Catalog τ σ} (inv : s.BackendInv lib)
    {now : UInt64} (clock : ∀ r ∈ records s.store.toc, r.fileId ≤ now) {indexId : UInt16}
    (through : ∀ job ∈ s.jobs, job.call.indexId = indexId → job.stage.completed.isSome)
    {read : Image → SegmentMetadata → Bytes} (reads : ∀ c file offset, s.Indexed c file offset →
      s.store.segment read (file, c.metadata lib offset) = c.segment) :
    s.shown read now indexId =
      (((s.jobs.map Job.call).filter fun c => c.indexId = indexId).map WriteCall.segment : List Segment) := by
  have views : LaterViews lib (fun _ => s) fun _ => s := ⟨inv, fun _ => .refl, fun _ => .refl, fun _ => .refl⟩
  obtain ⟨visited, walked⟩ := Catalog.query_rounds inv indexId 0 (UInt64.ofNat (2 ^ 64 - 1)) now
  obtain ⟨complete, once, sound, written⟩ := views.exact clock walked
  unfold Catalog.shown
  rw [walked]
  refine Multiset.coe_eq_coe.2 ((List.perm_ext_iff_of_nodup ?_ ?_).2 fun segment => ⟨fun mem => ?_, fun mem => ?_⟩)
  · apply List.Nodup.of_map Segment.blockRangeStart
    rw [List.map_map]
    exact once
  · apply List.Nodup.of_map fun segment => (segment.indexId, segment.blockRangeStart)
    have distinct : ((s.jobs.map Job.call).map WriteCall.slot).Nodup := by
      rw [List.map_map]
      exact inv.slots.distinct
    rw [List.map_map]
    exact distinct.sublist (List.filter_sublist.map _)
  · obtain ⟨v, among, rfl⟩ := List.mem_map.1 mem
    obtain ⟨-, c, offset, indexed, eq⟩ := written v among
    have index := (sound v among).index
    rw [show v = (v.1, c.metadata lib offset) from Prod.ext rfl eq, reads c v.1 offset indexed]
    rw [eq] at index
    obtain ⟨job, here, rfl, -⟩ := indexed
    exact List.mem_map_of_mem (List.mem_filter.2 ⟨List.mem_map_of_mem here, decide_eq_true index⟩)
  · obtain ⟨c, among, rfl⟩ := List.mem_map.1 mem
    obtain ⟨called, index⟩ := List.mem_filter.1 among
    obtain ⟨job, here, rfl⟩ := List.mem_map.1 called
    have index := of_decide_eq_true index
    obtain ⟨file, offset, completed, inIndex⟩ := Stage.inIndex_of_completed (through job here index)
    refine List.mem_map.2 ⟨(file, job.call.metadata lib offset), ?_, ?_⟩
    · exact complete job.call file offset ⟨job, here, rfl, completed, inIndex⟩ index
        (UInt64.le_iff_toNat_le.2 (Nat.zero_le _)) (UInt64.le_iff_toNat_le.2 (Nat.le_of_lt_succ (UInt64.toNat_lt _)))
    · exact reads job.call file offset ⟨job, here, rfl, inIndex⟩

theorem Catalog.BackendInv.visible_eq {lib : CatalogLibrary} {s : Catalog τ σ} (inv : s.BackendInv lib)
    (payloads : s.Payloads) {now : UInt64} (clock : ∀ r ∈ records s.store.toc, r.fileId ≤ now) {indexId : UInt16}
    (through : ∀ job ∈ s.jobs, job.call.indexId = indexId → job.stage.completed.isSome) :
    s.visible now indexId =
      (((s.jobs.map Job.call).filter fun c => c.indexId = indexId).map WriteCall.segment : List Segment) := by
  apply inv.shown_eq clock through
  intro c file offset indexed
  exact Catalog.segment_eq inv payloads indexed fun image held => SegmentMetadata.bytes_eq lib held

/-- The handle of `openEntry` is at the payload of every job. -/
def Catalog.Placed (s : Catalog τ σ) : Prop :=
  ∀ job ∈ s.jobs, ∀ file offset, job.stage.region = some (file, offset) → offset = 0 ∨ 4096 ≤ offset.toNat

theorem Catalog.BackendInv.mapped_eq {lib : CatalogLibrary} {s : Catalog τ σ} (inv : s.BackendInv lib)
    (payloads : s.Payloads) (placed : s.Placed) {now : UInt64} (clock : ∀ r ∈ records s.store.toc, r.fileId ≤ now)
    {indexId : UInt16} (through : ∀ job ∈ s.jobs, job.call.indexId = indexId → job.stage.completed.isSome) :
    s.mapped now indexId =
      (((s.jobs.map Job.call).filter fun c => c.indexId = indexId).map WriteCall.segment : List Segment) := by
  apply inv.shown_eq clock through
  intro c file offset indexed
  have place : offset = 0 ∨ 4096 ≤ offset.toNat := by
    obtain ⟨job, mem, -, inIndex⟩ := indexed
    exact placed job mem file offset (Stage.region_of_inIndex inIndex)
  exact Catalog.segment_eq inv payloads indexed fun image held => SegmentMetadata.opened_eq lib held place

/-- A region that is handed out begins at the first byte of its file or behind the first page. -/
def Act.Placed : Act → Prop
  | .allocate (some offset) => offset = 0 ∨ 4096 ≤ offset.toNat
  | _ => True

instance : (a : Act) → Decidable a.Placed
  | .allocate (some offset) => inferInstanceAs (Decidable (offset = 0 ∨ 4096 ≤ offset.toNat))
  | .allocate none | .walk | .pick _ | .number _ | .openNew _ | .register | .store _ | .insert _ | .update _
  | .unregister => .isTrue trivial

/-- A move of a job hands out its own region or none. -/
theorem Catalog.Placed.act {lib : CatalogLibrary} {s s' : Catalog τ σ} {j : Nat} {a : Act} (h : s.Placed)
    (placed : a.Placed) (moved : s.step lib (.act j a) = some s') : s'.Placed := by
  rcases Catalog.step_cases moved with ⟨c, now, eq, -⟩ | ⟨k, b, job, front, back, stage, store, eq, split, -, rfl, change⟩
  · cases eq
  · cases eq
    have here : job ∈ s.jobs := by simp [split]
    intro other mem file offset region
    rcases mem_of_mem_moved split mem with rfl | mem
    · have kept : stage.region = none ∨ stage.region = job.stage.region → offset = 0 ∨ 4096 ≤ offset.toNat := by
        rintro (none | same)
        · rw [show stage.region = some (file, offset) from region] at none
          cases none
        · exact h job here file offset (same ▸ region)
      cases change with
      | quiet _ _ follows => exact kept follows.region
      | allocated own _ _ =>
        cases own
        cases region
        exact placed
      | wrote at_allocated _ outcome =>
        apply kept
        obtain ⟨rfl, -⟩ | rfl := outcome
        · right
          rw [at_allocated]
          rfl
        · exact .inl rfl
      | inserted before =>
        apply kept
        right
        rw [before]
        rfl
      | updated before =>
        apply kept
        right
        rw [before]
        rfl
      | numbered | picked | opened => cases region
    · exact h other mem file offset region

/-- A new call has no region yet. -/
theorem Catalog.Placed.call {lib : CatalogLibrary} {s s' : Catalog τ σ} {c : WriteCall} {now : UInt64} (h : s.Placed)
    (moved : s.step lib (.call c now) = some s') : s'.Placed := by
  simp only [Catalog.step, Option.some.injEq] at moved
  subst moved
  intro job mem file offset region
  obtain rfl | mem := mem_of_mem_called mem
  · cases region
  · exact h job mem file offset region

end Reads

end MagelessChain
