import MagelessChain.Storage.CatalogFiles

/-!
# Queries of the catalog

A query passes a bloom filter, the block range of each file, a walk of the table of contents that
counts file ids down, and a walk of each file's index by `successor`; jobs move while it runs. On
the segments the backend writes it visits every segment whose job was through when it started,
once, and none that it should not.
-/

namespace MagelessChain

open Lib OrderedStore

/-! ## One file -/

/-- A segment below the last merge generation, which `successor` turns into a cursor just past it. -/
def SegmentMetadata.HasNext (m : SegmentMetadata) : Prop := m.mergeGeneration ≠ UInt32.ofNat (2 ^ 32 - 1)

theorem SegmentMetadata.hasNext_of_unmerged {m : SegmentMetadata} (unmerged : m.mergeGeneration = 0) : m.HasNext := by
  rw [SegmentMetadata.HasNext, unmerged]
  decide

/-- `successor` moves a cursor just past a segment. -/
theorem SegmentMetadata.successor_isLE {r : SegmentMetadata} (hasNext : r.HasNext) (x : SegmentMetadata) :
    (SegmentMetadata.compare r.successor x).isLE ↔ SegmentMetadata.compare r x = .lt := by
  have more : ¬ r.IsLast := fun last => hasNext last.2.2
  exact isLE_of_rank_succ SegmentMetadata.compare_eq_rank (SegmentMetadata.rank_successor more) x

/-- A key at or below another has no greater index, and in the same index no later start. -/
theorem SegmentMetadata.fields_of_isLE {a b : SegmentMetadata} (le : (SegmentMetadata.compare a b).isLE) :
    a.indexId ≤ b.indexId ∧ (a.indexId = b.indexId → a.blockRangeStart ≤ b.blockRangeStart) := by
  rw [SegmentMetadata.compare_eq_lex] at le
  simp only [compareLex, compareOn] at le
  refine ⟨Std.isLE_compare.1 (Ordering.isLE_left_of_isLE_then le), fun same => ?_⟩
  rw [same, Std.compare_self] at le
  exact Std.isLE_compare.1 (Ordering.isLE_left_of_isLE_then le)

section OneFile

variable {σ : Type} [OrderedStore σ SegmentMetadata SegmentMetadata.compare] {fuel : Nat} {segmentIndex : σ}
  {indexId : UInt16} {startBlock endBlock : UInt64} {visited : List SegmentMetadata}

/-- A segment a query for `indexId` and a block range is for. -/
structure SegmentMetadata.Wanted (m : SegmentMetadata) (indexId : UInt16) (startBlock endBlock : UInt64) : Prop where
  index : m.indexId = indexId
  start : startBlock ≤ m.blockRangeStart
  last : m.blockRangeStart ≤ endBlock

theorem forEachSegment_advances (hasNext : ∀ m ∈ records segmentIndex, m.HasNext) (stop : SegmentMetadata → Bool) :
    Advances (fun _ => segmentIndex) stop SegmentMetadata.successor :=
  fun _ r here _ x => SegmentMetadata.successor_isLE (hasNext r here) x

/-- When `forEachSegment` leaves its loop. -/
def pastSegments (indexId : UInt16) (endBlock : UInt64) (cursor : SegmentMetadata) : Bool :=
  decide (cursor.indexId ≠ indexId) || decide (cursor.blockRangeStart > endBlock)

theorem forEachSegment_walk (h : forEachSegment fuel segmentIndex indexId startBlock endBlock = some visited) :
    ∃ walked, walk (fun _ => segmentIndex) (pastSegments indexId endBlock) SegmentMetadata.successor fuel
      ⟨startBlock, 0, 0, 0, 0, 0, indexId, 0⟩ = some walked ∧
      visited = walked.filter fun cursor => decide (cursor.blockRangeEnd ≥ startBlock) := by
  obtain ⟨walked, walk, eq⟩ := Option.map_eq_some_iff.1 h
  exact ⟨walked, walk, eq.symm⟩

/-- The loop ends. -/
theorem forEachSegment_ends (hasNext : ∀ m ∈ records segmentIndex, m.HasNext) (indexId : UInt16)
    (startBlock endBlock : UInt64) : ∃ visited, ∀ fuel, (records segmentIndex).length < fuel →
      forEachSegment fuel segmentIndex indexId startBlock endBlock = some visited := by
  obtain ⟨walked, ends⟩ : ∃ walked, walk (fun _ => segmentIndex) (pastSegments indexId endBlock)
      SegmentMetadata.successor ((records segmentIndex).length + 1) ⟨startBlock, 0, 0, 0, 0, 0, indexId, 0⟩ = some walked :=
    walk_ends_of_const (forEachSegment_advances hasNext _) (Nat.lt_succ_self _)
  refine ⟨walked.filter fun cursor => decide (cursor.blockRangeEnd ≥ startBlock), fun fuel enough => ?_⟩
  exact Option.map_eq_some_iff.2 ⟨walked, walk_mono ends enough, rfl⟩

/-- Only segments the query is for are visited, each once. -/
theorem forEachSegment_sound (hasNext : ∀ m ∈ records segmentIndex, m.HasNext)
    (h : forEachSegment fuel segmentIndex indexId startBlock endBlock = some visited) :
    visited.Nodup ∧ ∀ m ∈ visited, m ∈ records segmentIndex ∧ m.Wanted indexId startBlock endBlock := by
  obtain ⟨walked, ends, rfl⟩ := forEachSegment_walk h
  have adv := forEachSegment_advances hasNext (pastSegments indexId endBlock)
  refine ⟨List.Nodup.filter _ (nodup_of_sorted (walk_sorted adv ends)), fun m mem => ?_⟩
  obtain ⟨passes, above, -, here⟩ := mem_of_mem_walk adv ends m (List.mem_filter.1 mem).1
  simp only [pastSegments, Bool.or_eq_false_iff, decide_eq_false_iff_not, ne_eq, not_not, gt_iff_lt,
    UInt64.not_lt] at passes
  exact ⟨here, passes.1, (SegmentMetadata.fields_of_isLE above).2 passes.1.symm, passes.2⟩

/-- Every segment the query is for is visited. -/
theorem mem_forEachSegment (hasNext : ∀ m ∈ records segmentIndex, m.HasNext)
    (h : forEachSegment fuel segmentIndex indexId startBlock endBlock = some visited) {m : SegmentMetadata}
    (here : m ∈ records segmentIndex) (wanted : m.Wanted indexId startBlock endBlock) (reaches : startBlock ≤ m.blockRangeEnd) :
    m ∈ visited := by
  obtain ⟨walked, ends, rfl⟩ := forEachSegment_walk h
  have adv := forEachSegment_advances hasNext (pastSegments indexId endBlock)
  have above : (SegmentMetadata.compare ⟨startBlock, 0, 0, 0, 0, 0, indexId, 0⟩ m).isLE := by
    rw [SegmentMetadata.compare_eq_lex]
    simp only [compareLex, compareOn, wanted.index, Std.compare_self, Ordering.eq_then]
    rw [Ordering.isLE_then_iff_and]
    refine ⟨Std.isLE_compare.2 wanted.start, .inr (Std.isLE_compare.2 ?_)⟩
    exact UInt32.le_iff_toNat_le.2 (Nat.zero_le _)
  have passes : ∀ r, (SegmentMetadata.compare ⟨startBlock, 0, 0, 0, 0, 0, indexId, 0⟩ r).isLE →
      (SegmentMetadata.compare r m).isLE → pastSegments indexId endBlock r = false := by
    intro r from_cursor to_m
    have lower := (SegmentMetadata.fields_of_isLE from_cursor).1
    obtain ⟨upper, start⟩ := SegmentMetadata.fields_of_isLE to_m
    rw [wanted.index] at upper start
    have index : r.indexId = indexId := UInt16.le_antisymm upper lower
    simp [pastSegments, index, UInt64.le_trans (start index) wanted.last]
  obtain ⟨v, mem, eq⟩ := mem_walk adv ends (fun _ => ⟨m, here, Std.ReflCmp.compare_self⟩) above
    (fun _ r _ from_cursor to_m => passes r from_cursor to_m)
  obtain ⟨-, -, -, stored⟩ := mem_of_mem_walk adv ends v mem
  obtain rfl := eq_of_cmp_eq stored here eq
  exact List.mem_filter.2 ⟨mem, decide_eq_true reaches⟩

end OneFile

section Stores

variable {τ σ : Type} {fuel : Nat} {indexId : UInt16} {startBlock endBlock now : UInt64}

/-! ## The table of contents -/

section Scan

variable [OrderedStore τ ContentsEntry ContentsEntry.compare] {scan : Nat → CatalogStore τ σ} {files : List UInt64}

/-- The cursor of `rangeScan` moved past an entry. -/
def olderFile (key : ContentsEntry) : ContentsEntry := { key with fileId := key.fileId - 1 }

theorem toNat_sub_one {a : UInt64} (nonzero : a ≠ 0) : (a - 1).toNat + 1 = a.toNat := by
  have positive : a.toNat ≠ 0 := fun zero => nonzero (UInt64.toNat_inj.1 zero)
  have one : (1 : UInt64) ≤ a := UInt64.le_iff_toNat_le.2 (Nat.one_le_iff_ne_zero.2 positive)
  rw [UInt64.toNat_sub_of_le _ _ one]
  exact Nat.sub_add_cancel (Nat.one_le_iff_ne_zero.2 positive)

theorem rangeScan_advances (nonzero : ∀ k, ∀ r ∈ records (scan k).toc, r.fileId ≠ 0) :
    Advances (fun k => (scan k).toc) (fun _ => false) olderFile := by
  intro k r here _ x
  have down := toNat_sub_one (nonzero k r here)
  rw [ContentsEntry.compare_eq, ContentsEntry.compare_eq, Std.isLE_compare, Std.compare_eq_lt, UInt64.le_iff_toNat_le,
    UInt64.lt_iff_toNat_lt]
  change x.fileId.toNat ≤ (r.fileId - 1).toNat ↔ _
  omega

/-- An entry that passes the filters of `rangeScan`. -/
def passesFilters (indexId : UInt16) (startBlock endBlock : UInt64) (key : ContentsEntry) : Bool :=
  bloomKeyHash indexId &&& key.bloom == bloomKeyHash indexId &&
    (decide (key.blockRangeMin ≤ endBlock) && decide (key.blockRangeMax ≥ startBlock))

theorem rangeScan_walk (h : rangeScan fuel scan indexId startBlock endBlock now = some files) :
    ∃ walked, walk (fun k => (scan k).toc) (fun _ => false) olderFile fuel (ContentsEntry.key now) = some walked ∧
      files = (walked.filter (passesFilters indexId startBlock endBlock)).map ContentsEntry.fileId := by
  obtain ⟨walked, walk, eq⟩ := Option.map_eq_some_iff.1 h
  exact ⟨walked, walk, eq.symm⟩

/-- The entries the loop of `rangeScan` comes to. -/
def scanned (fuel : Nat) (scan : Nat → CatalogStore τ σ) (now : UInt64) : Option (List ContentsEntry) :=
  walk (fun k => (scan k).toc) (fun _ => false) olderFile fuel (ContentsEntry.key now)

theorem rangeScan_eq (fuel : Nat) (scan : Nat → CatalogStore τ σ) (indexId : UInt16) (startBlock endBlock now : UInt64) :
    rangeScan fuel scan indexId startBlock endBlock now = (scanned fuel scan now).map fun entries =>
      (entries.filter (passesFilters indexId startBlock endBlock)).map ContentsEntry.fileId := rfl

/-- Entries in the order of strictly decreasing ids. -/
def Descending (entries : List ContentsEntry) : Prop := entries.Pairwise fun a b => b.fileId < a.fileId

/-- The loop ends: file ids go down. -/
theorem scanned_ends (nonzero : ∀ k, ∀ r ∈ records (scan k).toc, r.fileId ≠ 0) (now : UInt64) :
    ∃ entries, (∀ fuel, now.toNat < fuel → scanned fuel scan now = some entries) ∧ Descending entries := by
  obtain ⟨entries, ends⟩ : ∃ entries, walk (fun k => (scan k).toc) (fun _ => false) olderFile (now.toNat + 1)
      (ContentsEntry.key now) = some entries := by
    refine walk_ends (fun key => key.fileId.toNat) (fun k r here _ c le => ?_) (Nat.lt_succ_self _)
    have down := toNat_sub_one (nonzero k r here)
    rw [ContentsEntry.compare_eq, Std.isLE_compare, UInt64.le_iff_toNat_le] at le
    change (r.fileId - 1).toNat < _
    omega
  refine ⟨entries, fun fuel enough => walk_mono ends enough, ?_⟩
  refine (walk_sorted (rangeScan_advances nonzero) ends).imp fun {a b} before => ?_
  rw [ContentsEntry.compare_eq] at before
  exact Std.compare_eq_lt.1 before

theorem rangeScan_ends (nonzero : ∀ k, ∀ r ∈ records (scan k).toc, r.fileId ≠ 0) (indexId : UInt16)
    (startBlock endBlock now : UInt64) : ∃ files, ∀ fuel, now.toNat < fuel →
      rangeScan fuel scan indexId startBlock endBlock now = some files := by
  obtain ⟨entries, ends, -⟩ := scanned_ends nonzero now
  refine ⟨(entries.filter (passesFilters indexId startBlock endBlock)).map ContentsEntry.fileId, fun fuel enough => ?_⟩
  rw [rangeScan_eq, ends fuel enough]
  rfl

/-- On a table that does not change, one round more than there are entries suffices. -/
theorem rangeScan_ends_of_const {store : CatalogStore τ σ} (nonzero : ∀ r ∈ records store.toc, r.fileId ≠ 0)
    (enough : (records store.toc).length < fuel) (indexId : UInt16) (startBlock endBlock now : UInt64) :
    ∃ files, rangeScan fuel (fun _ => store) indexId startBlock endBlock now = some files := by
  obtain ⟨walked, ends⟩ : ∃ walked, walk (fun _ => store.toc) (fun _ => false) olderFile fuel (ContentsEntry.key now) =
      some walked := by
    have adv : Advances (fun k => ((fun _ => store) k).toc) (fun _ => false) olderFile := rangeScan_advances fun _ => nonzero
    exact walk_ends_of_const adv enough
  exact ⟨_, Option.map_eq_some_iff.2 ⟨walked, ends, rfl⟩⟩

/-- Every file that is returned was listed. -/
theorem listed_of_mem_rangeScan (nonzero : ∀ k, ∀ r ∈ records (scan k).toc, r.fileId ≠ 0)
    (h : rangeScan fuel scan indexId startBlock endBlock now = some files) :
    ∀ file ∈ files, ∃ k, ∃ r ∈ records (scan k).toc, r.fileId = file := by
  obtain ⟨walked, ends, rfl⟩ := rangeScan_walk h
  intro file among
  obtain ⟨r, mem, rfl⟩ := List.mem_map.1 among
  obtain ⟨-, -, k, found⟩ := mem_of_mem_walk (rangeScan_advances nonzero) ends r (List.mem_filter.1 mem).1
  exact ⟨k, r, found, rfl⟩

/-- No file is returned twice. -/
theorem rangeScan_nodup (nonzero : ∀ k, ∀ r ∈ records (scan k).toc, r.fileId ≠ 0)
    (h : rangeScan fuel scan indexId startBlock endBlock now = some files) : files.Nodup := by
  obtain ⟨walked, ends, rfl⟩ := rangeScan_walk h
  have sorted := (walk_sorted (rangeScan_advances nonzero) ends).sublist (List.filter_sublist (p := passesFilters indexId startBlock endBlock))
  refine List.pairwise_map.2 (sorted.imp fun {a b} lt same => ?_)
  rw [ContentsEntry.compare_of_fileId same] at lt
  cases lt

/-- A file that is listed throughout, under an entry that passes the filters, is returned. -/
theorem mem_rangeScan (nonzero : ∀ k, ∀ r ∈ records (scan k).toc, r.fileId ≠ 0)
    (h : rangeScan fuel scan indexId startBlock endBlock now = some files) {file : UInt64} (known : file ≤ now)
    (listed : ∀ k, ∃ r ∈ records (scan k).toc, r.fileId = file)
    (passes : ∀ k, ∀ r ∈ records (scan k).toc, r.fileId = file → passesFilters indexId startBlock endBlock r = true) :
    file ∈ files := by
  obtain ⟨walked, ends, rfl⟩ := rangeScan_walk h
  have adv := rangeScan_advances nonzero
  obtain ⟨v, mem, eq⟩ := mem_walk (x := ContentsEntry.key file) adv ends
    (fun k => (listed k).imp fun r found => ⟨found.1, ContentsEntry.compare_of_fileId found.2⟩)
    (by rw [ContentsEntry.compare_eq]; exact Std.isLE_compare.2 known) (fun _ _ _ _ _ => rfl)
  have id : v.fileId = file := ContentsEntry.fileId_of_compare eq
  obtain ⟨-, -, k, stored⟩ := mem_of_mem_walk adv ends v mem
  exact List.mem_map.2 ⟨v, List.mem_filter.2 ⟨mem, passes k v stored id⟩, id⟩

end Scan

/-! ## File after file -/

section Visit

variable [OrderedStore σ SegmentMetadata SegmentMetadata.compare] {visit : Nat → CatalogStore τ σ}
  {files : List UInt64} {visited : List (UInt64 × SegmentMetadata)}

/-- No file has a merged segment. -/
def Unmerged (visit : Nat → CatalogStore τ σ) : Prop :=
  ∀ k file f, (visit k).files file = some f → ∀ m ∈ records f.segmentIndex, m.mergeGeneration = 0

/-- Every segment has a next cursor. -/
def Advancing (visit : Nat → CatalogStore τ σ) : Prop :=
  ∀ k file f, (visit k).files file = some f → ∀ m ∈ records f.segmentIndex, m.HasNext

theorem Unmerged.advancing (unmerged : Unmerged visit) : Advancing visit :=
  fun k file f there m stored => SegmentMetadata.hasNext_of_unmerged (unmerged k file f there m stored)

theorem visitFiles_cons {file : UInt64}
    (h : visitFiles fuel indexId startBlock endBlock visit (file :: files) = some visited) :
    ∃ here more, visited = here.map (file, ·) ++ more ∧
      visitFiles fuel indexId startBlock endBlock (fun k => visit (k + 1)) files = some more ∧
      (((visit 0).files file = none ∧ here = []) ∨
        ∃ f, (visit 0).files file = some f ∧ forEachSegment fuel f.segmentIndex indexId startBlock endBlock = some here) := by
  rw [visitFiles] at h
  split at h
  · rename_i missing
    exact ⟨[], visited, rfl, h, .inl ⟨missing, rfl⟩⟩
  · rename_i f there
    split at h
    · rename_i here more visits rest
      cases h
      exact ⟨here, more, rfl, rest, .inr ⟨f, there, visits⟩⟩
    · cases h

theorem visitFiles_ends (advancing : Advancing visit) (indexId : UInt16) (startBlock endBlock : UInt64) (files : List UInt64) :
    ∃ visited enough, ∀ fuel, enough ≤ fuel → visitFiles fuel indexId startBlock endBlock visit files = some visited := by
  induction files generalizing visit with
  | nil => exact ⟨[], 0, fun _ _ => rfl⟩
  | cons file rest ih =>
    obtain ⟨more, enough, rest_ends⟩ := ih (fun k => advancing (k + 1))
    cases there : (visit 0).files file with
    | none =>
      refine ⟨more, enough, fun fuel le => ?_⟩
      rw [visitFiles, there]
      exact rest_ends fuel le
    | some f =>
      obtain ⟨here, ends⟩ := forEachSegment_ends (advancing 0 file f there) indexId startBlock endBlock
      refine ⟨here.map (file, ·) ++ more, max enough ((records f.segmentIndex).length + 1), fun fuel le => ?_⟩
      rw [visitFiles, there]
      simp only [ends fuel (by omega), rest_ends fuel (by omega)]

/-- One round more than there are segments in any of the files suffices. -/
theorem visitFiles_ends_within (advancing : Advancing visit) (enough : ∀ k, ∀ file ∈ files, ∀ f,
    (visit k).files file = some f → (records f.segmentIndex).length < fuel) (indexId : UInt16)
    (startBlock endBlock : UInt64) :
    ∃ visited, visitFiles fuel indexId startBlock endBlock visit files = some visited := by
  induction files generalizing visit with
  | nil => exact ⟨[], rfl⟩
  | cons file rest ih =>
    obtain ⟨more, rest_ends⟩ := ih (fun k => advancing (k + 1)) fun k f among => enough (k + 1) f (List.mem_cons_of_mem _ among)
    cases there : (visit 0).files file with
    | none =>
      refine ⟨more, ?_⟩
      rw [visitFiles, there]
      exact rest_ends
    | some f =>
      obtain ⟨here, ends⟩ := forEachSegment_ends (advancing 0 file f there) indexId startBlock endBlock
      refine ⟨here.map (file, ·) ++ more, ?_⟩
      rw [visitFiles, there]
      simp only [ends fuel (enough 0 file List.mem_cons_self f there), rest_ends]

/-- Only segments the query is for are visited, each once, in the files it was to visit. -/
theorem visitFiles_sound (advancing : Advancing visit) (nodup : files.Nodup)
    (h : visitFiles fuel indexId startBlock endBlock visit files = some visited) :
    visited.Nodup ∧ ∀ v ∈ visited, v.1 ∈ files ∧ v.2.Wanted indexId startBlock endBlock ∧
      ∃ k f, (visit k).files v.1 = some f ∧ v.2 ∈ records f.segmentIndex := by
  induction files generalizing visit visited with
  | nil => cases h; exact ⟨List.nodup_nil, fun v mem => absurd mem List.not_mem_nil⟩
  | cons file rest ih =>
    obtain ⟨here, more, rfl, rest_eq, first⟩ := visitFiles_cons h
    obtain ⟨fresh, nodup⟩ := List.nodup_cons.1 nodup
    obtain ⟨more_nodup, more_sound⟩ := ih (fun k => advancing (k + 1)) nodup rest_eq
    have here_sound : here.Nodup ∧ ∀ m ∈ here, m.Wanted indexId startBlock endBlock ∧
        ∃ f, (visit 0).files file = some f ∧ m ∈ records f.segmentIndex := by
      rcases first with ⟨-, rfl⟩ | ⟨f, there, visits⟩
      · exact ⟨List.nodup_nil, fun m mem => absurd mem List.not_mem_nil⟩
      · obtain ⟨once, sound⟩ := forEachSegment_sound (advancing 0 file f there) visits
        exact ⟨once, fun m mem => ⟨(sound m mem).2, f, there, (sound m mem).1⟩⟩
    refine ⟨?_, fun v mem => ?_⟩
    · refine List.nodup_append.2 ⟨here_sound.1.map fun m m' eq => (Prod.ext_iff.1 eq).2, more_nodup, fun v mem w later eq => ?_⟩
      obtain ⟨m, -, rfl⟩ := List.mem_map.1 mem
      have among := (more_sound w later).1
      rw [← eq] at among
      exact fresh among
    · rcases List.mem_append.1 mem with mem | mem
      · obtain ⟨m, in_here, rfl⟩ := List.mem_map.1 mem
        obtain ⟨wanted, f, there, stored⟩ := here_sound.2 m in_here
        exact ⟨List.mem_cons_self, wanted, 0, f, there, stored⟩
      · obtain ⟨among, wanted, k, f, there, stored⟩ := more_sound v mem
        exact ⟨List.mem_cons_of_mem _ among, wanted, k + 1, f, there, stored⟩

/-- A segment that is in a file's index throughout and that the query is for is visited. -/
theorem mem_visitFiles (advancing : Advancing visit)
    (h : visitFiles fuel indexId startBlock endBlock visit files = some visited) {file : UInt64} {m : SegmentMetadata}
    (among : file ∈ files) (stays : ∀ k, ∃ f, (visit k).files file = some f ∧ m ∈ records f.segmentIndex)
    (wanted : m.Wanted indexId startBlock endBlock) (reaches : startBlock ≤ m.blockRangeEnd) : (file, m) ∈ visited := by
  induction files generalizing visit visited with
  | nil => cases among
  | cons first rest ih =>
    obtain ⟨here, more, rfl, rest_eq, head⟩ := visitFiles_cons h
    rcases List.mem_cons.1 among with rfl | among
    · obtain ⟨f, there, stored⟩ := stays 0
      rcases head with ⟨missing, -⟩ | ⟨f', there', visits⟩
      · rw [missing] at there
        cases there
      · obtain rfl : f' = f := by rw [there] at there'; exact (Option.some.inj there').symm
        have mem := mem_forEachSegment (advancing 0 _ _ there) visits stored wanted reaches
        exact List.mem_append_left _ (List.mem_map_of_mem mem)
    · exact List.mem_append_right _ (ih (fun k => advancing (k + 1)) rest_eq among (fun k => stays (k + 1)))

end Visit

end Stores

/-! ## The query -/

section Query

variable {τ σ : Type} [OrderedStore τ ContentsEntry ContentsEntry.compare]
  [OrderedStore σ SegmentMetadata SegmentMetadata.compare]

/-- The states the calls of a query find, each reached from the one before it by moves of a
backend's jobs. -/
structure Views (lib : CatalogLibrary) (scan visit : Nat → Catalog τ σ) : Prop where
  start : Reach (Catalog.step lib) BackendMove Catalog.empty (scan 0)
  scans : ∀ k, Reach (Catalog.step lib) BackendMove (scan k) (scan (k + 1))
  between : ∀ k, Reach (Catalog.step lib) BackendMove (scan k) (visit 0)
  visits : ∀ k, Reach (Catalog.step lib) BackendMove (visit k) (visit (k + 1))

/-- What a query that starts in `s` should visit: each segment of the index whose job is through
and whose block is in the range, no block twice, nothing of another index or outside the range,
and nothing that no job has written. -/
structure QueryExact (lib : CatalogLibrary) (s : Catalog τ σ) (visit : Nat → Catalog τ σ) (indexId : UInt16)
    (startBlock endBlock : UInt64) (visited : List (UInt64 × SegmentMetadata)) : Prop where
  complete : ∀ c file offset, s.Through c file offset → c.indexId = indexId → startBlock ≤ c.startBlock →
    c.startBlock ≤ endBlock → (file, c.metadata lib offset) ∈ visited
  once : (visited.map fun v => v.2.blockRangeStart).Nodup
  sound : ∀ v ∈ visited, v.2.Wanted indexId startBlock endBlock
  written : ∀ v ∈ visited, ∃ k c offset, (visit k).Indexed c v.1 offset ∧ v.2 = c.metadata lib offset

/-- The states the calls of a query find, from one in order on. -/
structure LaterViews (lib : CatalogLibrary) (scan visit : Nat → Catalog τ σ) : Prop where
  start : (scan 0).BackendInv lib
  scans : ∀ k, Reach (Catalog.step lib) BackendMove (scan k) (scan (k + 1))
  between : ∀ k, Reach (Catalog.step lib) BackendMove (scan k) (visit 0)
  visits : ∀ k, Reach (Catalog.step lib) BackendMove (visit k) (visit (k + 1))

theorem LaterViews.scanInv {lib : CatalogLibrary} {scan visit : Nat → Catalog τ σ} (views : LaterViews lib scan visit)
    (k : Nat) : (scan k).BackendInv lib :=
  views.start.reach (Reach.chain views.scans (Nat.zero_le k))

theorem LaterViews.visitInv {lib : CatalogLibrary} {scan visit : Nat → Catalog τ σ} (views : LaterViews lib scan visit)
    (k : Nat) : (visit k).BackendInv lib :=
  ((views.scanInv 0).reach (views.between 0)).reach (Reach.chain views.visits (Nat.zero_le k))

theorem Views.later {lib : CatalogLibrary} {scan visit : Nat → Catalog τ σ} (views : Views lib scan visit) :
    LaterViews lib scan visit :=
  ⟨(Catalog.BackendInv.empty lib).reach views.start, views.scans, views.between, views.visits⟩

theorem Views.scanInv {lib : CatalogLibrary} {scan visit : Nat → Catalog τ σ} (views : Views lib scan visit) (k : Nat) :
    (scan k).BackendInv lib :=
  views.later.scanInv k

theorem Views.visitInv {lib : CatalogLibrary} {scan visit : Nat → Catalog τ σ} (views : Views lib scan visit) (k : Nat) :
    (visit k).BackendInv lib :=
  views.later.visitInv k

theorem Catalog.BackendInv.unmerged {lib : CatalogLibrary} {s : Catalog τ σ} (h : s.BackendInv lib) {file : UInt64}
    {f : CatalogFile σ} (there : s.store.files file = some f) : ∀ m ∈ records f.segmentIndex, m.mergeGeneration = 0 := by
  intro m stored
  obtain ⟨c, offset, ⟨job, mem, rfl, -⟩, rfl⟩ := (h.index file f there m).1 stored
  change job.call.mergeGeneration.toUInt32 = 0
  rw [(h.slots.oneBlock job mem).generation]
  rfl

/-- Two segments of one index and block are one segment, wherever and whenever they are seen. -/
theorem LaterViews.segment_unique {lib : CatalogLibrary} {scan visit : Nat → Catalog τ σ} (views : LaterViews lib scan visit)
    {k k' : Nat} {v w : UInt64 × SegmentMetadata} {f f' : CatalogFile σ} (there : (visit k).store.files v.1 = some f)
    (stored : v.2 ∈ records f.segmentIndex) (there' : (visit k').store.files w.1 = some f')
    (stored' : w.2 ∈ records f'.segmentIndex) (index : v.2.indexId = w.2.indexId)
    (block : v.2.blockRangeStart = w.2.blockRangeStart) : v = w := by
  obtain ⟨c, offset, indexed, eq⟩ := ((views.visitInv k).index _ _ there _).1 stored
  obtain ⟨c', offset', indexed', eq'⟩ := ((views.visitInv k').index _ _ there' _).1 stored'
  obtain ⟨job, mem, rfl, inIndex⟩ := indexed.reach (Reach.chain views.visits (Nat.le_max_left k k'))
  obtain ⟨job', mem', rfl, inIndex'⟩ := indexed'.reach (Reach.chain views.visits (Nat.le_max_right k k'))
  rw [eq, eq'] at index block
  obtain rfl : job = job' := (views.visitInv _).slots.unique mem mem' (Prod.ext index block)
  rw [inIndex, Option.some.injEq, Prod.mk.injEq] at inIndex'
  obtain ⟨file, rfl⟩ := inIndex'
  exact Prod.ext file (eq.trans eq'.symm)

/-- A segment that starts in a range ends past its start. -/
theorem WriteCall.OneBlock.reaches {c : WriteCall} (h : c.OneBlock) {startBlock : UInt64}
    (start : startBlock ≤ c.startBlock) : startBlock ≤ c.endBlock := by
  have := h.range
  rw [UInt64.le_iff_toNat_le] at start ⊢
  omega

/-- An entry that covers a segment the query is for passes its filters. -/
theorem ContentsEntry.Covers.passesFilters {r : ContentsEntry} {c : WriteCall} (h : r.Covers c) (oneBlock : c.OneBlock)
    {startBlock endBlock : UInt64} (start : startBlock ≤ c.startBlock) (last : c.startBlock ≤ endBlock) :
    MagelessChain.passesFilters c.indexId startBlock endBlock r = true := by
  have bloom := beq_iff_eq.1 h.bloom
  simp only [MagelessChain.passesFilters, BitVec.and_comm (bloomKeyHash c.indexId), bloom, beq_self_eq_true, Bool.true_and,
    Bool.and_eq_true, decide_eq_true_eq]
  exact ⟨UInt64.le_trans h.rangeMin last, UInt64.le_trans (oneBlock.reaches start) h.rangeMax⟩

/-- What a query that ends has visited. -/
theorem LaterViews.exact {lib : CatalogLibrary} {scan visit : Nat → Catalog τ σ} (views : LaterViews lib scan visit)
    {indexId : UInt16} {startBlock endBlock now : UInt64} (clock : ∀ r ∈ records (scan 0).store.toc, r.fileId ≤ now)
    {fuel : Nat} {visited : List (UInt64 × SegmentMetadata)}
    (h : query fuel (fun k => (scan k).store) (fun k => (visit k).store) indexId startBlock endBlock now = some visited) :
    QueryExact lib (scan 0) visit indexId startBlock endBlock visited := by
  have nonzero : ∀ k, ∀ r ∈ records (scan k).store.toc, r.fileId ≠ 0 := fun k => (views.scanInv k).nonzero.toc
  have unmerged : Unmerged fun k => (visit k).store := fun k file f there => (views.visitInv k).unmerged there
  obtain ⟨files, scanned, walked⟩ := Option.bind_eq_some_iff.1 h
  obtain ⟨nodup, sound⟩ := visitFiles_sound unmerged.advancing (rangeScan_nodup nonzero scanned) walked
  refine ⟨?_, ?_, fun v mem => (sound v mem).2.1, fun v mem => ?_⟩
  · rintro c file offset through rfl start last
    have oneBlock : c.OneBlock := by
      obtain ⟨job, mem, rfl, -⟩ := through
      exact (views.scanInv 0).slots.oneBlock job mem
    have through_scan : ∀ k, (scan k).Through c file offset := fun k =>
      through.reach (Reach.chain views.scans (Nat.zero_le k))
    have among : file ∈ files := by
      refine mem_rangeScan nonzero scanned ?_ (fun k => ?_) (fun k r found id => ?_)
      · obtain ⟨job, mem, -, completed, -⟩ := through
        obtain ⟨r, found, rfl⟩ := (views.scanInv 0).toc.listed job mem file completed
        exact clock r found
      · obtain ⟨job, mem, -, completed, -⟩ := through_scan k
        exact (views.scanInv k).toc.listed job mem file completed
      · obtain ⟨job, mem, rfl, completed, -⟩ := through_scan k
        exact (((views.scanInv k).toc.summaries r found).covers job mem (id ▸ completed)).passesFilters oneBlock start last
    refine mem_visitFiles unmerged.advancing walked among (fun k => ?_) ⟨rfl, start, last⟩ (oneBlock.reaches start)
    obtain ⟨job, mem, rfl, -, inIndex⟩ := (through.reach (views.between 0)).reach
      (Reach.chain views.visits (Nat.zero_le k))
    have inv := views.visitInv k
    obtain ⟨f, there⟩ := Option.isSome_iff_exists.1 (inv.filed job mem file (.inr ⟨offset, Stage.region_of_inIndex inIndex⟩))
    exact ⟨f, there, (inv.index file f there _).2 ⟨job.call, offset, ⟨job, mem, rfl, inIndex⟩, rfl⟩⟩
  · refine List.Nodup.map_on (fun v mem w mem' block => ?_) nodup
    obtain ⟨-, wanted, k, f, there, stored⟩ := sound v mem
    obtain ⟨-, wanted', k', f', there', stored'⟩ := sound w mem'
    exact views.segment_unique there stored there' stored' (wanted.index.trans wanted'.index.symm) block
  · obtain ⟨-, -, k, f, there, stored⟩ := sound v mem
    exact ⟨k, ((views.visitInv k).index _ _ there _).1 stored⟩

/-- A query ends, whatever the jobs do meanwhile. -/
theorem LaterViews.ends {lib : CatalogLibrary} {scan visit : Nat → Catalog τ σ} (views : LaterViews lib scan visit)
    (indexId : UInt16) (startBlock endBlock now : UInt64) :
    ∃ visited enough, ∀ fuel, enough ≤ fuel → query fuel (fun k => (scan k).store) (fun k => (visit k).store)
      indexId startBlock endBlock now = some visited := by
  have nonzero : ∀ k, ∀ r ∈ records (scan k).store.toc, r.fileId ≠ 0 := fun k => (views.scanInv k).nonzero.toc
  have unmerged : Unmerged fun k => (visit k).store := fun k file f there => (views.visitInv k).unmerged there
  obtain ⟨files, scan_ends⟩ := rangeScan_ends nonzero indexId startBlock endBlock now
  obtain ⟨visited, enough, visit_ends⟩ := visitFiles_ends unmerged.advancing indexId startBlock endBlock files
  refine ⟨visited, max enough (now.toNat + 1), fun fuel le => ?_⟩
  rw [query, scan_ends fuel (by omega)]
  exact visit_ends fuel (by omega)

theorem Views.exact {lib : CatalogLibrary} {scan visit : Nat → Catalog τ σ} (views : Views lib scan visit)
    {indexId : UInt16} {startBlock endBlock now : UInt64} (clock : ∀ r ∈ records (scan 0).store.toc, r.fileId ≤ now)
    {fuel : Nat} {visited : List (UInt64 × SegmentMetadata)}
    (h : query fuel (fun k => (scan k).store) (fun k => (visit k).store) indexId startBlock endBlock now = some visited) :
    QueryExact lib (scan 0) visit indexId startBlock endBlock visited :=
  views.later.exact clock h

/-- **Queries are exact**, whatever the jobs do meanwhile: a query made when the clock has reached
every file id of the table ends, and visits what it should. -/
theorem query_exact (lib : CatalogLibrary) (scan visit : Nat → Catalog τ σ) (views : Views lib scan visit)
    (indexId : UInt16) (startBlock endBlock now : UInt64) (clock : ∀ r ∈ records (scan 0).store.toc, r.fileId ≤ now) :
    ∃ visited enough, (∀ fuel, enough ≤ fuel → query fuel (fun k => (scan k).store) (fun k => (visit k).store)
      indexId startBlock endBlock now = some visited) ∧ QueryExact lib (scan 0) visit indexId startBlock endBlock visited := by
  have nonzero : ∀ k, ∀ r ∈ records (scan k).store.toc, r.fileId ≠ 0 := fun k => (views.scanInv k).nonzero.toc
  have unmerged : Unmerged fun k => (visit k).store := fun k file f there => (views.visitInv k).unmerged there
  obtain ⟨files, scan_ends⟩ : ∃ files, ∀ fuel, now.toNat < fuel → rangeScan fuel (fun k => (scan k).store) indexId
      startBlock endBlock now = some files := rangeScan_ends nonzero indexId startBlock endBlock now
  obtain ⟨visited, enough, visit_ends⟩ := visitFiles_ends unmerged.advancing indexId startBlock endBlock files
  have ends : ∀ fuel, max enough (now.toNat + 1) ≤ fuel → query fuel (fun k => (scan k).store)
      (fun k => (visit k).store) indexId startBlock endBlock now = some visited := by
    intro fuel le
    rw [query, scan_ends fuel (by omega)]
    exact visit_ends fuel (by omega)
  exact ⟨visited, _, ends, views.exact clock (ends _ (Nat.le_refl _))⟩

end Query

/-- Moves of a backend's jobs, none if one of them is not. -/
def backendMoves (s : ListCatalog) (m : CatalogMove) : Option ListCatalog :=
  if BackendMove s m then Catalog.step plainLibrary s m else none

/-- A query starts when one of two jobs is through, and meets the other's update. -/
theorem query_exact_meanwhile : ∃ (scan visit : Nat → ListCatalog), Views plainLibrary scan visit ∧
    (scan 0).Through ⟨4, 1, 0, 7, 8, [9]⟩ 50 100 ∧ ∃ visited enough, (∀ fuel, enough ≤ fuel →
      query fuel (fun k => (scan k).store) (fun k => (visit k).store) 4 0 9 60 = some visited) ∧
      QueryExact plainLibrary (scan 0) visit 4 0 9 visited := by
  have facts : (moves backendMoves (racedCalls ++ writingMoves 1 100 1) Catalog.empty).map (fun s =>
      (s.jobs[1]?, s.store.toc.list.map ContentsEntry.fileId, (moves backendMoves (writingMoves 0 200 2) s).isSome)) =
      some (some ⟨⟨4, 1, 0, 7, 8, [9]⟩, .finished 50 100⟩, [50], true) := by decide +kernel
  obtain ⟨early, reached, facts⟩ := Option.map_eq_some_iff.1 facts
  simp only [Prod.mk.injEq] at facts
  obtain ⟨second, ids, goes⟩ := facts
  obtain ⟨late, reached'⟩ := Option.isSome_iff_exists.1 goes
  have start : Reach (Catalog.step plainLibrary) BackendMove Catalog.empty early := Reach.refl.guarded _ reached
  have go : Reach (Catalog.step plainLibrary) BackendMove early late := Reach.refl.guarded _ reached'
  have views : Views plainLibrary (fun | 0 => early | _ + 1 => late) (fun _ => late) := by
    refine ⟨start, fun k => ?_, fun k => ?_, fun _ => .refl⟩
    · cases k with
      | zero => exact go
      | succ k => exact .refl
    · cases k with
      | zero => exact go
      | succ k => exact .refl
  refine ⟨_, _, views, ⟨_, List.mem_of_getElem? second, rfl, rfl, rfl⟩, ?_⟩
  refine query_exact plainLibrary _ _ views 4 0 9 60 fun r found => ?_
  have id : r.fileId ∈ [(50 : UInt64)] := ids ▸ List.mem_map_of_mem found
  rw [List.mem_singleton.1 id]
  decide

end MagelessChain
