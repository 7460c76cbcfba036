import MagelessChain.Storage.CatalogQuery

/-!
# The order of a query

Within one file `forEachSegment` goes up in block and merge generation. But `rangeScan` returns
the files newest first, and which file a segment went to depends on scores, capacity and what was
busy. So a query goes up as a whole only if no newer file has a segment of it that belongs behind
one in an older file.
-/

namespace MagelessChain

open Lib OrderedStore

/-- Not after another in the order of `(blockRangeStart, mergeGeneration)`. -/
def SegmentMetadata.NotAfter (a b : SegmentMetadata) : Prop :=
  a.blockRangeStart < b.blockRangeStart ∨ a.blockRangeStart = b.blockRangeStart ∧ a.mergeGeneration ≤ b.mergeGeneration

instance (a b : SegmentMetadata) : Decidable (a.NotAfter b) := inferInstanceAs (Decidable (_ ∨ _))

/-- The segments a query visits go up. -/
def Ascending (visited : List (UInt64 × SegmentMetadata)) : Prop := visited.Pairwise fun v w => v.2.NotAfter w.2

instance (visited : List (UInt64 × SegmentMetadata)) : Decidable (Ascending visited) :=
  inferInstanceAs (Decidable (visited.Pairwise _))

/-- In one index, the order of a file's index is that of block and merge generation. -/
theorem SegmentMetadata.notAfter_of_lt {a b : SegmentMetadata} (index : a.indexId = b.indexId)
    (lt : SegmentMetadata.compare a b = .lt) : a.NotAfter b := by
  rw [SegmentMetadata.compare_eq_lex] at lt
  simp only [compareLex, compareOn, index, Std.compare_self, Ordering.eq_then] at lt
  obtain start | ⟨start, generation⟩ := Ordering.then_eq_lt.1 lt
  · exact .inl (Std.compare_eq_lt.1 start)
  · exact .inr ⟨Std.compare_eq_iff_eq.1 start, UInt32.le_of_lt (Std.compare_eq_lt.1 generation)⟩

section OneFile

variable {σ : Type} [OrderedStore σ SegmentMetadata SegmentMetadata.compare] {fuel : Nat} {segmentIndex : σ}
  {indexId : UInt16} {startBlock endBlock : UInt64} {visited : List SegmentMetadata}

/-- What `forEachSegment` calls its callback with. -/
theorem forEachSegment_iff (hasNext : ∀ m ∈ records segmentIndex, m.HasNext)
    (h : forEachSegment fuel segmentIndex indexId startBlock endBlock = some visited) (m : SegmentMetadata) :
    m ∈ visited ↔ m ∈ records segmentIndex ∧ m.Wanted indexId startBlock endBlock ∧ startBlock ≤ m.blockRangeEnd := by
  constructor
  · intro mem
    obtain ⟨stored, wanted⟩ := (forEachSegment_sound hasNext h).2 m mem
    obtain ⟨walked, -, rfl⟩ := forEachSegment_walk h
    exact ⟨stored, wanted, of_decide_eq_true (List.mem_filter.1 mem).2⟩
  · rintro ⟨stored, wanted, reaches⟩
    exact mem_forEachSegment hasNext h stored wanted reaches

/-- The segments of one file go up. -/
theorem forEachSegment_ascending (hasNext : ∀ m ∈ records segmentIndex, m.HasNext)
    (h : forEachSegment fuel segmentIndex indexId startBlock endBlock = some visited) :
    visited.Pairwise SegmentMetadata.NotAfter := by
  have sound := (forEachSegment_sound hasNext h).2
  have sorted : visited.Pairwise fun a b => SegmentMetadata.compare a b = .lt := by
    obtain ⟨walked, ends, rfl⟩ := forEachSegment_walk h
    exact (walk_sorted (forEachSegment_advances hasNext _) ends).sublist List.filter_sublist
  refine sorted.imp_of_mem fun {a b} mem mem' lt => ?_
  exact SegmentMetadata.notAfter_of_lt ((sound a mem).2.index.trans (sound b mem').2.index.symm) lt

end OneFile

section Stores

variable {τ σ : Type} [OrderedStore τ ContentsEntry ContentsEntry.compare]
  [OrderedStore σ SegmentMetadata SegmentMetadata.compare] {store : CatalogStore τ σ} {fuel : Nat} {indexId : UInt16}
  {startBlock endBlock now : UInt64} {files : List UInt64} {visited : List (UInt64 × SegmentMetadata)}

/-- A segment the query comes to in a file. -/
structure Sought (store : CatalogStore τ σ) (indexId : UInt16) (startBlock endBlock : UInt64) (file : UInt64)
    (m : SegmentMetadata) : Prop where
  stored : ∃ f, store.files file = some f ∧ m ∈ records f.segmentIndex
  wanted : m.Wanted indexId startBlock endBlock
  reaches : startBlock ≤ m.blockRangeEnd

/-- A file the query comes to: it is listed, under an entry that passes the filters. -/
def Scanned (store : CatalogStore τ σ) (indexId : UInt16) (startBlock endBlock now file : UInt64) : Prop :=
  file ≤ now ∧ ∃ r ∈ records store.toc, r.fileId = file ∧ passesFilters indexId startBlock endBlock r = true

omit [OrderedStore σ SegmentMetadata SegmentMetadata.compare] in
/-- The files come newest first. -/
theorem rangeScan_descending (nonzero : ∀ r ∈ records store.toc, r.fileId ≠ 0)
    (h : rangeScan fuel (fun _ => store) indexId startBlock endBlock now = some files) : files.Pairwise (· > ·) := by
  obtain ⟨walked, ends, rfl⟩ := rangeScan_walk h
  have sorted := (walk_sorted (rangeScan_advances fun _ => nonzero) ends).sublist
    (List.filter_sublist (p := passesFilters indexId startBlock endBlock))
  refine List.pairwise_map.2 (sorted.imp fun {a b} lt => ?_)
  rw [ContentsEntry.compare_eq] at lt
  exact Std.compare_eq_lt.1 lt

omit [OrderedStore σ SegmentMetadata SegmentMetadata.compare] in
theorem mem_rangeScan_iff (nonzero : ∀ r ∈ records store.toc, r.fileId ≠ 0)
    (h : rangeScan fuel (fun _ => store) indexId startBlock endBlock now = some files) (file : UInt64) :
    file ∈ files ↔ Scanned store indexId startBlock endBlock now file := by
  constructor
  · obtain ⟨walked, ends, rfl⟩ := rangeScan_walk h
    intro mem
    obtain ⟨r, among, rfl⟩ := List.mem_map.1 mem
    obtain ⟨seen, passes⟩ := List.mem_filter.1 among
    obtain ⟨-, le, k, found⟩ := mem_of_mem_walk (rangeScan_advances fun _ => nonzero) ends r seen
    rw [ContentsEntry.compare_eq] at le
    exact ⟨Std.isLE_compare.1 le, r, found, rfl, passes⟩
  · rintro ⟨known, r, found, rfl, passes⟩
    refine mem_rangeScan (fun _ => nonzero) h known (fun _ => ⟨r, found, rfl⟩) fun _ r' found' same => ?_
    rw [eq_of_cmp_eq found' found (ContentsEntry.compare_of_fileId same)]
    exact passes

omit [OrderedStore τ ContentsEntry ContentsEntry.compare] in
/-- The first file a visit comes to, and the rest of it. -/
theorem visitFiles_first (hasNext : ∀ file f, store.files file = some f → ∀ m ∈ records f.segmentIndex, m.HasNext)
    {file : UInt64} (h : visitFiles fuel indexId startBlock endBlock (fun _ => store) (file :: files) = some visited) :
    ∃ (here : List SegmentMetadata) (more : List (UInt64 × SegmentMetadata)), visited = here.map (file, ·) ++ more ∧
      visitFiles fuel indexId startBlock endBlock (fun _ => store) files = some more ∧
      here.Pairwise SegmentMetadata.NotAfter ∧ ∀ m, m ∈ here ↔ Sought store indexId startBlock endBlock file m := by
  obtain ⟨here, more, eq, rest, first⟩ := visitFiles_cons h
  refine ⟨here, more, eq, rest, ?_⟩
  obtain ⟨missing, rfl⟩ | ⟨f, there, visits⟩ := first
  · refine ⟨.nil, fun m => iff_of_false List.not_mem_nil fun sought => ?_⟩
    obtain ⟨f, there, -⟩ := sought.stored
    rw [missing] at there
    cases there
  · refine ⟨forEachSegment_ascending (hasNext file f there) visits, fun m => ?_⟩
    rw [forEachSegment_iff (hasNext file f there) visits]
    constructor
    · rintro ⟨stored, wanted, reaches⟩
      exact ⟨⟨f, there, stored⟩, wanted, reaches⟩
    · rintro ⟨⟨f', there', stored⟩, wanted, reaches⟩
      obtain rfl : f = f' := Option.some.inj (there.symm.trans there')
      exact ⟨stored, wanted, reaches⟩

omit [OrderedStore τ ContentsEntry ContentsEntry.compare] in
/-- What is visited, file by file. -/
theorem mem_visitFiles_iff (hasNext : ∀ file f, store.files file = some f → ∀ m ∈ records f.segmentIndex, m.HasNext) :
    ∀ {files : List UInt64} {visited : List (UInt64 × SegmentMetadata)},
    visitFiles fuel indexId startBlock endBlock (fun _ => store) files = some visited → ∀ v,
      v ∈ visited ↔ v.1 ∈ files ∧ Sought store indexId startBlock endBlock v.1 v.2 := by
  intro files
  induction files with
  | nil =>
    intro visited h v
    cases h
    simp
  | cons file rest ih =>
    intro visited h v
    obtain ⟨here, more, rfl, rest_eq, -, own⟩ := visitFiles_first hasNext h
    rw [List.mem_append, ih rest_eq, List.mem_cons]
    constructor
    · rintro (mem | ⟨among, sought⟩)
      · obtain ⟨m, seen, rfl⟩ := List.mem_map.1 mem
        exact ⟨.inl rfl, (own m).1 seen⟩
      · exact ⟨.inr among, sought⟩
    · rintro ⟨rfl | among, sought⟩
      · exact .inl (List.mem_map_of_mem ((own v.2).2 sought))
      · exact .inr ⟨among, sought⟩

omit [OrderedStore τ ContentsEntry ContentsEntry.compare] in
/-- A visit goes up exactly when every two of its files do, the one visited first in front. -/
theorem visitFiles_ascending (hasNext : ∀ file f, store.files file = some f → ∀ m ∈ records f.segmentIndex, m.HasNext) :
    ∀ {files : List UInt64} {visited : List (UInt64 × SegmentMetadata)},
    visitFiles fuel indexId startBlock endBlock (fun _ => store) files = some visited →
      (Ascending visited ↔ files.Pairwise fun file file' => ∀ m m', Sought store indexId startBlock endBlock file m →
        Sought store indexId startBlock endBlock file' m' → m.NotAfter m') := by
  intro files
  induction files with
  | nil =>
    intro visited h
    cases h
    exact iff_of_true .nil .nil
  | cons file rest ih =>
    intro visited h
    obtain ⟨here, more, rfl, rest_eq, up, own⟩ := visitFiles_first hasNext h
    have later := mem_visitFiles_iff hasNext rest_eq
    rw [List.pairwise_cons, ← ih rest_eq, Ascending, List.pairwise_append, List.pairwise_map]
    constructor
    · rintro ⟨-, more_up, cross⟩
      refine ⟨fun file' among m m' sought sought' => ?_, more_up⟩
      exact cross (file, m) (List.mem_map_of_mem ((own m).2 sought)) (file', m') ((later _).2 ⟨among, sought'⟩)
    · rintro ⟨cross, more_up⟩
      refine ⟨up, more_up, fun v mem w mem' => ?_⟩
      obtain ⟨m, seen, rfl⟩ := List.mem_map.1 mem
      obtain ⟨among, sought⟩ := (later w).1 mem'
      exact cross w.1 among m w.2 ((own m).1 seen) sought

/-- A relation holds along a list that goes down exactly when it holds from each member to every
lesser one. -/
theorem pairwise_of_descending {R : UInt64 → UInt64 → Prop} {l : List UInt64} (down : l.Pairwise (· > ·)) :
    l.Pairwise R ↔ ∀ a ∈ l, ∀ b ∈ l, b < a → R a b := by
  induction l with
  | nil => simp
  | cons first rest ih =>
    obtain ⟨least, down⟩ := List.pairwise_cons.1 down
    rw [List.pairwise_cons, ih down]
    constructor
    · rintro ⟨cross, related⟩ a (_ | ⟨_, among⟩) b (_ | ⟨_, among'⟩) lt
      · exact absurd lt (UInt64.lt_irrefl _)
      · exact cross b among'
      · exact absurd (UInt64.lt_trans lt (least a among)) (UInt64.lt_irrefl _)
      · exact related a among b among' lt
    · intro related
      refine ⟨fun b mem => related first List.mem_cons_self b (List.mem_cons_of_mem _ mem) (least b mem), ?_⟩
      exact fun a mem b mem' => related a (List.mem_cons_of_mem _ mem) b (List.mem_cons_of_mem _ mem')

/-- **The order of a query**: on every content of a catalog a query ends, and what it visits goes up
exactly when no file it comes to has a segment of it that belongs behind one in an older file. -/
theorem query_ascending (store : CatalogStore τ σ) (nonzero : ∀ r ∈ records store.toc, r.fileId ≠ 0)
    (hasNext : ∀ file f, store.files file = some f → ∀ m ∈ records f.segmentIndex, m.HasNext) (indexId : UInt16)
    (startBlock endBlock now : UInt64) :
    ∃ visited enough, (∀ fuel, enough ≤ fuel →
        query fuel (fun _ => store) (fun _ => store) indexId startBlock endBlock now = some visited) ∧
      (Ascending visited ↔ ∀ newer older m m', older < newer → Scanned store indexId startBlock endBlock now newer →
        Scanned store indexId startBlock endBlock now older → Sought store indexId startBlock endBlock newer m →
        Sought store indexId startBlock endBlock older m' → m.NotAfter m') := by
  have advancing : Advancing fun _ : Nat => store := fun _ => hasNext
  obtain ⟨files, scan_ends⟩ : ∃ files, ∀ fuel, now.toNat < fuel → rangeScan fuel (fun _ => store) indexId startBlock
      endBlock now = some files := rangeScan_ends (fun _ => nonzero) indexId startBlock endBlock now
  obtain ⟨visited, enough, visit_ends⟩ := visitFiles_ends advancing indexId startBlock endBlock files
  refine ⟨visited, max enough (now.toNat + 1), fun fuel le => ?_, ?_⟩
  · rw [query, scan_ends fuel (by omega)]
    exact visit_ends fuel (by omega)
  · have scanned := scan_ends (now.toNat + 1) (Nat.lt_succ_self _)
    rw [visitFiles_ascending hasNext (visit_ends _ (Nat.le_refl _)),
      pairwise_of_descending (rangeScan_descending nonzero scanned)]
    simp only [mem_rangeScan_iff nonzero scanned]
    constructor
    · intro related newer older m m' lt came came' sought sought'
      exact related newer came older came' lt m m' sought sought'
    · intro related newer came older came' lt m m' sought sought'
      exact related newer older m m' lt came came' sought sought'

end Stores

/-- Two blocks are written to index 3. The second comes to a file of its own while the first is
still being written. -/
def overtakenMoves : List CatalogMove :=
  [.call ⟨3, 1, 0, 0, 1, [8]⟩ 50, .act 0 .walk, .act 0 (.number 50), .act 0 (.openNew true), .act 0 .register,
    .call ⟨3, 1, 0, 1, 2, [9]⟩ 60, .act 1 .walk, .act 1 (.number 60), .act 1 (.openNew true), .act 1 .register] ++
    writingMoves 0 100 1 ++ writingMoves 1 100 1

/-- In every catalog a backend fills, a query for one block goes up. -/
theorem query_ascending_one_block : ∃ s : ListCatalog, moves backendMoves overtakenMoves Catalog.empty = some s ∧
    ∃ visited enough, (∀ fuel, enough ≤ fuel →
      query fuel (fun _ => s.store) (fun _ => s.store) 3 1 1 70 = some visited) ∧ Ascending visited := by
  have goes : (moves backendMoves overtakenMoves (Catalog.empty : ListCatalog)).isSome := by decide +kernel
  obtain ⟨s, reached⟩ := Option.isSome_iff_exists.1 goes
  have reach : Reach (Catalog.step plainLibrary) BackendMove Catalog.empty s := Reach.refl.guarded _ reached
  have inv := (Catalog.BackendInv.empty plainLibrary).reach reach
  have unmerged : ∀ {file f}, s.store.files file = some f → ∀ m ∈ records f.segmentIndex, m.mergeGeneration = 0 :=
    fun there => inv.unmerged there
  obtain ⟨visited, enough, ends, exact⟩ := query_ascending s.store inv.nonzero.toc
    (fun file f there m stored => SegmentMetadata.hasNext_of_unmerged (unmerged there m stored)) 3 1 1 70
  refine ⟨s, reached, visited, enough, ends, exact.2 fun newer older m m' _ _ _ sought sought' => .inr ⟨?_, ?_⟩⟩
  · have block := UInt64.le_antisymm sought.wanted.last sought.wanted.start
    have block' := UInt64.le_antisymm sought'.wanted.last sought'.wanted.start
    rw [block, block']
  · obtain ⟨f, there, stored⟩ := sought.stored
    obtain ⟨f', there', stored'⟩ := sought'.stored
    rw [unmerged there m stored, unmerged there' m' stored']
    exact UInt32.le_refl _

/-- A query for both blocks comes to block 1 first, and then to block 0. -/
theorem query_descends : ∃ s : ListCatalog, moves backendMoves overtakenMoves Catalog.empty = some s ∧
    ∃ visited, query 71 (fun _ => s.store) (fun _ => s.store) 3 0 1 70 = some visited ∧
      visited.map (fun v => (v.1, v.2.blockRangeStart)) = [(60, 1), (50, 0)] ∧ ¬ Ascending visited := by
  have facts : (moves backendMoves overtakenMoves (Catalog.empty : ListCatalog)).bind (fun s =>
      (query 71 (fun _ => s.store) (fun _ => s.store) 3 0 1 70).map fun visited =>
        (visited.map (fun v => (v.1, v.2.blockRangeStart)), decide (Ascending visited))) =
      some ([(60, 1), (50, 0)], false) := by decide +kernel
  obtain ⟨s, reached, facts⟩ := Option.bind_eq_some_iff.1 facts
  obtain ⟨visited, walked, facts⟩ := Option.map_eq_some_iff.1 facts
  rw [Prod.mk.injEq] at facts
  exact ⟨s, reached, visited, walked, facts.1, of_decide_eq_false facts.2⟩

end MagelessChain
