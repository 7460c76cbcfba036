import MagelessChain.Backend.Restarts

/-!
# What `addBlock` reads

`verify`, `apply` and `seal` read committed state through the catalog, while the executor puts the
segments of earlier blocks in their files; `addBlock` does not wait for them. A step that finds the
segments of all earlier blocks reads what was routed, whatever else the executor has done. So where
every read finds them, a call goes as if its reads were of what was routed.
-/

namespace MagelessChain

open Lib OrderedStore

/-! ## What a step reads -/

section Reading

variable {τ Tx Ov : Type} {d : ChainDesign Tx Ov} {config : BlockchainConfig}

/-- Whether a step reads committed state, and then the block whose segments may be under way. -/
def Pc.reads (d : ChainDesign Tx Ov) : Pc Tx Ov → Option (Option UInt64)
  | .verify (_ :: _) _ | .verifyApply _ _ _ | .commitApply _ (_ :: _) _ => some none
  | .sealing n i _ => if i < d.pairCount then some (some n) else none
  | _ => none

/-- Two views agree on what a step reads. -/
def ReadsSame (d : ChainDesign Tx Ov) (pc : Pc Tx Ov) (view view' : Visible) : Prop :=
  match pc with
  | .verify (_ :: _) _ | .verifyApply _ _ _ | .commitApply _ (_ :: _) _ => view = view'
  | .sealing _ i _ => i < d.pairCount → view (UInt16.ofNat i) = view' (UInt16.ofNat i)
  | _ => True

/-- A step depends on no more of the committed state than it reads. -/
theorem AddBlock.step_congr [OrderedStore τ TimestampEntry TimestampEntry.compare] {c : Commit τ Tx Ov}
    {view view' : Visible} (same : ReadsSame d c.pc view view') :
    AddBlock.step d config (Env.calm view) c = AddBlock.step d config (Env.calm view') c := by
  obtain ⟨txs, millis, duration, pc, b⟩ := c
  cases pc with
  | verify todo ov =>
    cases todo with
    | nil => rfl
    | cons tx todo =>
      obtain rfl : view = view' := same
      rfl
  | verifyApply tx todo ov =>
    obtain rfl : view = view' := same
    rfl
  | commitApply n todo ov =>
    cases todo with
    | nil => rfl
    | cons tx todo =>
      obtain rfl : view = view' := same
      rfl
  | sealing n i ov =>
    by_cases lt : i < d.pairCount
    · have same : view (UInt16.ofNat i) = view' (UInt16.ofNat i) := same lt
      simp only [AddBlock.step, Env.calm, if_pos lt, same]
    · simp only [AddBlock.step, if_neg lt]
  | transactions n todo => cases todo <;> rfl
  | _ => rfl

/-- The call of `writeSegment` that a routed segment stands for. -/
def Segment.call (segment : Segment) : WriteCall :=
  ⟨segment.indexId, segment.encodingVersion, segment.mergeGeneration, segment.blockRangeStart, segment.blockRangeEnd,
    segment.payload⟩

/-- What each index would see if all that was routed were through. -/
def routedView (b : Backend τ) : Visible := fun indexId =>
  (((b.submitted.map Segment.call).filter fun c => c.indexId = indexId).map WriteCall.segment : List Segment)

end Reading

/-! ## What the catalog shows -/

section Shows

variable {κ σ : Type} [OrderedStore κ ContentsEntry ContentsEntry.compare]

/-- Every job but those of block `n` is through, and the clock has reached every file id. -/
def Catalog.Caught (s : Catalog κ σ) (n : Option UInt64) (now : UInt64) : Prop :=
  (∀ job ∈ s.jobs, some job.call.startBlock ≠ n → job.stage.completed.isSome) ∧ ∀ r ∈ records s.store.toc, r.fileId ≤ now

instance (s : Catalog κ σ) (n : Option UInt64) (now : UInt64) : Decidable (s.Caught n now) :=
  inferInstanceAs (Decidable (_ ∧ _))

omit [OrderedStore κ ContentsEntry ContentsEntry.compare] in
/-- `writeSegment` has not thrown. -/
def Catalog.Unrefused (s : Catalog κ σ) : Prop := ∀ job ∈ s.jobs, job.stage.returned.join = none

/-- A view shows an index what was handed to `writeSegment` for it, once its jobs are through and the
clock has reached every file id. -/
def Catalog.Shows (s : Catalog κ σ) (now : UInt64) (view : Visible) : Prop :=
  (∀ r ∈ records s.store.toc, r.fileId ≤ now) → ∀ indexId : UInt16,
    (∀ job ∈ s.jobs, job.call.indexId = indexId → job.stage.completed.isSome) →
      view indexId = (((s.jobs.map Job.call).filter fun c => c.indexId = indexId).map WriteCall.segment : List Segment)

variable [OrderedStore σ SegmentMetadata SegmentMetadata.compare] {lib : CatalogLibrary} {s : CatalogLife κ σ}

theorem CatalogLife.Kept.visible_shows (h : s.Kept lib) (now : UInt64) : s.catalog.Shows now (s.catalog.visible now) :=
  fun clock _ through => h.files.visible_eq h.payloads clock through

theorem CatalogLife.Kept.mapped_shows (h : s.Kept lib) (placed : s.catalog.Placed) (now : UInt64) :
    s.catalog.Shows now (s.catalog.mapped now) :=
  fun clock _ through => h.files.mapped_eq h.payloads placed clock through

end Shows

/-! ## Reads that find every earlier segment -/

namespace NodeLife

variable {κ σ τ Tx Ov : Type} [OrderedStore κ ContentsEntry ContentsEntry.compare]
  [OrderedStore σ SegmentMetadata SegmentMetadata.compare] [OrderedStore τ TimestampEntry TimestampEntry.compare]

omit [OrderedStore σ SegmentMetadata SegmentMetadata.compare] [OrderedStore τ TimestampEntry TimestampEntry.compare] in
/-- A step that reads committed state finds the segments of all earlier blocks. -/
def ReadsAll (d : ChainDesign Tx Ov) (s : NodeLife κ σ τ Tx Ov) (now : UInt64) : Prop :=
  ∀ n ∈ s.commit.pc.reads d, s.catalog.catalog.Caught n now

instance (d : ChainDesign Tx Ov) (s : NodeLife κ σ τ Tx Ov) (now : UInt64) : Decidable (s.ReadsAll d now) :=
  Option.decidableForallMem _

/-- A node in order whose jobs are of what was routed, with the one it is submitting. -/
structure InStep (d : ChainDesign Tx Ov) (lib : CatalogLibrary) (s : NodeLife κ σ τ Tx Ov) (b : Backend τ) : Prop where
  order : s.InOrder d lib b
  idle : s.writing = none → s.catalog.catalog.jobs.map Job.call = s.commit.backend.submitted.map Segment.call
  writing : ∀ j, s.writing = some j → ∃ n i ov version payload, s.commit.pc = .writeSegment n i ov version payload ∧
    s.catalog.catalog.jobs.map Job.call =
      s.commit.backend.submitted.map Segment.call ++ [(AddBlock.segmentOf n i version payload).call]

variable {d : ChainDesign Tx Ov} {config : BlockchainConfig} {lib : CatalogLibrary} {s s' : NodeLife κ σ τ Tx Ov}
  {b : Backend τ} {visible : Visible} {now : UInt64}

/-- With its jobs through, an index is shown what was routed for it. -/
theorem InStep.shown (h : s.InStep d lib b) (idle : s.writing = none) (shows : s.catalog.catalog.Shows now visible)
    (clock : ∀ r ∈ records s.catalog.catalog.store.toc, r.fileId ≤ now) {indexId : UInt16}
    (through : ∀ job ∈ s.catalog.catalog.jobs, job.call.indexId = indexId → job.stage.completed.isSome) :
    visible indexId = routedView s.commit.backend indexId := by
  rw [shows clock indexId through, h.idle idle]
  rfl

theorem InStep.shown_all (h : s.InStep d lib b) (idle : s.writing = none) (shows : s.catalog.catalog.Shows now visible)
    (caught : s.catalog.catalog.Caught none now) : visible = routedView s.commit.backend := by
  obtain ⟨through, clock⟩ := caught
  funext indexId
  apply h.shown idle shows clock
  intro job mem _
  exact through job mem (by simp)

/-- **What a step reads** is what was routed. -/
theorem InStep.readsSame (h : s.InStep d lib b) (few : d.pairCount ≤ 65536) (shows : s.catalog.catalog.Shows now visible)
    (reads : s.ReadsAll d now) : ReadsSame d s.commit.pc visible (routedView s.commit.backend) := by
  have idle : (∀ n i ov version payload, s.commit.pc ≠ .writeSegment n i ov version payload) → s.writing = none :=
    h.order.idle_elsewhere
  have all (idle : s.writing = none) : s.catalog.catalog.Caught none now → visible = routedView s.commit.backend :=
    h.shown_all idle shows
  have one (idle : s.writing = none) (i : Nat) (clock : ∀ r ∈ records s.catalog.catalog.store.toc, r.fileId ≤ now)
      (through : ∀ job ∈ s.catalog.catalog.jobs, job.call.indexId = UInt16.ofNat i → job.stage.completed.isSome) :
      visible (UInt16.ofNat i) = routedView s.commit.backend (UInt16.ofNat i) :=
    h.shown idle shows clock through
  have stores := h.order.stores
  have called := called_le s
  unfold ReadsAll at reads
  unfold ReadsSame
  unfold Stores at stores
  generalize s.commit.pc = pc at idle reads stores called ⊢
  cases pc with
  | verify todo ov =>
    cases todo with
    | nil => trivial
    | cons tx todo => exact all (idle (by simp)) (reads none rfl)
  | verifyApply tx todo ov => exact all (idle (by simp)) (reads none rfl)
  | commitApply n todo ov =>
    cases todo with
    | nil => trivial
    | cons tx todo => exact all (idle (by simp)) (reads none rfl)
  | sealing n i ov =>
    intro lt
    obtain ⟨through, clock⟩ := reads (some n) (by rw [Pc.reads, if_pos lt]; rfl)
    obtain ⟨-, segments, -, stored⟩ := stores
    apply one (idle (by simp)) i clock
    intro job mem index
    refine through job mem fun block => ?_
    have block := Option.some.inj block
    -- a job of this block is of a slot before `i`
    rcases h.order.jobs job mem with ⟨r, found, eq⟩ | ⟨-, slot⟩
    · have below := h.order.tracked r found
      rw [eq, block, stored.number] at below
      exact Nat.lt_irrefl _ below
    · have called : s.called ≤ i := called
      rw [index, UInt16.toNat_ofNat', Nat.mod_eq_of_lt (by omega)] at slot
      omega
  | _ => trivial

/-- A move of a job. -/
theorem InStep.job (h : s.InStep d lib b) {j : Nat} {a : Act} (ok : BackendMove s.catalog.catalog (.act j a))
    (moved : s.jobTurn lib j a = some s') : s'.InStep d lib b := by
  have order := h.order.job ok moved
  obtain ⟨catalog, acted, rfl⟩ := Option.map_eq_some_iff.1 moved
  have same := Catalog.calls_act (CatalogLife.step_move acted).1
  refine ⟨order, fun idle => same.trans (h.idle idle), fun j writing => ?_⟩
  obtain ⟨n, i, ov, version, payload, pc, jobs⟩ := h.writing j writing
  exact ⟨n, i, ov, version, payload, pc, same.trans jobs⟩

/-- The next call. -/
theorem InStep.call (h : s.InStep d lib b) {txs : List Tx} {millis : UInt64} (room : s.height.toNat + 1 < 2 ^ 64)
    (moved : s.step d config lib (.call txs millis) = some s') : s'.InStep d lib s.commit.backend := by
  have order := h.order.call room moved
  obtain ⟨ended, rfl⟩ := step_call moved
  have idle := h.order.idle_of_ended ended
  refine ⟨order, fun _ => h.idle idle, fun j writing => ?_⟩
  rw [show s.writing = some j from writing] at idle
  cases idle

/-- The next process, where no segment was being handed over. -/
theorem InStep.restart (h : s.InStep d lib b) (idle : s.writing = none) (room : s.height.toNat + 1 < 2 ^ 64)
    (moved : s.step d config lib .restart = some s') : s'.InStep d lib s.commit.backend.reopen := by
  have order := h.order.restart room moved
  cases moved
  refine ⟨order, fun _ => ?_, fun j none => by cases none⟩
  show (s.catalog.catalog.jobs.map Job.left).map Job.call = s.commit.backend.submitted.map Segment.call
  rw [List.map_map, ← h.idle idle]
  rfl

/-- **A turn of the call**, with reads that agree with what was routed: the call waits at
`writeSegment`, or takes the step it takes where it reads what was routed. -/
theorem InStep.commit (h : s.InStep d lib b) (few : d.pairCount ≤ 65536)
    (same : ReadsSame d s.commit.pc visible (routedView s.commit.backend)) (unrefused : s.catalog.catalog.Unrefused)
    (moved : s.commitTurn d config lib visible .opens none now = some s') : s'.InStep d lib b ∧
      ((s'.commit = s.commit ∧ ∃ n i ov version payload, s.commit.pc = .writeSegment n i ov version payload) ∨
        (s.commit.outcome = none ∧
          s'.commit = AddBlock.step d config (Env.calm (routedView s.commit.backend)) s.commit)) := by
  have order := h.order.commit few moved
  have congr := @AddBlock.step_congr τ Tx Ov d config _ s.commit _ _ same
  cases commitTurn_cases moved with
  | @submits n i ov version payload catalog pc idle called =>
    refine ⟨⟨order, fun none => (by cases none), fun j _ => ⟨n, i, ov, version, payload, pc, ?_⟩⟩,
      .inl ⟨rfl, n, i, ov, version, payload, pc⟩⟩
    obtain ⟨stepped, -⟩ := CatalogLife.step_move called
    simp only [Catalog.step, Option.some.injEq] at stepped
    show catalog.catalog.jobs.map Job.call = _
    rw [← stepped, List.map_append, h.idle idle]
    rfl
  | @returns n i ov version payload j job outcome pc writing there returned =>
    have fine : outcome = none := by
      have fine := unrefused job (List.mem_of_getElem? there)
      rwa [returned] at fine
    subst fine
    have going : s.commit.outcome = none := by rw [Commit.outcome, pc]
    refine ⟨⟨order, fun _ => ?_, fun j none => by cases none⟩, .inr ⟨going, congr⟩⟩
    obtain ⟨n', i', ov', version', payload', pc', jobs⟩ := h.writing j writing
    rw [pc] at pc'
    cases pc'
    show s.catalog.catalog.jobs.map Job.call = _
    rw [jobs]
    simp only [AddBlock.step, pc, List.map_append, List.map_singleton]
  | steps elsewhere going =>
    have idle := h.order.idle_elsewhere elsewhere
    refine ⟨⟨order, fun _ => ?_, fun j writing => ?_⟩, .inr ⟨going, congr⟩⟩
    · show s.catalog.catalog.jobs.map Job.call = _
      rw [h.idle idle, AddBlock.step_submitted elsewhere]
    · rw [show s.writing = some j from writing] at idle
      cases idle

theorem InStep.start (lib : CatalogLibrary) : (start : NodeLife κ σ τ Tx Ov).InStep d lib Backend.fresh :=
  ⟨.start lib, fun _ => rfl, fun j none => by cases none⟩

end NodeLife

end MagelessChain
