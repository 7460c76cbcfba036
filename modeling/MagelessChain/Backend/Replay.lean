import MagelessChain.Lib.Rebuild
import MagelessChain.Backend.WrittenBlocks

/-!
# The committed state as a function of the journal

The segments of a block are what its commit loop and its seals make of the committed state before
it. So where every read finds the segments of all earlier blocks, the catalog holds nothing that
the journal does not determine: running the commits of the blocks `getBlock` returns, from nothing,
gives the segments every index shows. That includes the blocks whose commit threw behind the
journal write: they keep the segments of the slots before the one that threw. It holds in every
process that opens the directory, so none has to run the commits again.
-/

namespace MagelessChain

open Lib OrderedStore

variable {κ σ τ Tx Ov : Type}

/-! ## The commits of a journal -/

/-- What each index shows where `segments` are committed. -/
def segmentsView (segments : List Segment) : Visible := fun indexId =>
  (((segments.map Segment.call).filter fun c => c.indexId = indexId).map WriteCall.segment : List Segment)

/-- The commit loop of `addBlock`: the override it leaves, `none` where an `apply` throws. -/
def applyBlock (d : ChainDesign Tx Ov) (view : Visible) : List Tx → Ov → Option Ov
  | [], ov => some ov
  | tx :: todo, ov =>
    match d.apply view tx ov with
    | (ov, .ok _) => applyBlock d view todo ov
    | (_, .error _) => none

/-- What `sealOverrideToSegments` routes at slot `i`, `none` where `seal` throws. -/
def slotSegments (d : ChainDesign Tx Ov) (view : Visible) (n : UInt64) (ov : Ov) (i : Nat) : Option (List Segment) :=
  match d.sealFamily i (view (UInt16.ofNat i)) ov with
  | .error _ => none
  | .ok payload =>
    if payload.length = 0 then some []
    else
      match d.encodingVersion (UInt16.ofNat i) with
      | none => some []
      | some version => some [AddBlock.segmentOf n i version payload]

/-- The loop of `sealOverrideToSegments` over `k` slots from `i` on. -/
def routeSlots (d : ChainDesign Tx Ov) (view : Visible) (n : UInt64) (ov : Ov) : Nat → Nat → List Segment
  | _, 0 => []
  | i, k + 1 =>
    match slotSegments d view n ov i with
    | none => []
    | some segments => segments ++ routeSlots d view n ov (i + 1) k

/-- What is routed of the override a commit loop leaves. -/
def sealBlock (d : ChainDesign Tx Ov) (view : Visible) (n : UInt64) : Option Ov → List Segment
  | none => []
  | some ov => routeSlots d view n ov 0 d.pairCount

/-- The segments of block `n` over the committed state before it. -/
def blockSegments (d : ChainDesign Tx Ov) (view : Visible) (n : UInt64) (txs : List Tx) : List Segment :=
  sealBlock d view n (applyBlock d view txs d.freshOverride)

/-- The segments of a journal, block by block. -/
def rebuildSegments (d : ChainDesign Tx Ov) (blocks : List (List Tx)) : List Segment :=
  rebuild (fun segments n txs => blockSegments d (segmentsView segments) (UInt64.ofNat n) txs) blocks

/-- One block more. -/
theorem rebuildSegments_snoc (d : ChainDesign Tx Ov) (blocks : List (List Tx)) (txs : List Tx) :
    rebuildSegments d (blocks ++ [txs]) = rebuildSegments d blocks ++
      blockSegments d (segmentsView (rebuildSegments d blocks)) (UInt64.ofNat blocks.length) txs :=
  rebuild_snoc blocks txs

/-- What a backend has routed is what its indexes would show. -/
theorem routedView_eq (b : Backend τ) : routedView b = segmentsView b.submitted := rfl

/-! ## What a call has still to route -/

section Call

variable {d : ChainDesign Tx Ov} {config : BlockchainConfig} {view : Visible}

/-- The segments the rest of a call routes, if its reads see `view`. -/
def AddBlock.pending (d : ChainDesign Tx Ov) (view : Visible) (c : Commit τ Tx Ov) : List Segment :=
  match c.pc with
  | .openEpoch n | .blockHeader n | .transactions n _ | .nextSlot n | .setTimestamp n | .track n =>
    blockSegments d view n c.txs
  | .commitApply n todo ov => sealBlock d view n (applyBlock d view todo ov)
  | .sealing n i ov => routeSlots d view n ov i (d.pairCount - i)
  | .writeSegment n i ov version payload =>
    AddBlock.segmentOf n i version payload :: routeSlots d view n ov (i + 1) (d.pairCount - (i + 1))
  | _ => []

/-- A call that has ended routes nothing more. -/
theorem AddBlock.pending_ended {c : Commit τ Tx Ov} (ended : c.outcome.isSome) : pending d view c = [] := by
  obtain ⟨txs, millis, duration, pc, b⟩ := c
  cases pc with
  | returned | threw | died => rfl
  | _ => cases ended

/-- Before it takes its number, it has nothing to route. -/
theorem AddBlock.pending_before {c : Commit τ Tx Ov} (here : c.pc.stretch = .before) : pending d view c = [] := by
  obtain ⟨txs, millis, duration, pc, b⟩ := c
  cases pc <;> first | rfl | cases here

/-- The first of the slots to come. -/
theorem routeSlots_next (d : ChainDesign Tx Ov) (view : Visible) (n : UInt64) (ov : Ov) {i : Nat} (lt : i < d.pairCount) :
    routeSlots d view n ov i (d.pairCount - i) =
      match slotSegments d view n ov i with
      | none => []
      | some segments => segments ++ routeSlots d view n ov (i + 1) (d.pairCount - (i + 1)) := by
  obtain ⟨k, eq⟩ : ∃ k, d.pairCount - i = k + 1 := ⟨d.pairCount - (i + 1), by omega⟩
  have rest : d.pairCount - (i + 1) = k := by omega
  rw [eq, rest]
  rfl

variable [OrderedStore τ TimestampEntry TimestampEntry.compare]

/-- **One step** routes the first of what was pending, if any: the two together stay the same. -/
theorem AddBlock.pending_step {c : Commit τ Tx Ov} (taken : c.pc.stretch ≠ .before) (writes : ∀ tx ∈ c.txs, d.Writes tx)
    (remaining : ∀ n todo, c.pc = .transactions n todo → ∀ tx ∈ todo, tx ∈ c.txs) :
    (step d config (Env.calm view) c).backend.submitted ++ pending d view (step d config (Env.calm view) c) =
      c.backend.submitted ++ pending d view c := by
  obtain ⟨txs, millis, duration, pc, b⟩ := c
  cases pc with
  | enter | verify | verifyApply | takeNumber => exact absurd rfl taken
  | openEpoch n =>
    have same : (b.getEpochFile n .opens).2.submitted = b.submitted := by
      unfold Backend.getEpochFile
      split <;> rfl
    obtain ⟨file, b', opened⟩ : ∃ file b', b.getEpochFile n .opens = (.ok (some file), b') := by
      unfold Backend.getEpochFile
      cases b.openEpochs (epochOf n) with
      | some file => exact ⟨file, b, rfl⟩
      | none => exact ⟨_, _, rfl⟩
    rw [opened] at same
    simp only [step, Env.calm, opened, pending]
    rw [same]
  | blockHeader n =>
    rw [step_submitted (by simp)]
    rfl
  | transactions n todo =>
    rw [step_submitted (by simp)]
    cases todo with
    | nil =>
      simp only [step]
      split <;> rfl
    | cons tx todo =>
      have wrote : (d.write tx).2 = none := writes tx (remaining n (tx :: todo) rfl tx List.mem_cons_self)
      simp only [step, wrote]
      rfl
  | nextSlot n =>
    rw [step_submitted (by simp)]
    rfl
  | setTimestamp n => rfl
  | track n => rfl
  | commitApply n todo ov =>
    rw [step_submitted (by simp)]
    cases todo with
    | nil => rfl
    | cons tx todo =>
      simp only [step, pending, applyBlock, Env.calm]
      rcases d.apply view tx ov with ⟨ov', result⟩
      cases result <;> rfl
  | sealing n i ov =>
    rw [step_submitted (by simp)]
    by_cases lt : i < d.pairCount
    · simp only [step, pending, Env.calm, if_pos lt, routeSlots_next d view n ov lt, slotSegments]
      cases d.sealFamily i (view (UInt16.ofNat i)) ov with
      | error e => rfl
      | ok payload =>
        dsimp only
        by_cases empty : payload.length = 0
        · simp only [if_pos empty, List.nil_append]
        · simp only [if_neg empty]
          cases d.encodingVersion (UInt16.ofNat i) with
          | none => simp only [List.nil_append]
          | some version => simp only [List.singleton_append]
    · have none : d.pairCount - i = 0 := by omega
      simp only [step, pending, if_neg lt, none, routeSlots]
  | writeSegment n i ov version payload =>
    simp only [step, Env.calm, pending, List.append_assoc, List.singleton_append]
  | report n =>
    rw [step_submitted (by simp)]
    by_cases zero : duration = 0
    · simp only [step, pending, if_pos zero]
    · simp only [step, pending, if_neg zero]
  | sync | finish | returned | threw | died => rfl

/-- The number is taken in one step. -/
theorem AddBlock.takes {env : Env} {c : Commit τ Tx Ov} (here : c.pc.stretch = .before)
    (there : (step d config env c).pc.stretch ≠ .before) : c.pc = .takeNumber := by
  obtain ⟨txs, millis, duration, pc, b⟩ := c
  cases pc with
  | takeNumber => rfl
  | enter =>
    simp only [step] at there
    split at there <;> exact absurd rfl there
  | verify todo ov =>
    cases todo with
    | nil => exact absurd rfl there
    | cons tx todo =>
      simp only [step] at there
      split at there <;> exact absurd rfl there
  | verifyApply tx todo ov =>
    simp only [step] at there
    split at there <;> exact absurd rfl there
  | returned | threw | died => exact absurd here there
  | _ => cases here

end Call

/-! ## What a call reads meanwhile -/

section Reading

variable [OrderedStore τ TimestampEntry TimestampEntry.compare] {d : ChainDesign Tx Ov}

omit [OrderedStore τ TimestampEntry TimestampEntry.compare] in
/-- The segments of the first slots of a block are of their indexes. -/
theorem Routed.indexes_below {n : UInt64} {ov : Ov} {i : Nat} {segments : List Segment} (h : Routed d n ov i segments)
    (few : i ≤ 65536) : ∀ segment ∈ segments, segment.indexId.toNat < i := by
  induction h with
  | start => exact fun segment mem => absurd mem List.not_mem_nil
  | pass _ _ _ ih => exact fun segment mem => Nat.lt_succ_of_lt (ih (by omega) segment mem)
  | @route i segments committed payload version _ _ _ _ ih =>
    have index : (UInt16.ofNat i).toNat = i := by
      rw [UInt16.toNat_ofNat']
      exact Nat.mod_eq_of_lt (by omega)
    intro segment mem
    rcases List.mem_append.1 mem with mem | mem
    · exact Nat.lt_succ_of_lt (ih (by omega) segment mem)
    · rw [List.mem_singleton.1 mem]
      show (UInt16.ofNat i).toNat < i + 1
      omega

/-- Segments of other indexes do not show. -/
theorem segmentsView_append_of_ne {segments more : List Segment} {indexId : UInt16}
    (others : ∀ segment ∈ more, segment.indexId ≠ indexId) :
    segmentsView (segments ++ more) indexId = segmentsView segments indexId := by
  have none : (more.map Segment.call).filter (fun c => c.indexId = indexId) = [] := by
    rw [List.filter_eq_nil_iff]
    intro c mem
    obtain ⟨segment, here, rfl⟩ := List.mem_map.1 mem
    rw [decide_eq_true_eq]
    exact others segment here
  unfold segmentsView
  rw [List.map_append, List.filter_append, none, List.append_nil]

/-- All that was routed shows a call what was committed before it: the segments of its own block
are of slots it has passed. -/
theorem Stores.readsSame {b : Backend τ} {c : Commit τ Tx Ov} (h : Stores d b c) (few : d.pairCount ≤ 65536) :
    ReadsSame d c.pc (routedView c.backend) (segmentsView b.submitted) := by
  rw [routedView_eq]
  obtain ⟨txs, millis, duration, pc, b'⟩ := c
  cases pc with
  | verify todo ov =>
    obtain rfl : b' = b := h
    cases todo with
    | nil => trivial
    | cons tx todo => rfl
  | verifyApply tx todo ov =>
    obtain rfl : b' = b := h
    rfl
  | commitApply n todo ov =>
    cases todo with
    | nil => trivial
    | cons tx todo =>
      have stored : Stored b b' n millis (trackBlock b.timestamps millis n) [] := h
      change segmentsView b'.submitted = segmentsView b.submitted
      rw [stored.submitted, List.append_nil]
  | sealing n i ov =>
    intro lt
    obtain ⟨le, segments, routed, stored⟩ := h
    change segmentsView b'.submitted _ = _
    rw [stored.submitted]
    apply segmentsView_append_of_ne
    intro segment mem same
    have below := routed.indexes_below (by omega) segment mem
    rw [same, UInt16.toNat_ofNat', Nat.mod_eq_of_lt (by omega)] at below
    omega
  | _ => trivial

end Reading

/-! ## One call after another -/

section Calls

variable [OrderedStore τ TimestampEntry TimestampEntry.compare] {d : ChainDesign Tx Ov} {config : BlockchainConfig}
  {c : Commit τ Tx Ov} {b : Backend τ} {before : List (List Tx)}

/-- The call under way started from `b`, whose journal is `before` and which had routed what that
journal leads to; it commits one block more. -/
structure Commit.Replaying (d : ChainDesign Tx Ov) (c : Commit τ Tx Ov) (b : Backend τ) (before : List (List Tx)) : Prop
    extends c.Journaling d b before where
  routed : b.submitted = rebuildSegments d before
  pending : c.pc.stretch ≠ .before →
    c.backend.submitted ++ AddBlock.pending d (segmentsView b.submitted) c = rebuildSegments d (before ++ [c.txs])

/-- **At any moment but while a block is written**: the segments routed, with those the call under
way has still to route, are those the journal leads to. -/
theorem Commit.Replaying.now_routed (h : c.Replaying d b before) (here : c.pc.stretch ≠ .writing) :
    c.backend.submitted ++ AddBlock.pending d (segmentsView b.submitted) c = rebuildSegments d (c.blocks before) := by
  cases stretch : c.pc.stretch with
  | writing => exact absurd stretch here
  | before =>
    have same := h.stores.before stretch
    rw [Commit.blocks_before stretch, AddBlock.pending_before stretch, List.append_nil, same]
    exact h.routed
  | committed =>
    rw [Commit.blocks_committed stretch]
    apply h.pending
    rw [stretch]
    simp

/-- The block takes its number with all its segments still to come. -/
theorem Commit.Replaying.takes (h : c.Replaying d b before) (pc : c.pc = .takeNumber) (env : Env) :
    (AddBlock.step d config env c).backend.submitted ++
        AddBlock.pending d (segmentsView b.submitted) (AddBlock.step d config env c) =
      rebuildSegments d (before ++ [c.txs]) := by
  have same := h.stores.before (by rw [pc]; rfl)
  have number : UInt64.ofNat before.length = b.metadata.currentBlockHeight := by
    rw [← h.journal.height]
    exact UInt64.ofNat_toNat
  rw [rebuildSegments_snoc, ← h.routed, number, AddBlock.step_submitted (by simp [pc]), same]
  simp only [AddBlock.step, pc, AddBlock.pending, same]

/-- **One step of the call under way**, reading all that was routed. -/
theorem Commit.Replaying.advance_routed (h : c.Replaying d b before) (few : d.pairCount ≤ 65536) (going : c.outcome = none) :
    (AddBlock.step d config (Env.calm (routedView c.backend)) c).Replaying d b before := by
  have txs := (step_args d config (Env.calm (routedView c.backend)) c).1
  have same := @AddBlock.step_congr τ Tx Ov d config _ _ _ _ (h.stores.readsSame few)
  refine ⟨h.toJournaling.advance going rfl, h.routed, fun taken => ?_⟩
  rw [txs]
  by_cases stretch : c.pc.stretch = .before
  · exact h.takes (AddBlock.takes stretch taken) _
  · rw [same, AddBlock.pending_step stretch h.sound.1.writes h.phase.remaining]
    exact h.pending stretch

/-- Between calls, and before a call has taken its number, all that the journal leads to is routed. -/
theorem Commit.Replaying.settled (h : c.Replaying d b before) (rests : c.outcome.isSome ∨ c.pc.stretch = .before) :
    c.pc.stretch ≠ .writing ∧ c.backend.submitted = rebuildSegments d (c.blocks before) := by
  have whole : c.pc.stretch ≠ .writing := by
    rcases rests with ended | stretch
    · exact h.whole ended
    · rw [stretch]
      simp
  have none : AddBlock.pending d (segmentsView b.submitted) c = [] := by
    rcases rests with ended | stretch
    · exact AddBlock.pending_ended ended
    · exact AddBlock.pending_before stretch
  have routed := h.now_routed whole
  rw [none, List.append_nil] at routed
  exact ⟨whole, routed⟩

/-- **The next call**, with room for its block. -/
theorem Commit.Replaying.next_routed (h : c.Replaying d b before) (ended : c.outcome.isSome) {txs : List Tx}
    (millis : UInt64) (sound : d.Sound txs) (room : c.backend.RoomFor d txs) :
    (AddBlock.start txs millis c.backend : Commit τ Tx Ov).Replaying d c.backend (c.blocks before) :=
  ⟨h.toJournaling.next ended millis sound room, (h.settled (.inl ended)).2, fun taken => absurd rfl taken⟩

/-- **The next process.** -/
theorem Commit.Replaying.reopen_routed (h : c.Replaying d b before) (rests : c.outcome.isSome ∨ c.pc.stretch = .before)
    (room : (c.backend.blocks d).length < maxBlocks) :
    (⟨[], 0, 0, .returned none, c.backend.reopen⟩ : Commit τ Tx Ov).Replaying d c.backend.reopen (c.blocks before) := by
  obtain ⟨whole, routed⟩ := h.settled rests
  exact ⟨h.toJournaling.reopen whole room, routed, fun taken => absurd rfl taken⟩

/-- **A read** leaves what is routed and what is still to be. -/
theorem Commit.Replaying.looked_routed {n : UInt64} {b' : Backend τ} (h : c.Replaying d b before)
    (looked : Looked n c.backend b') (free : ¬ c.pc.appendsTo (epochOf n)) :
    Commit.Replaying d { c with backend := b' } (c.lookedBase b b') before := by
  refine ⟨h.toJournaling.looked looked free, ?_, fun taken => ?_⟩
  · unfold lookedBase
    split
    · rename_i here
      rw [looked.frame.2.2, h.stores.before here]
      exact h.routed
    · exact h.routed
  · rw [lookedBase, if_neg taken, ← h.pending taken, ← looked.frame.2.2]
    rfl

theorem Commit.Replaying.start :
    (⟨[], 0, 0, .returned none, Backend.fresh⟩ : Commit τ Tx Ov).Replaying d Backend.fresh [] :=
  ⟨.start, rfl, fun taken => absurd rfl taken⟩

end Calls

/-! ## The node -/

section Runs

variable [OrderedStore κ ContentsEntry ContentsEntry.compare] [OrderedStore σ SegmentMetadata SegmentMetadata.compare]
  [OrderedStore τ TimestampEntry TimestampEntry.compare]

namespace NodeLife

/-- No block is being committed. -/
def Rests (s : NodeLife κ σ τ Tx Ov) : Prop := s.commit.outcome.isSome ∨ s.commit.pc.stretch = .before

/-- A turn that does not let the schedule into the chain: a call has room for its block, its reads find
every earlier segment, its surroundings do not fail, regions do not begin inside the first page of a file,
and no process ends while it commits. -/
def Replayable (d : ChainDesign Tx Ov) (s : NodeLife κ σ τ Tx Ov) : LifeTurn Tx → Prop
  | .call txs _ => d.Sound txs ∧ s.commit.backend.RoomFor d txs
  | .commit epochOpen trackerInsert now =>
    (epochOpen = .opens ∧ trackerInsert = none) ∧ s.ReadsAll d now ∧ s.catalog.catalog.Unrefused
  | .job j a => BackendMove s.catalog.catalog (.act j a) ∧ a.Placed
  | .restart => s.Rests ∧ (s.commit.backend.blocks d).length < maxBlocks

instance (d : ChainDesign Tx Ov) [∀ txs, Decidable (d.Sound txs)] (s : NodeLife κ σ τ Tx Ov) :
    DecidablePred (s.Replayable d)
  | .call txs _ => inferInstanceAs (Decidable (d.Sound txs ∧ s.commit.backend.RoomFor d txs))
  | .commit epochOpen trackerInsert now => inferInstanceAs (Decidable ((epochOpen = .opens ∧ trackerInsert = none) ∧
      s.ReadsAll d now ∧ ∀ job ∈ s.catalog.catalog.jobs, job.stage.returned.join = none))
  | .job j a => inferInstanceAs (Decidable (BackendMove s.catalog.catalog (.act j a) ∧ a.Placed))
  | .restart => inferInstanceAs (Decidable ((s.commit.outcome.isSome ∨ s.commit.pc.stretch = .before) ∧
      (s.commit.backend.blocks d).length < maxBlocks))

/-- A node whose jobs are of what was routed, and in their regions where their index looks for them. -/
structure OnTrack (d : ChainDesign Tx Ov) (lib : CatalogLibrary) (s : NodeLife κ σ τ Tx Ov) (b : Backend τ)
    (before : List (List Tx)) : Prop where
  inStep : s.InStep d lib b
  placed : s.catalog.catalog.Placed
  replaying : s.commit.Replaying d b before

variable {d : ChainDesign Tx Ov} {config : BlockchainConfig} {lib : CatalogLibrary} {s s' : NodeLife κ σ τ Tx Ov}
  {b : Backend τ} {before : List (List Tx)}

/-- A node that rests is not submitting. -/
theorem InStep.idle_of_rests (h : s.InStep d lib b) (rests : s.Rests) : s.writing = none := by
  apply h.order.idle_elsewhere
  intro n i ov version payload pc
  rcases rests with ended | stretch
  · rw [Commit.outcome, pc] at ended
    cases ended
  · rw [pc] at stretch
    cases stretch

/-- A turn of the call leaves the regions where they are. -/
theorem placed_commitTurn (placed : s.catalog.catalog.Placed) {visible : Visible} {epochOpen : OpenOutcome}
    {trackerInsert : Option Exn} {now : UInt64}
    (moved : s.commitTurn d config lib visible epochOpen trackerInsert now = some s') : s'.catalog.catalog.Placed := by
  cases commitTurn_cases moved with
  | submits _ _ called => exact placed.call (CatalogLife.step_move called).1
  | returns | steps => exact placed

/-- **One turn** keeps a node on track. -/
theorem OnTrack.turn (h : s.OnTrack d lib b before) (few : d.pairCount ≤ 65536) {t : LifeTurn Tx} (ok : s.Replayable d t)
    (moved : s.step d config lib t = some s') : s'.OnTrack d lib (s.base b t) (s.baseBlocks before t) := by
  cases t with
  | call txs millis =>
    obtain ⟨sound, room⟩ := ok
    have inStep := h.inStep.call (room_of_blocks room.1) moved
    obtain ⟨ended, rfl⟩ := step_call moved
    exact ⟨inStep, h.placed, h.replaying.next_routed ended millis sound room⟩
  | job j a =>
    have inStep := h.inStep.job ok.1 (step_job moved)
    obtain ⟨catalog, acted, rfl⟩ := Option.map_eq_some_iff.1 (step_job moved)
    exact ⟨inStep, h.placed.act ok.2 (CatalogLife.step_move acted).1, h.replaying⟩
  | restart =>
    obtain ⟨rests, room⟩ := ok
    have inStep := h.inStep.restart (h.inStep.idle_of_rests rests) (room_of_blocks room) moved
    cases moved
    exact ⟨inStep, h.placed.restart, h.replaying.reopen_routed rests room⟩
  | commit epochOpen trackerInsert now =>
    obtain ⟨⟨rfl, rfl⟩, reads, unrefused⟩ := ok
    have shows := h.inStep.order.kept.mapped_shows h.placed now
    obtain ⟨inStep, went⟩ := h.inStep.commit few (h.inStep.readsSame few shows reads) unrefused moved
    refine ⟨inStep, placed_commitTurn h.placed moved, ?_⟩
    rcases went with ⟨waits, -⟩ | ⟨going, advanced⟩
    · rw [waits]
      exact h.replaying
    · rw [advanced]
      exact h.replaying.advance_routed few going

/-- **A read** keeps it there. -/
theorem OnTrack.read (h : s.OnTrack d lib b before) {n : UInt64} (outcome : OpenOutcome)
    (free : ¬ s.commit.pc.appendsTo (epochOf n)) :
    (s.read d n outcome).OnTrack d lib (s.commit.lookedBase b (s.commit.backend.getBlock d n outcome).2) before :=
  ⟨h.inStep.read n outcome, h.placed, h.replaying.looked_routed (getBlock_looked d s.commit.backend n outcome) free⟩

theorem OnTrack.start (lib : CatalogLibrary) : (start : NodeLife κ σ τ Tx Ov).OnTrack d lib Backend.fresh [] :=
  ⟨.start lib, fun _ mem => absurd mem List.not_mem_nil, .start⟩

theorem OnTrack.run (few : d.pairCount ≤ 65536)
    (run : Reach (stepRead d config lib) (ReadsApart (Replayable d)) NodeLife.start s) : ∃ b before, s.OnTrack d lib b before := by
  refine stepRead_invariant (P := fun t => ∃ b before, t.OnTrack d lib b before) ?_ ?_ run ⟨_, _, .start lib⟩
  · rintro t turn t' ⟨b, before, track⟩ ok moved
    exact ⟨_, _, track.turn few ok moved⟩
  · rintro t n outcome ⟨b, before, track⟩ free
    exact ⟨_, _, track.read outcome free⟩

end NodeLife

end Runs

end MagelessChain
