import MagelessChain.Storage.CatalogRestarts
import MagelessChain.Backend.RoundTrip

/-!
# A node across restarts

`addBlock` takes the block number first, then writes the block, its timestamp, and its segments, and
the executor puts these in their files later still. A process may end at any of these moments, and any
of the calls may fail. The next process goes on from the header: no number is taken twice. So the
stores stay in this order: a segment in a catalog file is of a block the timestamp tracker has, and a
block the tracker has is below the height. That is what the catalog relies on, one segment for each block
and index.
-/

namespace MagelessChain

open Lib OrderedStore

/-! ## What a call does to the tracker -/

section Call

variable {τ Tx Ov : Type} [OrderedStore τ TimestampEntry TimestampEntry.compare] {d : ChainDesign Tx Ov}
  {config : BlockchainConfig} {b : Backend τ} {c : Commit τ Tx Ov}

/-- How many slots of its block a call has sealed, at most. -/
def Pc.upto : Pc Tx Ov → Nat
  | .sealing _ i _ => i
  | .writeSegment _ i _ _ _ => i + 1
  | .report _ | .sync _ | .finish _ | .returned (some _) | .threw .sealing _ | .threw .segmentWrite _
  | .died .reportDivision => 65536
  | _ => 0

/-- A call that may have sealed something has entered its block in the tracker. -/
theorem Stores.tracker_cases (h : Stores d b c) :
    (c.backend.timestamps = b.timestamps ∧ c.pc.upto = 0 ∧
      (c.backend = b ∨ c.backend.metadata.currentBlockHeight = b.metadata.currentBlockHeight + 1)) ∨
    (c.backend.timestamps = trackBlock b.timestamps c.millis b.metadata.currentBlockHeight ∧
      c.backend.metadata.currentBlockHeight = b.metadata.currentBlockHeight + 1) := by
  have early : ∀ {n time segments}, c.pc.upto = 0 → Stored b c.backend n time b.timestamps segments →
      (c.backend.timestamps = b.timestamps ∧ c.pc.upto = 0 ∧
        (c.backend = b ∨ c.backend.metadata.currentBlockHeight = b.metadata.currentBlockHeight + 1)) ∨
      (c.backend.timestamps = trackBlock b.timestamps c.millis b.metadata.currentBlockHeight ∧
        c.backend.metadata.currentBlockHeight = b.metadata.currentBlockHeight + 1) := by
    intro n time segments none stored
    refine .inl ⟨stored.tracker, none, .inr ?_⟩
    rw [stored.height, stored.number]
  have late : ∀ {n segments}, Stored b c.backend n c.millis (trackBlock b.timestamps c.millis n) segments →
      c.backend.timestamps = trackBlock b.timestamps c.millis b.metadata.currentBlockHeight ∧
        c.backend.metadata.currentBlockHeight = b.metadata.currentBlockHeight + 1 := by
    intro n segments stored
    rw [stored.tracker, stored.height, stored.number]
    exact ⟨rfl, rfl⟩
  obtain ⟨txs, millis, duration, pc, b'⟩ := c
  cases pc with
  | enter | verify | verifyApply | takeNumber =>
    obtain rfl : b' = b := h
    exact .inl ⟨rfl, rfl, .inl rfl⟩
  | openEpoch | blockHeader | transactions | nextSlot | setTimestamp | track => exact early rfl h
  | commitApply n todo ov => exact .inr (late h)
  | sealing n i ov =>
    obtain ⟨-, segments, -, stored⟩ := h
    exact .inr (late stored)
  | writeSegment n i ov version payload =>
    obtain ⟨-, -, -, -, segments, -, stored⟩ := h
    exact .inr (late stored)
  | report | sync | finish =>
    obtain ⟨ov, segments, -, stored⟩ := h
    exact .inr (late stored)
  | returned result =>
    cases result with
    | none =>
      obtain rfl : b' = b := h
      exact .inl ⟨rfl, rfl, .inl rfl⟩
    | some n =>
      obtain ⟨ov, segments, -, stored⟩ := h
      exact .inr (late stored)
  | threw site e =>
    cases site with
    | verification | verificationApply =>
      obtain rfl : b' = b := h
      exact .inl ⟨rfl, rfl, .inl rfl⟩
    | epochOpen | transactionWrite | trackerInsert =>
      obtain ⟨n, stored⟩ := h
      exact early rfl stored
    | commitApply =>
      obtain ⟨n, stored⟩ := h
      exact .inr (late stored)
    | sealing =>
      obtain ⟨n, i, ov, -, -, segments, -, stored⟩ := h
      exact .inr (late stored)
    | segmentWrite =>
      obtain ⟨n, i, ov, -, segments, -, stored⟩ := h
      exact .inr (late stored)
  | died signal =>
    cases signal with
    | gateDivision =>
      obtain rfl : b' = b := h
      exact .inl ⟨rfl, rfl, .inl rfl⟩
    | nullPointer =>
      obtain ⟨n, stored⟩ := h
      exact early rfl stored
    | reportDivision =>
      obtain ⟨n, ov, segments, -, stored⟩ := h
      exact .inr (late stored)

/-- A step goes on with the slots or leaves them. -/
theorem Stores.upto_step (h : Stores d b c) (few : d.pairCount ≤ 65536) (env : Env) :
    c.pc.upto ≤ (AddBlock.step d config env c).pc.upto := by
  obtain ⟨txs, millis, duration, pc, b'⟩ := c
  cases pc with
  | sealing n i ov =>
    obtain ⟨le, segments, routed, stored⟩ := h
    have below : i ≤ 65536 := by omega
    simp only [AddBlock.step]
    split
    · split
      · exact below
      · split
        · exact Nat.le_succ i
        · split <;> exact Nat.le_succ i
    · exact below
  | writeSegment n i ov version payload =>
    obtain ⟨lt, -⟩ := h
    simp only [AddBlock.step]
    split
    · show i + 1 ≤ 65536
      omega
    · exact Nat.le_refl _
  | report n =>
    simp only [AddBlock.step]
    split <;> exact Nat.le_refl _
  | sync | finish | returned | threw | died => exact Nat.le_refl _
  | _ => exact Nat.zero_le _

/-- A call comes to `writeSegment` from the slot it has sealed. -/
theorem AddBlock.step_to_write {env : Env} {n : UInt64} {i : Nat} {ov : Ov} {version : UInt16} {payload : Bytes}
    (h : (step d config env c).pc = .writeSegment n i ov version payload) : c.pc = .sealing n i ov := by
  obtain ⟨txs, millis, duration, pc, b⟩ := c
  cases pc with
  | sealing m j ov' =>
    simp only [step] at h
    split at h
    · split at h
      · cases h
      · split at h
        · cases h
        · split at h
          · cases h
          · cases h
            rfl
    · cases h
  | enter =>
    simp only [step] at h
    split at h <;> cases h
  | verify todo ov' =>
    cases todo with
    | nil => cases h
    | cons tx todo =>
      simp only [step] at h
      split at h <;> cases h
  | verifyApply tx todo ov' =>
    simp only [step] at h
    split at h <;> cases h
  | openEpoch m =>
    simp only [step] at h
    split at h <;> cases h
  | transactions m todo =>
    cases todo with
    | nil =>
      simp only [step] at h
      split at h <;> cases h
    | cons tx todo =>
      simp only [step] at h
      split at h <;> cases h
  | track m =>
    simp only [step] at h
    split at h <;> cases h
  | commitApply m todo ov' =>
    cases todo with
    | nil => cases h
    | cons tx todo =>
      simp only [step] at h
      split at h <;> cases h
  | writeSegment m j ov' version' payload' =>
    simp only [step] at h
    split at h <;> cases h
  | report m =>
    simp only [step] at h
    split at h <;> cases h
  | takeNumber | blockHeader | nextSlot | setTimestamp | sync | finish | returned | threw | died => cases h

end Call

/-! ## The node -/

/-- What `writeSegment` came to for its caller: nothing yet, its return, or what it threw. -/
def Stage.returned : Stage → Option (Option Exn)
  | .walking _ _ | .picking _ | .opening _ | .chosen _ _ => none
  | .refused e => some (some e)
  | _ => some none

/-- A move of a job makes no calls. -/
theorem Catalog.calls_act {κ σ : Type} [OrderedStore κ ContentsEntry ContentsEntry.compare]
    [OrderedStore σ SegmentMetadata SegmentMetadata.compare] {lib : CatalogLibrary} {s s' : Catalog κ σ} {j : Nat} {a : Act}
    (moved : s.step lib (.act j a) = some s') :
    s'.jobs.map Job.call = s.jobs.map Job.call := by
  rcases Catalog.step_cases moved with ⟨c, now, eq, -⟩ | ⟨-, -, job, front, back, stage, store, -, split, -, rfl, -⟩
  · cases eq
  · simp [split]

/-- The process ended inside `addBlock`. -/
def Commit.dead {τ Tx Ov : Type} (c : Commit τ Tx Ov) : Bool :=
  match c.pc with
  | .died _ => true
  | _ => false

/-- The caller of `addBlock`, the catalog with all jobs so far, and the job of the `writeSegment` the
caller is in. -/
structure NodeLife (κ σ τ Tx Ov : Type) where
  commit : Commit τ Tx Ov
  catalog : CatalogLife κ σ
  writing : Option Nat

/-- A call of `addBlock`, a step of the call under way with the failures of its surroundings, a move
of a job, or the end of the process and the next one. -/
inductive LifeTurn (Tx : Type) where
  | call (txs : List Tx) (millis : UInt64)
  | commit (epochOpen : OpenOutcome) (trackerInsert : Option Exn) (now : UInt64)
  | job (j : Nat) (a : Act)
  | restart

namespace NodeLife

variable {κ σ τ Tx Ov : Type} [OrderedStore κ ContentsEntry ContentsEntry.compare]
  [OrderedStore σ SegmentMetadata SegmentMetadata.compare] [OrderedStore τ TimestampEntry TimestampEntry.compare]

/-- An empty data directory. -/
def start : NodeLife κ σ τ Tx Ov := ⟨⟨[], 0, 0, .returned none, Backend.fresh⟩, CatalogLife.empty, none⟩

/-- A turn of the call under way, which reads the committed state as `visible` shows it. At `writeSegment`
the caller makes a job and goes on when it has been submitted or refused. -/
def commitTurn (d : ChainDesign Tx Ov) (config : BlockchainConfig) (lib : CatalogLibrary) (s : NodeLife κ σ τ Tx Ov)
    (visible : Visible) (epochOpen : OpenOutcome) (trackerInsert : Option Exn) (now : UInt64) :
    Option (NodeLife κ σ τ Tx Ov) :=
  match s.commit.pc, s.writing with
  | .writeSegment n i _ version payload, none =>
    (s.catalog.step lib (.move (.call ⟨UInt16.ofNat i, version, 0, n, n + 1, payload⟩ now))).map fun catalog =>
      { s with catalog, writing := some s.catalog.catalog.jobs.length }
  | .writeSegment _ _ _ _ _, some j =>
    match (s.catalog.catalog.jobs[j]?).bind fun job => job.stage.returned with
    | none => none
    | some outcome => some { s with
        commit := AddBlock.step d config ⟨visible, epochOpen, trackerInsert, outcome⟩ s.commit
        writing := none }
  | _, _ =>
    match s.commit.outcome with
    | some _ => none
    | none => some { s with commit := AddBlock.step d config ⟨visible, epochOpen, trackerInsert, none⟩ s.commit }

omit [OrderedStore τ TimestampEntry TimestampEntry.compare] in
/-- A move of a job. -/
def jobTurn (lib : CatalogLibrary) (s : NodeLife κ σ τ Tx Ov) (j : Nat) (a : Act) : Option (NodeLife κ σ τ Tx Ov) :=
  (s.catalog.step lib (.move (.act j a))).map fun catalog => { s with catalog }

/-- One turn. A process that died takes none but the restart. -/
def step (d : ChainDesign Tx Ov) (config : BlockchainConfig) (lib : CatalogLibrary) (s : NodeLife κ σ τ Tx Ov) :
    LifeTurn Tx → Option (NodeLife κ σ τ Tx Ov)
  | .call txs millis =>
    match s.commit.outcome with
    | none | some (.died _) => none
    | some _ => some { s with commit := AddBlock.start txs millis s.commit.backend }
  | .commit epochOpen trackerInsert now =>
    s.commitTurn d config lib (s.catalog.catalog.mapped now) epochOpen trackerInsert now
  | .job j a => if s.commit.dead then none else s.jobTurn lib j a
  | .restart =>
    (s.catalog.step lib .reopen).map fun catalog =>
      ⟨⟨[], 0, 0, .returned none, s.commit.backend.reopen⟩, catalog, none⟩

/-- The height of the chain. -/
def height (s : NodeLife κ σ τ Tx Ov) : UInt64 := s.commit.backend.metadata.currentBlockHeight

/-- The chain has not come to its last block number, nor the clock to its last reading. -/
def Allowed (s : NodeLife κ σ τ Tx Ov) : LifeTurn Tx → Prop
  | .call _ _ | .restart => s.height.toNat + 1 < 2 ^ 64
  | .commit _ _ _ => True
  | .job j a => BackendMove s.catalog.catalog (.act j a)

instance (s : NodeLife κ σ τ Tx Ov) : (t : LifeTurn Tx) → Decidable (s.Allowed t)
  | .call _ _ | .restart => inferInstanceAs (Decidable (s.height.toNat + 1 < 2 ^ 64))
  | .commit _ _ _ => .isTrue trivial
  | .job j a => inferInstanceAs (Decidable (BackendMove s.catalog.catalog (.act j a)))

/-- Everything a turn of the call can do: it makes its job, goes on with what the job came to, or takes a
step elsewhere. -/
inductive CommitTurn (d : ChainDesign Tx Ov) (config : BlockchainConfig) (lib : CatalogLibrary) (s : NodeLife κ σ τ Tx Ov)
    (visible : Visible) (epochOpen : OpenOutcome) (trackerInsert : Option Exn) (now : UInt64) : NodeLife κ σ τ Tx Ov → Prop where
  | submits {n : UInt64} {i : Nat} {ov : Ov} {version : UInt16} {payload : Bytes} {catalog : CatalogLife κ σ} :
      s.commit.pc = .writeSegment n i ov version payload → s.writing = none →
      s.catalog.step lib (.move (.call ⟨UInt16.ofNat i, version, 0, n, n + 1, payload⟩ now)) = some catalog →
      CommitTurn d config lib s visible epochOpen trackerInsert now ⟨s.commit, catalog, some s.catalog.catalog.jobs.length⟩
  | returns {n : UInt64} {i : Nat} {ov : Ov} {version : UInt16} {payload : Bytes} {j : Nat} {job : Job} {outcome : Option Exn} :
      s.commit.pc = .writeSegment n i ov version payload → s.writing = some j → s.catalog.catalog.jobs[j]? = some job →
      job.stage.returned = some outcome → CommitTurn d config lib s visible epochOpen trackerInsert now
        ⟨AddBlock.step d config ⟨visible, epochOpen, trackerInsert, outcome⟩ s.commit, s.catalog, none⟩
  | steps : (∀ n i ov version payload, s.commit.pc ≠ .writeSegment n i ov version payload) → s.commit.outcome = none →
      CommitTurn d config lib s visible epochOpen trackerInsert now
        ⟨AddBlock.step d config ⟨visible, epochOpen, trackerInsert, none⟩ s.commit, s.catalog, s.writing⟩

theorem commitTurn_cases {d : ChainDesign Tx Ov} {config : BlockchainConfig} {lib : CatalogLibrary}
    {s s' : NodeLife κ σ τ Tx Ov} {visible : Visible} {epochOpen : OpenOutcome} {trackerInsert : Option Exn} {now : UInt64}
    (moved : s.commitTurn d config lib visible epochOpen trackerInsert now = some s') :
    CommitTurn d config lib s visible epochOpen trackerInsert now s' := by
  unfold commitTurn at moved
  split at moved
  · rename_i pc idle
    obtain ⟨catalog, called, rfl⟩ := Option.map_eq_some_iff.1 moved
    exact .submits pc idle called
  · rename_i pc writing
    split at moved
    · cases moved
    · rename_i outcome came
      obtain ⟨job, there, returned⟩ := Option.bind_eq_some_iff.1 came
      cases moved
      exact .returns pc writing there returned
  · rename_i no_call no_return
    split at moved
    · cases moved
    · rename_i going
      cases moved
      refine .steps (fun n i ov version payload pc => ?_) going
      cases writing : s.writing with
      | none => exact no_call n i ov version payload pc writing
      | some j => exact no_return n i ov version payload j pc writing

/-- A turn of the call is an effect of it, or leaves it where it is. -/
theorem commit_cases {d : ChainDesign Tx Ov} {config : BlockchainConfig} {lib : CatalogLibrary}
    {s s' : NodeLife κ σ τ Tx Ov} {epochOpen : OpenOutcome} {trackerInsert : Option Exn} {now : UInt64}
    (moved : s.step d config lib (.commit epochOpen trackerInsert now) = some s') :
    s'.commit = s.commit ∨
      ∃ env, env.epochOpen = epochOpen ∧ s.commit.outcome = none ∧ s'.commit = AddBlock.step d config env s.commit := by
  have turn := commitTurn_cases (show s.commitTurn d config lib _ _ _ _ = some s' from moved)
  cases turn with
  | submits => exact .inl rfl
  | returns pc => exact .inr ⟨_, rfl, by rw [Commit.outcome, pc], rfl⟩
  | steps _ going => exact .inr ⟨_, rfl, going, rfl⟩

theorem step_job {d : ChainDesign Tx Ov} {config : BlockchainConfig} {lib : CatalogLibrary}
    {s s' : NodeLife κ σ τ Tx Ov} {j : Nat} {a : Act} (moved : s.step d config lib (.job j a) = some s') :
    s.jobTurn lib j a = some s' := by
  simp only [step] at moved
  split at moved
  · cases moved
  · exact moved

theorem job_commit {d : ChainDesign Tx Ov} {config : BlockchainConfig} {lib : CatalogLibrary}
    {s s' : NodeLife κ σ τ Tx Ov} {j : Nat} {a : Act} (moved : s.step d config lib (.job j a) = some s') :
    s'.commit = s.commit := by
  obtain ⟨catalog, -, rfl⟩ := Option.map_eq_some_iff.1 (step_job moved)
  rfl

/-- A call begins where the one before has ended. -/
theorem step_call {d : ChainDesign Tx Ov} {config : BlockchainConfig} {lib : CatalogLibrary}
    {s s' : NodeLife κ σ τ Tx Ov} {txs : List Tx} {millis : UInt64} (moved : s.step d config lib (.call txs millis) = some s') :
    s.commit.outcome.isSome ∧ s' = { s with commit := AddBlock.start txs millis s.commit.backend } := by
  simp only [step] at moved
  split at moved
  · cases moved
  · cases moved
  · rename_i ended
    cases moved
    exact ⟨by rw [ended]; rfl, rfl⟩

/-! ## The order of the stores -/

omit [OrderedStore κ ContentsEntry ContentsEntry.compare] [OrderedStore σ SegmentMetadata SegmentMetadata.compare]
  [OrderedStore τ TimestampEntry TimestampEntry.compare] in
/-- How many slots of its block the call under way has handed to `writeSegment`, at most. -/
def called (s : NodeLife κ σ τ Tx Ov) : Nat :=
  match s.commit.pc, s.writing with
  | .writeSegment _ i _ _ _, none => i
  | pc, _ => pc.upto

/-- A node whose call under way started from `b`: the jobs are of blocks the tracker had then, or of
the first slots of the block of the call. -/
structure InOrder (d : ChainDesign Tx Ov) (lib : CatalogLibrary) (s : NodeLife κ σ τ Tx Ov) (b : Backend τ) : Prop where
  kept : s.catalog.Kept lib
  run : Reach (CatalogLife.step lib) CatalogLife.Allowed CatalogLife.empty s.catalog
  room : b.metadata.currentBlockHeight.toNat + 1 < 2 ^ 64
  stores : Stores d b s.commit
  tracked : ∀ r ∈ records b.timestamps, r.blockNumber.toNat < b.metadata.currentBlockHeight.toNat
  jobs : ∀ job ∈ s.catalog.catalog.jobs, (∃ r ∈ records b.timestamps, r.blockNumber = job.call.startBlock) ∨
    (job.call.startBlock = b.metadata.currentBlockHeight ∧ job.call.indexId.toNat < s.called)
  writing : s.writing.isSome → ∃ n i ov version payload, s.commit.pc = .writeSegment n i ov version payload

variable {d : ChainDesign Tx Ov} {config : BlockchainConfig} {lib : CatalogLibrary} {s s' : NodeLife κ σ τ Tx Ov}
  {b : Backend τ}

omit [OrderedStore κ ContentsEntry ContentsEntry.compare] [OrderedStore σ SegmentMetadata SegmentMetadata.compare]
  [OrderedStore τ TimestampEntry TimestampEntry.compare] in
theorem called_le (s : NodeLife κ σ τ Tx Ov) : s.called ≤ s.commit.pc.upto := by
  unfold called
  split
  · rename_i pc none
    rw [pc]
    exact Nat.le_succ _
  · exact Nat.le_refl _

omit [OrderedStore κ ContentsEntry ContentsEntry.compare] [OrderedStore σ SegmentMetadata SegmentMetadata.compare]
  [OrderedStore τ TimestampEntry TimestampEntry.compare] in
theorem called_elsewhere (elsewhere : ∀ n i ov version payload, s.commit.pc ≠ .writeSegment n i ov version payload) :
    s.called = s.commit.pc.upto := by
  unfold called
  split
  · rename_i pc none
    exact absurd pc (elsewhere _ _ _ _ _)
  · rfl

/-- The tracker a call leaves has the entries it had, and one of its own block once it may have sealed
something. -/
theorem InOrder.tracker (h : s.InOrder d lib b) :
    (∀ r ∈ records b.timestamps, r ∈ records s.commit.backend.timestamps) ∧
      (∀ r ∈ records s.commit.backend.timestamps, r.blockNumber.toNat < s.height.toNat) ∧
      (0 < s.commit.pc.upto → ∃ r ∈ records s.commit.backend.timestamps,
        r.blockNumber = b.metadata.currentBlockHeight) := by
  have next : s.height = b.metadata.currentBlockHeight + 1 → s.height.toNat = b.metadata.currentBlockHeight.toNat + 1 := by
    intro height
    rw [height, UInt64.toNat_add]
    exact Nat.mod_eq_of_lt h.room
  rcases h.stores.tracker_cases with ⟨same, none, height⟩ | ⟨tracked, height⟩
  · rw [same]
    refine ⟨fun r mem => mem, fun r mem => ?_, fun some => by omega⟩
    have below := h.tracked r mem
    rcases height with eq | height
    · show _ < s.commit.backend.metadata.currentBlockHeight.toNat
      rw [eq]
      exact below
    · have := next height
      omega
  · have height := next height
    have fresh : ∀ r ∈ records b.timestamps,
        TimestampEntry.compare r ⟨s.commit.millis, b.metadata.currentBlockHeight⟩ ≠ .eq := by
      intro r mem eq
      have below := h.tracked r mem
      rw [TimestampEntry.eq_of_compare eq] at below
      exact Nat.lt_irrefl _ below
    have mem_tracked : ∀ r, r ∈ records s.commit.backend.timestamps ↔
        r = ⟨s.commit.millis, b.metadata.currentBlockHeight⟩ ∨ r ∈ records b.timestamps := by
      intro r
      rw [tracked]
      exact mem_insert _ _ fresh r
    refine ⟨fun r mem => (mem_tracked r).2 (.inr mem), fun r mem => ?_, fun _ => ⟨_, (mem_tracked _).2 (.inl rfl), rfl⟩⟩
    rcases (mem_tracked r).1 mem with rfl | mem
    · show b.metadata.currentBlockHeight.toNat < _
      omega
    · have below := h.tracked r mem
      omega

/-- **The order of the stores** at any moment: the block of a job is in the tracker. -/
theorem InOrder.entered (h : s.InOrder d lib b) {job : Job} (mem : job ∈ s.catalog.catalog.jobs) :
    ∃ r ∈ records s.commit.backend.timestamps, r.blockNumber = job.call.startBlock := by
  obtain ⟨stays, -, own⟩ := h.tracker
  rcases h.jobs job mem with ⟨r, found, eq⟩ | ⟨block, index⟩
  · exact ⟨r, stays r found, eq⟩
  · have upto := called_le s
    rw [block]
    exact own (by omega)

/-- The next call, or the next process, finds the stores in order. -/
theorem InOrder.begin (h : s.InOrder d lib b) (room : s.height.toNat + 1 < 2 ^ 64) {c : Commit τ Tx Ov} {b' : Backend τ}
    (metadata : b'.metadata = s.commit.backend.metadata) (timestamps : b'.timestamps = s.commit.backend.timestamps)
    (stores : Stores d b' c) {catalog : CatalogLife κ σ} (kept : catalog.Kept lib)
    (run : Reach (CatalogLife.step lib) CatalogLife.Allowed CatalogLife.empty catalog)
    (calls : catalog.catalog.jobs.map Job.call = s.catalog.catalog.jobs.map Job.call) :
    InOrder d lib ⟨c, catalog, none⟩ b' where
  kept := kept
  run := run
  room := by
    rw [metadata]
    exact room
  stores := stores
  tracked := by
    rw [metadata, timestamps]
    exact h.tracker.2.1
  jobs := by
    intro job mem
    have called : job.call ∈ s.catalog.catalog.jobs.map Job.call := calls ▸ List.mem_map_of_mem mem
    obtain ⟨old, here, same⟩ := List.mem_map.1 called
    rw [timestamps, ← same]
    exact .inl (h.entered here)
  writing := nofun

/-- Elsewhere than in `writeSegment` no segment is being handed over. -/
theorem InOrder.idle_elsewhere (h : s.InOrder d lib b)
    (elsewhere : ∀ n i ov version payload, s.commit.pc ≠ .writeSegment n i ov version payload) : s.writing = none := by
  by_contra writing
  obtain ⟨n, i, ov, version, payload, pc⟩ := h.writing (Option.isSome_iff_ne_none.2 writing)
  exact elsewhere n i ov version payload pc

theorem InOrder.idle_of_ended (h : s.InOrder d lib b) (ended : s.commit.outcome.isSome) : s.writing = none := by
  apply h.idle_elsewhere
  intro n i ov version payload pc
  rw [Commit.outcome, pc] at ended
  cases ended

/-- **A call of `addBlock`.** -/
theorem InOrder.call (h : s.InOrder d lib b) {txs : List Tx} {millis : UInt64} (room : s.height.toNat + 1 < 2 ^ 64)
    (moved : s.step d config lib (.call txs millis) = some s') : s'.InOrder d lib s.commit.backend := by
  obtain ⟨ended, rfl⟩ := step_call moved
  have stores : Stores d s.commit.backend (AddBlock.start txs millis s.commit.backend : Commit τ Tx Ov) := rfl
  rw [h.idle_of_ended ended]
  exact h.begin room rfl rfl stores h.kept h.run rfl

/-- **The end of the process**, at whatever moment. -/
theorem InOrder.restart (h : s.InOrder d lib b) (room : s.height.toNat + 1 < 2 ^ 64)
    (moved : s.step d config lib .restart = some s') : s'.InOrder d lib s.commit.backend.reopen := by
  cases moved
  have stores : Stores d s.commit.backend.reopen (⟨[], 0, 0, .returned none, s.commit.backend.reopen⟩ : Commit τ Tx Ov) :=
    rfl
  refine h.begin room ?_ ?_ stores ?_ (h.run.tail (m := .reopen) trivial rfl) ?_
  · rfl
  · rfl
  · exact h.kept.step (m := .reopen) trivial rfl
  · show (s.catalog.catalog.jobs.map Job.left).map Job.call = _
    rw [List.map_map]
    rfl

/-- **A move of a job.** -/
theorem InOrder.job (h : s.InOrder d lib b) {j : Nat} {a : Act} (ok : BackendMove s.catalog.catalog (.act j a))
    (moved : s.jobTurn lib j a = some s') : s'.InOrder d lib b := by
  obtain ⟨catalog, acted, rfl⟩ := Option.map_eq_some_iff.1 moved
  have calls := Catalog.calls_act (CatalogLife.step_move acted).1
  refine ⟨h.kept.step (m := .move (.act j a)) ok acted, h.run.tail (m := .move (.act j a)) ok acted, h.room, h.stores,
    h.tracked, fun job mem => ?_, h.writing⟩
  have called : job.call ∈ s.catalog.catalog.jobs.map Job.call := calls ▸ List.mem_map_of_mem mem
  obtain ⟨old, here, same⟩ := List.mem_map.1 called
  rw [← same]
  exact h.jobs old here

/-- **The call of `writeSegment`** is for a slot no job had, in whichever process. -/
theorem InOrder.submit (h : s.InOrder d lib b) (few : d.pairCount ≤ 65536) {n : UInt64} {i : Nat} {ov : Ov}
    {version : UInt16} {payload : Bytes} {now : UInt64} (pc : s.commit.pc = .writeSegment n i ov version payload)
    (idle : s.writing = none) {catalog : CatalogLife κ σ}
    (moved : s.catalog.step lib (.move (.call ⟨UInt16.ofNat i, version, 0, n, n + 1, payload⟩ now)) = some catalog) :
    InOrder d lib ⟨s.commit, catalog, some s.catalog.catalog.jobs.length⟩ b := by
  have stores := h.stores
  unfold Stores at stores
  rw [pc] at stores
  obtain ⟨lt, -, -, -, segments, -, stored⟩ := stores
  have index : (UInt16.ofNat i).toNat = i := by
    rw [UInt16.toNat_ofNat']
    exact Nat.mod_eq_of_lt (by omega)
  have upto : s.called = i := by
    unfold called
    rw [pc, idle]
  have own : ∀ job ∈ s.catalog.catalog.jobs, job.call.slot ≠ (UInt16.ofNat i, n) := by
    intro job mem same
    have block : job.call.startBlock = n := congrArg Prod.snd same
    have slot : job.call.indexId = UInt16.ofNat i := congrArg Prod.fst same
    rcases h.jobs job mem with ⟨r, found, eq⟩ | ⟨-, below⟩
    · have below := h.tracked r found
      rw [eq, block, stored.number] at below
      exact Nat.lt_irrefl _ below
    · rw [slot, index, upto] at below
      exact Nat.lt_irrefl _ below
  have ok : s.catalog.Allowed (.move (.call ⟨UInt16.ofNat i, version, 0, n, n + 1, payload⟩ now)) := by
    refine ⟨⟨?_, rfl⟩, own⟩
    have room := h.room
    rw [← stored.number] at room
    show (n + 1).toNat = n.toNat + 1
    rw [UInt64.toNat_add]
    exact Nat.mod_eq_of_lt room
  have called' : called (⟨s.commit, catalog, some s.catalog.catalog.jobs.length⟩ : NodeLife κ σ τ Tx Ov) = i + 1 := by
    unfold called
    rw [pc]
    rfl
  refine ⟨h.kept.step ok moved, h.run.tail ok moved, h.room, h.stores, h.tracked, fun job mem => ?_,
    fun _ => ⟨n, i, ov, version, payload, pc⟩⟩
  obtain ⟨stepped, -⟩ := CatalogLife.step_move moved
  simp only [Catalog.step, Option.some.injEq] at stepped
  rw [← stepped] at mem
  rw [called']
  rcases mem_of_mem_called mem with rfl | mem
  · refine .inr ⟨stored.number, ?_⟩
    show (UInt16.ofNat i).toNat < i + 1
    omega
  · apply (h.jobs job mem).imp_right
    rintro ⟨block, below⟩
    exact ⟨block, by omega⟩

/-- **A step of the call under way**, whatever fails in it. -/
theorem InOrder.advance (h : s.InOrder d lib b) (few : d.pairCount ≤ 65536) (env : Env) :
    InOrder d lib ⟨AddBlock.step d config env s.commit, s.catalog, none⟩ b := by
  have later : s.called ≤ called (⟨AddBlock.step d config env s.commit, s.catalog, none⟩ : NodeLife κ σ τ Tx Ov) := by
    by_cases write : ∃ n i ov version payload, (AddBlock.step d config env s.commit).pc = .writeSegment n i ov version payload
    · obtain ⟨n, i, ov, version, payload, pc⟩ := write
      have before := AddBlock.step_to_write pc
      have upto := called_le s
      unfold called at upto ⊢
      rw [before] at upto ⊢
      rw [pc]
      exact upto
    · have elsewhere : ∀ n i ov version payload,
          (AddBlock.step d config env s.commit).pc ≠ .writeSegment n i ov version payload :=
        fun n i ov version payload pc => write ⟨n, i, ov, version, payload, pc⟩
      rw [called_elsewhere (s := ⟨AddBlock.step d config env s.commit, s.catalog, none⟩) elsewhere]
      exact Nat.le_trans (called_le s) (h.stores.upto_step few env)
  refine ⟨h.kept, h.run, h.room, h.stores.step env, h.tracked, fun job mem => ?_, nofun⟩
  apply (h.jobs job mem).imp_right
  rintro ⟨block, below⟩
  exact ⟨block, by omega⟩

/-- **A turn of the call**, whatever it reads. -/
theorem InOrder.commit (h : s.InOrder d lib b) (few : d.pairCount ≤ 65536) {visible : Visible} {epochOpen : OpenOutcome}
    {trackerInsert : Option Exn} {now : UInt64}
    (moved : s.commitTurn d config lib visible epochOpen trackerInsert now = some s') : s'.InOrder d lib b := by
  cases commitTurn_cases moved with
  | submits pc idle called => exact h.submit few pc idle called
  | returns => exact h.advance few _
  | steps elsewhere going =>
    rw [h.idle_elsewhere elsewhere]
    exact h.advance few _

/-- **One turn** keeps the stores in order. -/
theorem InOrder.turn (h : s.InOrder d lib b) (few : d.pairCount ≤ 65536) {t : LifeTurn Tx} (ok : s.Allowed t)
    (moved : s.step d config lib t = some s') : ∃ b', s'.InOrder d lib b' := by
  cases t with
  | call txs millis => exact ⟨_, h.call ok moved⟩
  | job j a => exact ⟨_, h.job ok (step_job moved)⟩
  | restart => exact ⟨_, h.restart ok moved⟩
  | commit epochOpen trackerInsert now => exact ⟨_, h.commit few moved⟩

theorem InOrder.start (lib : CatalogLibrary) : (start : NodeLife κ σ τ Tx Ov).InOrder d lib Backend.fresh where
  kept := .empty lib
  run := .refl
  room := (by decide : 0 + 1 < 2 ^ 64)
  stores := rfl
  tracked := by
    show ∀ r ∈ records (OrderedStore.empty : τ), _
    rw [records_empty]
    exact fun r mem => absurd mem List.not_mem_nil
  jobs := fun _ mem => absurd mem List.not_mem_nil
  writing := nofun

/-- What the stores of a node keep over all its processes: a segment in a file is of one block, which the
tracker has, and is the only one of its index and block; a block that the tracker has is below the
height. -/
structure Ordered (s : NodeLife κ σ τ Tx Ov) : Prop where
  entered : ∀ file f, s.catalog.catalog.store.files file = some f → ∀ m ∈ records f.segmentIndex,
    m.blockRangeEnd.toNat = m.blockRangeStart.toNat + 1 ∧
      ∃ r ∈ records s.commit.backend.timestamps, r.blockNumber = m.blockRangeStart
  once : ∀ file f file' f', s.catalog.catalog.store.files file = some f → s.catalog.catalog.store.files file' = some f' →
    ∀ m ∈ records f.segmentIndex, ∀ m' ∈ records f'.segmentIndex, m.indexId = m'.indexId →
      m.blockRangeStart = m'.blockRangeStart → file = file' ∧ m = m'
  below : ∀ r ∈ records s.commit.backend.timestamps, r.blockNumber.toNat < s.height.toNat

/-- **The stores stay in order** over any number of processes, wherever they end and whatever fails, and
all a catalog is asked for is what its queries rest on. -/
theorem stores_ordered (d : ChainDesign Tx Ov) (config : BlockchainConfig) (lib : CatalogLibrary)
    (few : d.pairCount ≤ 65536) (s : NodeLife κ σ τ Tx Ov) (run : Reach (step d config lib) Allowed start s) :
    s.Ordered ∧ Reach (CatalogLife.step lib) CatalogLife.Allowed CatalogLife.empty s.catalog := by
  obtain ⟨b, order⟩ : ∃ b, s.InOrder d lib b := by
    refine run.invariant (P := fun s => ∃ b, s.InOrder d lib b) ⟨_, .start lib⟩ ?_
    rintro s t s' ⟨b, h⟩ ok moved
    exact h.turn few ok moved
  have files := order.kept.files
  refine ⟨⟨?_, ?_, order.tracker.2.1⟩, order.run⟩
  · intro file f there m stored
    obtain ⟨c, offset, ⟨job, mem, rfl, -⟩, rfl⟩ := (files.index file f there m).1 stored
    exact ⟨(files.slots.oneBlock job mem).range, order.entered mem⟩
  · intro file f file' f' there there' m stored m' stored' index block
    obtain ⟨c, offset, ⟨job, mem, rfl, indexed⟩, rfl⟩ := (files.index file f there m).1 stored
    obtain ⟨c', offset', ⟨job', mem', rfl, indexed'⟩, rfl⟩ := (files.index file' f' there' m').1 stored'
    obtain rfl : job = job' := files.slots.unique mem mem' (Prod.ext index block)
    rw [indexed, Option.some.injEq, Prod.mk.injEq] at indexed'
    obtain ⟨rfl, rfl⟩ := indexed'
    exact ⟨rfl, rfl⟩

end NodeLife

/-! ## A process that ends inside a segment write -/

section Runs

/-- Transactions of one byte and one index, whose family seals how many segments the index has,
its own counted. -/
def countDesign : ChainDesign UInt8 Unit :=
  { byteDesign with
    familySize := 1
    indexCount := 1
    encodingVersion := fun _ => some 0
    sealFamily := fun _ committed _ => .ok [UInt8.ofNat (committed.card + 1)] }

abbrev ListNodeLife := NodeLife (SortedRecords ContentsEntry ContentsEntry.compare)
  (SortedRecords SegmentMetadata SegmentMetadata.compare) (SortedRecords TimestampEntry TimestampEntry.compare) UInt8 Unit

/-- A call of `addBlock` with one transaction, up to the return of its `writeSegment`, whose job `j` goes
to a new file. -/
def blockTurns (tx : UInt8) (millis now : UInt64) (j : Nat) : List (LifeTurn UInt8) :=
  .call [tx] millis :: List.replicate 16 (.commit .opens none now) ++
    [.job j .walk, .job j (.number now), .job j (.openNew true), .job j .register, .commit .opens none now]

/-- The first process ends when its segment is in the index and the table of contents is not updated. -/
def cutTurns : List (LifeTurn UInt8) :=
  blockTurns 7 100 50 0 ++
    [.job 0 (.allocate (some 5000)), .job 0 (.store (some 1)), .job 0 (.insert false), .restart] ++
  blockTurns 9 200 60 1 ++ [.job 1 (.allocate (some 5000)), .job 1 (.store (some 1)), .job 1 (.insert false)]

/-- The task of job `j`, which writes a segment of `length` bytes. -/
def wholeTask {Tx : Type} (j : Nat) (offset : UInt64) (length : Nat) : List (LifeTurn Tx) :=
  [.job j (.allocate (some offset)), .job j (.store (some length)), .job j (.insert false), .job j (.update 0),
    .job j .unregister]

/-- Turns, none if one of them is not allowed. -/
def allowedTurns (s : ListNodeLife) (t : LifeTurn UInt8) : Option ListNodeLife :=
  if s.Allowed t then NodeLife.step countDesign briskConfig plainLibrary s t else none

theorem stores_ordered_cut : ∃ s : ListNodeLife, moves allowedTurns cutTurns NodeLife.start = some s ∧ s.Ordered ∧
    s.height = 2 ∧ s.catalog.earlier = 1 ∧
    (s.catalog.catalog.store.files 50).map (fun f => f.segmentIndex.list.map (·.blockRangeStart)) = some [0] ∧
    (s.catalog.catalog.store.files 60).map (fun f => f.segmentIndex.list.map (·.blockRangeStart)) = some [1] := by
  have ran : (moves allowedTurns cutTurns NodeLife.start).map (fun s => (s.height, s.catalog.earlier,
      (s.catalog.catalog.store.files 50).map (fun f => f.segmentIndex.list.map (·.blockRangeStart)),
      (s.catalog.catalog.store.files 60).map (fun f => f.segmentIndex.list.map (·.blockRangeStart)))) =
      some (2, 1, some [0], some [1]) := by decide +kernel
  obtain ⟨s, reached, facts⟩ := Option.map_eq_some_iff.1 ran
  simp only [Prod.mk.injEq] at facts
  have run : Reach (NodeLife.step countDesign briskConfig plainLibrary) NodeLife.Allowed NodeLife.start s :=
    Reach.refl.guarded _ reached
  exact ⟨s, reached, (NodeLife.stores_ordered countDesign briskConfig plainLibrary (by decide) s run).1, facts⟩

end Runs

end MagelessChain
