import MagelessChain.Backend.Overrides
import MagelessChain.Backend.Readers

/-!
# Blocks that are written

A reader may look at the chain between any two steps of `addBlock`. The block whose number is taken and
whose bytes are on their way is then not whole; those below it are, and stay what they are. A block
comes to the timestamp tracker when it is whole. All this rests on the journal alone: whatever the
catalog shows a call, and whatever fails behind the journal write, the next process finds the blocks
of the one before it, unless that ended with a block half written.
-/

namespace MagelessChain

open Lib OrderedStore

variable {κ σ τ Tx Ov : Type}

/-! ## The stretches of a call -/

section Call

variable [OrderedStore τ TimestampEntry TimestampEntry.compare] {d : ChainDesign Tx Ov} {config : BlockchainConfig}

/-- Where the epoch file opens and no `write` throws, no call ends with a block half written. -/
theorem AddBlock.whole_step {c : Commit τ Tx Ov} {env : Env} (opens : env.epochOpen = .opens)
    (going : c.outcome = none) (writes : ∀ tx ∈ c.txs, d.Writes tx)
    (remaining : ∀ n todo, c.pc = .transactions n todo → ∀ tx ∈ todo, tx ∈ c.txs)
    (ended : (step d config env c).outcome.isSome) :
    (step d config env c).pc.stretch ≠ .writing := by
  obtain ⟨txs, millis, duration, pc, b⟩ := c
  cases pc with
  | enter =>
    simp only [step]
    split <;> simp [Pc.stretch]
  | verify todo ov =>
    cases todo with
    | nil => cases ended
    | cons tx todo =>
      simp only [step]
      split <;> simp [Pc.stretch]
  | verifyApply tx todo ov =>
    simp only [step]
    split <;> simp [Pc.stretch]
  | openEpoch n =>
    simp only [step, opens, Backend.getEpochFile] at ended
    split at ended
    · cases ended
    · rename_i eq
      split at eq <;> cases eq
    · rename_i eq
      split at eq <;> cases eq
  | transactions n todo =>
    cases todo with
    | nil =>
      simp only [step] at ended
      split at ended <;> cases ended
    | cons tx todo =>
      have wrote : (d.write tx).2 = none := writes tx (remaining n (tx :: todo) rfl tx List.mem_cons_self)
      simp only [step, wrote] at ended
      cases ended
  | commitApply n todo ov =>
    cases todo with
    | nil => cases ended
    | cons tx todo =>
      simp only [step]
      split <;> simp [Pc.stretch]
  | sealing n i ov =>
    simp only [step]
    split
    · split
      · simp [Pc.stretch]
      · split
        · simp [Pc.stretch]
        · split <;> simp [Pc.stretch]
    · simp [Pc.stretch]
  | track n =>
    simp only [step]
    split <;> simp [Pc.stretch]
  | writeSegment n i ov version payload =>
    simp only [step]
    split <;> simp [Pc.stretch]
  | report n =>
    simp only [step]
    split <;> simp [Pc.stretch]
  | finish n => simp [step, Pc.stretch]
  | returned | threw | died => cases going
  | _ => cases ended

/-- A block that is written stays written. -/
theorem AddBlock.stays_committed {env : Env} {c : Commit τ Tx Ov} (here : c.pc.stretch = .committed) :
    (step d config env c).pc.stretch = .committed := by
  obtain ⟨txs, millis, duration, pc, b⟩ := c
  cases pc with
  | track n =>
    simp only [step]
    split <;> rfl
  | commitApply n todo ov =>
    cases todo with
    | nil => rfl
    | cons tx todo =>
      simp only [step]
      split <;> rfl
  | sealing n i ov =>
    simp only [step]
    split
    · split
      · rfl
      · split
        · rfl
        · split <;> rfl
    · rfl
  | writeSegment n i ov version payload =>
    simp only [step]
    split <;> rfl
  | report n =>
    simp only [step]
    split <;> rfl
  | setTimestamp | sync | finish => rfl
  | returned | threw | died => exact here
  | enter | verify | verifyApply | takeNumber => cases here
  | openEpoch | blockHeader | transactions | nextSlot => cases here

end Call

/-! ## The journal as `getBlock` returns it -/

/-- The blocks below the height, number by number. -/
def Backend.blocks (d : ChainDesign Tx Ov) (b : Backend τ) : List (List Tx) :=
  (List.range b.metadata.currentBlockHeight.toNat).map fun n =>
    match (b.getBlock d (UInt64.ofNat n) .opens).1 with
    | .ok txs => txs
    | .error _ => []

/-- What the journal asks of a transaction: `write` does not throw, and its factory reads back what
`write` wrote. -/
structure ChainDesign.Sound (d : ChainDesign Tx Ov) (txs : List Tx) : Prop where
  writes : ∀ tx ∈ txs, d.Writes tx
  readsBack : ∀ tx ∈ txs, d.ReadsBack tx

theorem ChainDesign.Sound.nil (d : ChainDesign Tx Ov) : d.Sound [] :=
  ⟨fun _ mem => absurd mem List.not_mem_nil, fun _ mem => absurd mem List.not_mem_nil⟩

/-- `getBlock` returns the journal. -/
theorem Journal.blocks_eq {d : ChainDesign Tx Ov} {b : Backend τ} {blocks : List (List Tx)} (journal : Journal d b blocks)
    (sound : ∀ txs ∈ blocks, d.Sound txs) : b.blocks d = blocks := by
  have height := journal.height
  have bound := journal.bound
  unfold maxBlocks at bound
  apply List.ext_getElem
  · simp [Backend.blocks, height]
  · intro n inside lt
    have number : (UInt64.ofNat n).toNat = n := by
      rw [UInt64.toNat_ofNat']
      exact Nat.mod_eq_of_lt (by omega)
    have read := journal.getBlock_eq (n := UInt64.ofNat n) (by omega)
      (sound _ (List.getElem_mem _)).readsBack
    simp only [Backend.blocks, List.getElem_map, List.getElem_range, read, number]

/-! ## One call after another -/

section Calls

variable [OrderedStore τ TimestampEntry TimestampEntry.compare] {d : ChainDesign Tx Ov} {config : BlockchainConfig}
  {c : Commit τ Tx Ov} {b : Backend τ} {before : List (List Tx)}

/-- The journal has a number left, and the block fits its epoch file. -/
def Backend.RoomFor (d : ChainDesign Tx Ov) (b : Backend τ) (txs : List Tx) : Prop :=
  (b.blocks d).length < maxBlocks ∧ Fits d b (epochBlocks (b.blocks d)) txs

instance (d : ChainDesign Tx Ov) (b : Backend τ) (txs : List Tx) : Decidable (b.RoomFor d txs) :=
  inferInstanceAs (Decidable (_ ∧ _))

/-- The call under way started from `b`, whose journal is `before`; it writes one block more. -/
structure Commit.Journaling (d : ChainDesign Tx Ov) (c : Commit τ Tx Ov) (b : Backend τ) (before : List (List Tx)) : Prop where
  stores : Stores d b c
  sound : d.Sound c.txs ∧ ∀ txs ∈ before, d.Sound txs
  journal : Journal d b before
  reach : before.length < maxBlocks
  phase : Phase d (epochBlocks before) b.metadata.currentBlockHeight c
  whole : c.outcome.isSome → c.pc.stretch ≠ .writing

omit [OrderedStore τ TimestampEntry TimestampEntry.compare] in
/-- The transactions still to be written are of the block. -/
theorem Phase.remaining {content : Content Tx} {n : UInt64} {c : Commit τ Tx Ov} (h : Phase d content n c) :
    ∀ m todo, c.pc = .transactions m todo → ∀ tx ∈ todo, tx ∈ c.txs := by
  intro m todo pc tx mem
  unfold Phase at h
  rw [pc] at h
  obtain ⟨-, done, file, disk, parts, -⟩ := h
  rw [parts]
  exact List.mem_append_right _ mem

/-- With its block written, a call has made the journal one longer. -/
theorem Journal.committed {b : Backend τ} {before : List (List Tx)} {c : Commit τ Tx Ov} (journal : Journal d b before)
    (reach : before.length < maxBlocks) (stores : Stores d b c)
    (phase : Phase d (epochBlocks before) b.metadata.currentBlockHeight c) (here : c.pc.stretch = .committed) :
    Journal d c.backend (before ++ [c.txs]) := by
  have length : (before ++ [c.txs]).length = before.length + 1 := by simp
  refine ⟨by rw [length]; exact reach, ?_, ?_⟩
  · unfold maxBlocks at reach
    rw [stores.committed here, UInt64.toNat_add, journal.height, length]
    exact Nat.mod_eq_of_lt (by simp; omega)
  · rw [← epochBlocks_append journal.height reach]
    exact phase.committed here

/-- The blocks that are written whole, where a call that found `before` stands. -/
def Commit.blocks (before : List (List Tx)) (c : Commit τ Tx Ov) : List (List Tx) :=
  if c.pc.stretch = .committed then before ++ [c.txs] else before

omit [OrderedStore τ TimestampEntry TimestampEntry.compare] in
theorem Commit.blocks_before {before : List (List Tx)} {c : Commit τ Tx Ov} (here : c.pc.stretch = .before) :
    c.blocks before = before :=
  if_neg (by rw [here]; simp)

omit [OrderedStore τ TimestampEntry TimestampEntry.compare] in
theorem Commit.blocks_committed {before : List (List Tx)} {c : Commit τ Tx Ov} (here : c.pc.stretch = .committed) :
    c.blocks before = before ++ [c.txs] :=
  if_pos here

/-- **At any moment but while a block is written** the journal is whole. -/
theorem Commit.Journaling.now (h : c.Journaling d b before) (here : c.pc.stretch ≠ .writing) :
    Journal d c.backend (c.blocks before) ∧ ∀ txs ∈ c.blocks before, d.Sound txs := by
  cases stretch : c.pc.stretch with
  | writing => exact absurd stretch here
  | before =>
    have same := h.stores.before stretch
    rw [Commit.blocks_before stretch]
    exact ⟨same ▸ h.journal, h.sound.2⟩
  | committed =>
    rw [Commit.blocks_committed stretch]
    refine ⟨h.journal.committed h.reach h.stores h.phase stretch, fun txs mem => ?_⟩
    rcases List.mem_append.1 mem with mem | mem
    · exact h.sound.2 txs mem
    · rw [List.mem_singleton.1 mem]
      exact h.sound.1

/-- **One step of the call under way**, whatever it reads and whatever fails behind the journal write. -/
theorem Commit.Journaling.advance (h : c.Journaling d b before) (going : c.outcome = none) {env : Env}
    (opens : env.epochOpen = .opens) : (AddBlock.step d config env c).Journaling d b before := by
  refine ⟨h.stores.step _, ?_, h.journal, h.reach, h.phase.step _, ?_⟩
  · rw [(step_args d config env c).1]
    exact h.sound
  · exact AddBlock.whole_step opens going h.sound.1.writes h.phase.remaining

/-- **The next call**, with room for its block. -/
theorem Commit.Journaling.next (h : c.Journaling d b before) (ended : c.outcome.isSome) {txs : List Tx} (millis : UInt64)
    (sound : d.Sound txs) (room : c.backend.RoomFor d txs) :
    (AddBlock.start txs millis c.backend : Commit τ Tx Ov).Journaling d c.backend (c.blocks before) := by
  obtain ⟨journal, trusted⟩ := h.now (h.whole ended)
  obtain ⟨reach, fits⟩ := room
  rw [journal.blocks_eq trusted] at reach fits
  refine ⟨rfl, ⟨sound, trusted⟩, journal, reach, ?_, nofun⟩
  exact ⟨rfl, journal.files, fits, (length_epochBlocks_next journal.height reach).symm, .inl rfl⟩

/-- **The next process**, at whatever point of the call the one before ended. -/
theorem Commit.Journaling.reopen (h : c.Journaling d b before) (here : c.pc.stretch ≠ .writing)
    (room : (c.backend.blocks d).length < maxBlocks) :
    (⟨[], 0, 0, .returned none, c.backend.reopen⟩ : Commit τ Tx Ov).Journaling d c.backend.reopen (c.blocks before) := by
  obtain ⟨journal, trusted⟩ := h.now here
  rw [journal.blocks_eq trusted] at room
  refine ⟨rfl, ⟨.nil d, trusted⟩, journal.reopen, room, ?_, by simp [Pc.stretch]⟩
  exact Stretch.stopped_before journal.reopen.files

/-- A step keeps the blocks that are written. -/
theorem Commit.blocks_step {c : Commit τ Tx Ov} {before : List (List Tx)} (env : Env) :
    c.blocks before <+: (AddBlock.step d config env c).blocks before := by
  by_cases here : c.pc.stretch = .committed
  · have same : (AddBlock.step d config env c).blocks before = c.blocks before := by
      rw [Commit.blocks_committed here, Commit.blocks_committed (AddBlock.stays_committed here), (step_args d config env c).1]
    exact ⟨[], by rw [List.append_nil, same]⟩
  · rw [Commit.blocks, if_neg here, Commit.blocks]
    split
    · exact List.prefix_append _ _
    · exact List.prefix_rfl

theorem Commit.Journaling.start :
    (⟨[], 0, 0, .returned none, Backend.fresh⟩ : Commit τ Tx Ov).Journaling d Backend.fresh [] where
  stores := rfl
  sound := ⟨.nil d, fun _ mem => absurd mem List.not_mem_nil⟩
  journal := .fresh d
  reach := (by decide : 0 < maxBlocks)
  phase := Stretch.stopped_before (Journal.fresh d).files
  whole := by simp [Pc.stretch]

/-- **A read** leaves a call the journal it goes by. -/
theorem Commit.Journaling.looked {n : UInt64} {b' : Backend τ} (h : c.Journaling d b before) (looked : Looked n c.backend b')
    (free : ¬ c.pc.appendsTo (epochOf n)) :
    Commit.Journaling d { c with backend := b' } (c.lookedBase b b') before := by
  obtain ⟨stores, header, -⟩ := h.stores.looked_base looked
  refine ⟨stores, h.sound, ?_, h.reach, ?_, h.whole⟩
  · unfold lookedBase
    split
    · rename_i here
      rw [h.stores.before here] at looked
      exact h.journal.looked looked
    · exact h.journal
  · rw [header]
    exact h.phase.looked looked free

/-- How many blocks are written whole: all below the height, but for the one under way. -/
def Commit.written (c : Commit τ Tx Ov) : Nat :=
  if c.pc.stretch = .writing then c.backend.metadata.currentBlockHeight.toNat - 1
  else c.backend.metadata.currentBlockHeight.toNat

/-- While a block is written, the height is one above the blocks there were and the tracker as it was. -/
theorem Commit.Journaling.writing (h : c.Journaling d b before) (here : c.pc.stretch = .writing) :
    c.backend.metadata.currentBlockHeight.toNat = before.length + 1 ∧ c.backend.timestamps = b.timestamps ∧
      Files d c.backend (epochBlocks before) := by
  have reach := h.reach
  unfold maxBlocks at reach
  have next : ∀ {n}, Stored b c.backend n b.metadata.lastBlockTimestamp b.timestamps [] →
      c.backend.metadata.currentBlockHeight.toNat = before.length + 1 := by
    intro n stored
    rw [stored.height, stored.number, UInt64.toNat_add, h.journal.height]
    exact Nat.mod_eq_of_lt (by show before.length + 1 < 2 ^ 64; omega)
  have stores := h.stores
  have phase := h.phase
  have whole := h.whole
  unfold Stores at stores
  unfold Phase at phase
  obtain ⟨txs, millis, duration, pc, b'⟩ := c
  cases pc with
  | openEpoch n => exact ⟨next stores, stores.tracker, phase.2.1.files⟩
  | blockHeader n =>
    obtain ⟨-, file, opened⟩ := phase
    exact ⟨next stores, stores.tracker, opened.files⟩
  | transactions n todo =>
    obtain ⟨-, done, file, disk, -, writing⟩ := phase
    exact ⟨next stores, stores.tracker, writing.files⟩
  | nextSlot n =>
    obtain ⟨-, -, file, disk, writing⟩ := phase
    exact ⟨next stores, stores.tracker, writing.files⟩
  | threw site e => exact absurd here (whole rfl)
  | died signal => exact absurd here (whole rfl)
  | returned result => exact absurd here (whole rfl)
  | _ => cases here

theorem Commit.Journaling.length_blocks (h : c.Journaling d b before) : (c.blocks before).length = c.written := by
  unfold Commit.written
  split
  · rename_i here
    rw [(h.writing here).1, Commit.blocks, if_neg (by rw [here]; simp)]
    omega
  · rename_i here
    exact (h.now here).1.height.symm

/-- **A block that is written whole is read**, at every step. -/
theorem Commit.Journaling.getBlock_eq (h : c.Journaling d b before) {n : UInt64}
    (below : n.toNat < (c.blocks before).length) :
    (c.backend.getBlock d n .opens).1 = .ok (c.blocks before)[n.toNat] := by
  by_cases here : c.pc.stretch = .writing
  · obtain ⟨height, -, files⟩ := h.writing here
    have same : c.blocks before = before := if_neg (by rw [here]; simp)
    have inside : n.toNat < before.length := by
      rw [← same]
      exact below
    have found := getElem?_epochBlocks h.journal.bound inside
    rw [List.getElem?_eq_getElem inside] at found
    have inRange : n < c.backend.metadata.currentBlockHeight := by
      rw [UInt64.lt_iff_toNat_lt, height]
      omega
    simp only [same]
    apply files.getBlock_eq inRange found
    exact (h.sound.2 _ (List.getElem_mem _)).readsBack
  · obtain ⟨journal, sound⟩ := h.now here
    apply journal.getBlock_eq below
    exact (sound _ (List.getElem_mem _)).readsBack

end Calls

/-! ## The node -/

section Runs

variable [OrderedStore κ ContentsEntry ContentsEntry.compare] [OrderedStore σ SegmentMetadata SegmentMetadata.compare]
  [OrderedStore τ TimestampEntry TimestampEntry.compare]

namespace NodeLife

/-- A turn that keeps the journal readable: a block that is added has room and is read back as it was
written, its epoch file opens, and no process starts over a block that is half written. -/
def Journaled (d : ChainDesign Tx Ov) (s : NodeLife κ σ τ Tx Ov) : LifeTurn Tx → Prop
  | .call txs _ => d.Sound txs ∧ s.commit.backend.RoomFor d txs
  | .commit epochOpen _ _ => epochOpen = .opens
  | .job j a => BackendMove s.catalog.catalog (.act j a)
  | .restart => s.commit.pc.stretch ≠ .writing ∧ (s.commit.backend.blocks d).length < maxBlocks

instance (d : ChainDesign Tx Ov) [∀ txs, Decidable (d.Sound txs)] (s : NodeLife κ σ τ Tx Ov) : DecidablePred (s.Journaled d)
  | .call txs _ => inferInstanceAs (Decidable (d.Sound txs ∧ s.commit.backend.RoomFor d txs))
  | .commit epochOpen _ _ => inferInstanceAs (Decidable (epochOpen = .opens))
  | .job j a => inferInstanceAs (Decidable (BackendMove s.catalog.catalog (.act j a)))
  | .restart => inferInstanceAs (Decidable (s.commit.pc.stretch ≠ .writing ∧ (s.commit.backend.blocks d).length < maxBlocks))

/-- A node in order whose call under way started from the journal `before`. -/
structure OnJournal (d : ChainDesign Tx Ov) (lib : CatalogLibrary) (s : NodeLife κ σ τ Tx Ov) (b : Backend τ)
    (before : List (List Tx)) : Prop where
  order : s.InOrder d lib b
  journaling : s.commit.Journaling d b before

variable {d : ChainDesign Tx Ov} {config : BlockchainConfig} {lib : CatalogLibrary} {s s' : NodeLife κ σ τ Tx Ov}
  {b : Backend τ} {before : List (List Tx)}

omit [OrderedStore κ ContentsEntry ContentsEntry.compare] [OrderedStore σ SegmentMetadata SegmentMetadata.compare]
  [OrderedStore τ TimestampEntry TimestampEntry.compare] in
theorem room_of_blocks (room : (s.commit.backend.blocks d).length < maxBlocks) : s.height.toNat + 1 < 2 ^ 64 := by
  unfold maxBlocks Backend.blocks at room
  rw [List.length_map, List.length_range] at room
  unfold height
  omega

/-- The backend that the call under way after a turn started from. -/
def base (s : NodeLife κ σ τ Tx Ov) (b : Backend τ) : LifeTurn Tx → Backend τ
  | .call _ _ => s.commit.backend
  | .restart => s.commit.backend.reopen
  | .commit _ _ _ | .job _ _ => b

/-- The journal that it started from. -/
def baseBlocks (s : NodeLife κ σ τ Tx Ov) (before : List (List Tx)) : LifeTurn Tx → List (List Tx)
  | .call _ _ | .restart => s.commit.blocks before
  | .commit _ _ _ | .job _ _ => before

/-- **One turn** keeps a node on its journal. -/
theorem OnJournal.turn (h : s.OnJournal d lib b before) (few : d.pairCount ≤ 65536) {t : LifeTurn Tx} (ok : s.Journaled d t)
    (moved : s.step d config lib t = some s') : s'.OnJournal d lib (s.base b t) (s.baseBlocks before t) := by
  cases t with
  | call txs millis =>
    obtain ⟨sound, room⟩ := ok
    have order := h.order.call (room_of_blocks room.1) moved
    obtain ⟨ended, rfl⟩ := step_call moved
    exact ⟨order, h.journaling.next ended millis sound room⟩
  | job j a =>
    have order := h.order.job ok (step_job moved)
    refine ⟨order, ?_⟩
    rw [job_commit moved]
    exact h.journaling
  | restart =>
    obtain ⟨here, room⟩ := ok
    have order := h.order.restart (room_of_blocks room) moved
    cases moved
    exact ⟨order, h.journaling.reopen here room⟩
  | commit epochOpen trackerInsert now =>
    refine ⟨h.order.commit few moved, ?_⟩
    rcases commit_cases moved with same | ⟨env, opens, going, same⟩
    · rw [same]
      exact h.journaling
    · rw [same]
      exact h.journaling.advance going (opens.trans ok)

/-- **A read** keeps it there. -/
theorem OnJournal.read (h : s.OnJournal d lib b before) {n : UInt64} (outcome : OpenOutcome)
    (free : ¬ s.commit.pc.appendsTo (epochOf n)) :
    (s.read d n outcome).OnJournal d lib (s.commit.lookedBase b (s.commit.backend.getBlock d n outcome).2) before :=
  ⟨h.order.read n outcome, h.journaling.looked (getBlock_looked d s.commit.backend n outcome) free⟩

theorem OnJournal.start (lib : CatalogLibrary) : (start : NodeLife κ σ τ Tx Ov).OnJournal d lib Backend.fresh [] :=
  ⟨.start lib, .start⟩

/-- A block is tracked when it is whole. -/
theorem OnJournal.tracked (h : s.OnJournal d lib b before) {r : TimestampEntry}
    (mem : r ∈ records s.commit.backend.timestamps) : r.blockNumber.toNat < s.commit.written := by
  unfold Commit.written
  split
  · rename_i here
    obtain ⟨height, same, -⟩ := h.journaling.writing here
    rw [same] at mem
    have below := h.order.tracked r mem
    rw [h.journaling.journal.height] at below
    omega
  · exact h.order.tracker.2.1 r mem

/-- The blocks that are written stay, turn by turn. -/
theorem blocks_grow {turn : LifeTurn Tx} (moved : s.step d config lib turn = some s') :
    s.commit.blocks before <+: s'.commit.blocks (s.baseBlocks before turn) := by
  cases turn with
  | call txs millis =>
    obtain ⟨-, rfl⟩ := step_call moved
    exact List.prefix_rfl
  | restart =>
    cases moved
    exact List.prefix_rfl
  | job j a =>
    rw [job_commit moved]
    exact List.prefix_rfl
  | commit epochOpen trackerInsert now =>
    rcases commit_cases moved with same | ⟨env, -, -, same⟩
    · rw [same]
      exact List.prefix_rfl
    · rw [same]
      exact Commit.blocks_step env

/-- Whatever turns and reads follow, a node stays on its journal and keeps its blocks. -/
theorem OnJournal.run (h : s.OnJournal d lib b before) (few : d.pairCount ≤ 65536)
    (run : Reach (stepRead d config lib) (ReadsApart (Journaled d)) s s') :
    ∃ b' before', s'.OnJournal d lib b' before' ∧ s.commit.blocks before <+: s'.commit.blocks before' := by
  refine stepRead_invariant (P := fun t => ∃ b' before', t.OnJournal d lib b' before' ∧
    s.commit.blocks before <+: t.commit.blocks before') ?_ ?_ run ⟨b, before, h, List.prefix_rfl⟩
  · rintro u turn u' ⟨b', before', on, same⟩ ok moved
    exact ⟨_, _, on.turn few ok moved, same.trans (blocks_grow moved)⟩
  · rintro u n outcome ⟨b', before', on, same⟩ free
    exact ⟨_, _, on.read outcome free, same⟩

end NodeLife

theorem countDesign_sound (txs : List UInt8) : countDesign.Sound txs :=
  ⟨fun _ _ => rfl, fun tx _ => ⟨(byteDesign_readsBack tx).wrote⟩⟩

instance (txs : List UInt8) : Decidable (countDesign.Sound txs) := .isTrue (countDesign_sound txs)

end Runs

end MagelessChain
