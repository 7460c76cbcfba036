import MagelessChain.Backend.CommittedReads

/-!
# What a reader leaves

`getBlock` and `appendBlock` go through one cursor, that of the `EpochFile` object. A call of `getBlock`
may open an epoch file and always moves its cursor, and leaves everything else. From the header of a
block to the slot after it the cursor of its epoch is the writer's; a read elsewhere leaves a call of
`addBlock` what it goes by.
-/

namespace MagelessChain

open Lib OrderedStore

/-- The call is between the header of a block of this epoch and the slot after it. -/
def Pc.appendsTo {Tx Ov : Type} (e : UInt32) : Pc Tx Ov → Prop
  | .transactions n _ | .nextSlot n => epochOf n = e
  | _ => False

instance {Tx Ov : Type} (e : UInt32) : (pc : Pc Tx Ov) → Decidable (pc.appendsTo e)
  | .transactions n _ | .nextSlot n => inferInstanceAs (Decidable (epochOf n = e))
  | .enter | .verify _ _ | .verifyApply _ _ _ | .takeNumber | .openEpoch _ | .blockHeader _ | .setTimestamp _ | .track _
  | .commitApply _ _ _ | .sealing _ _ _ | .writeSegment _ _ _ _ _ | .report _ | .sync _ | .finish _ | .returned _
  | .threw _ _ | .died _ => .isFalse id

/-! ## What a read leaves -/

section Looks

variable {τ Tx Ov : Type} {d : ChainDesign Tx Ov} {content : Content Tx} {b b' : Backend τ} {n : UInt64}

/-- Somebody has looked for block `n`: its epoch file may have been opened, and its cursor is elsewhere. -/
inductive Looked (n : UInt64) (b : Backend τ) : Backend τ → Prop where
  | cached {move : EpochFile → Image → EpochFile} :
      (∀ file img, (move file img).length = file.length) →
      Looked n b (b.withEpoch (epochOf n) fun file img => (move file img, img))
  | opened {move : EpochFile → Image → EpochFile} :
      b.openEpochs (epochOf n) = none → (∀ file img, (move file img).length = file.length) →
      Looked n b ((b.openEpoch (epochOf n)).2.withEpoch (epochOf n) fun file img => (move file img, img))

theorem getBlock_looked (d : ChainDesign Tx Ov) (b : Backend τ) (n : UInt64) (outcome : OpenOutcome) :
    Looked n b (b.getBlock d n outcome).2 := by
  have untouched : Looked n b b := by
    have stays : Looked n b (b.withEpoch (epochOf n) fun file img => (file, img)) := .cached fun _ _ => rfl
    rwa [AddBlock.withEpoch_self] at stays
  unfold Backend.getBlock
  split
  · exact untouched
  · unfold Backend.getEpochFile
    cases cached : b.openEpochs (epochOf n) with
    | some file => exact .cached fun file img => readBlock_length d file img n
    | none =>
      cases outcome with
      | opens => exact .opened cached fun file img => readBlock_length d file img n
      | null => exact untouched
      | throws e => exact untouched

/-- The other stores are as they were. -/
theorem Looked.frame (h : Looked n b b') :
    b'.metadata = b.metadata ∧ b'.timestamps = b.timestamps ∧ b'.submitted = b.submitted := by
  cases h with
  | cached | opened =>
    unfold Backend.withEpoch
    split <;> exact ⟨rfl, rfl, rfl⟩

theorem Looked.files (h : Looked n b b') (files : Files d b content) : Files d b' content := by
  cases h with
  | cached keep => exact files.moveCursor _ _ keep
  | opened _ keep => exact (files.openEpoch _).moveCursor _ _ keep

/-- The files of the other epochs are as they were. -/
theorem Looked.elsewhere (h : Looked n b b') {e : UInt32} (ne : e ≠ epochOf n) :
    b'.openEpochs e = b.openEpochs e ∧ b'.epochs e = b.epochs e := by
  have used : ∀ (b : Backend τ) (use : EpochFile → Image → EpochFile × Image),
      (b.withEpoch (epochOf n) use).openEpochs e = b.openEpochs e ∧ (b.withEpoch (epochOf n) use).epochs e = b.epochs e := by
    intro b use
    unfold Backend.withEpoch
    split
    · exact ⟨Function.update_of_ne ne _ _, Function.update_of_ne ne _ _⟩
    · exact ⟨rfl, rfl⟩
  cases h with
  | cached => exact used _ _
  | opened =>
    obtain ⟨opened, onDisk⟩ := used (b.openEpoch (epochOf n)).2 _
    rw [opened, onDisk]
    exact ⟨Function.update_of_ne ne _ _, Function.update_of_ne ne _ _⟩

/-- An open file stays open, with the mapping it has. -/
theorem Looked.stays_open (h : Looked n b b') {e : UInt32} {file : EpochFile} (opened : b.openEpochs e = some file) :
    ∃ file', b'.openEpochs e = some file' ∧ file'.length = file.length := by
  by_cases same : e = epochOf n
  · subst same
    cases h with
    | opened closed =>
      rw [closed] at opened
      cases opened
    | cached keep =>
      cases onDisk : b.epochs (epochOf n) with
      | none => exact ⟨file, by simp only [Backend.withEpoch, opened, onDisk], rfl⟩
      | some disk => exact ⟨_, (withEpoch_opened opened onDisk _).1, keep _ _⟩
  · rw [← (h.elsewhere same).1] at opened
    exact ⟨file, opened, rfl⟩

/-- A file that was closed is mapped as far as `addBlock` would have mapped it. -/
theorem Looked.mappedLength (h : Looked n b b') (m : UInt64) : b'.mappedLength m = b.mappedLength m := by
  cases open? : b.openEpochs (epochOf m) with
  | some file =>
    obtain ⟨file', stays, length⟩ := h.stays_open open?
    simp only [Backend.mappedLength, open?, stays, length]
  | none =>
    by_cases same : epochOf m = epochOf n
    · rw [same] at open?
      cases h with
      | cached keep => simp only [Backend.withEpoch, open?]
      | opened closed keep =>
        have opened : (b.openEpoch (epochOf n)).2.openEpochs (epochOf n) = some ⟨b.fileLength (epochOf n) + 1024 * 1024, 0⟩ :=
          Function.update_self _ _ _
        have onDisk : ∃ disk, (b.openEpoch (epochOf n)).2.epochs (epochOf n) = some disk := ⟨_, Function.update_self _ _ _⟩
        obtain ⟨disk, onDisk⟩ := onDisk
        simp only [Backend.mappedLength, same, (withEpoch_opened opened onDisk _).1, open?, keep]
    · obtain ⟨opened, onDisk⟩ := h.elsewhere same
      simp only [Backend.mappedLength, Backend.fileLength, opened, onDisk, open?]

end Looks

/-! ## A call of `addBlock` meanwhile -/

section Calls

variable {τ Tx Ov : Type} {d : ChainDesign Tx Ov} {content : Content Tx} {b b' : Backend τ} {n m : UInt64} {c : Commit τ Tx Ov}

theorem Fits.looked {txs : List Tx} (h : Fits d b content txs) (looked : Looked n b b') : Fits d b' content txs := by
  obtain ⟨below, mapped⟩ := h
  rw [← looked.frame.1] at below mapped
  rw [← looked.mappedLength] at mapped
  exact ⟨below, mapped⟩

theorem Taken.looked (h : Taken d content m c) (looked : Looked n c.backend b') :
    Taken d content m { c with backend := b' } :=
  ⟨h.slot, h.size, h.below, looked.files h.files⟩

/-- While the cursor is the writer's, others read other epochs. -/
theorem Writing.looked {done : List Tx} {file : EpochFile} {disk : EpochDisk} (h : Writing d content m c done file disk)
    (looked : Looked n c.backend b') (ne : epochOf m ≠ epochOf n) :
    Writing d content m { c with backend := b' } done file disk := by
  obtain ⟨opened, onDisk⟩ := looked.elsewhere ne
  refine ⟨⟨h.toTaken.looked looked, ?_, h.mapped⟩, ?_, h.appending⟩
  · rw [← h.opened]
    exact opened
  · rw [← h.onDisk]
    exact onDisk

/-- **The epoch files** of a call under way, after a read that leaves it its cursor. -/
theorem Phase.looked (h : Phase d content m c) (looked : Looked n c.backend b') (free : ¬ c.pc.appendsTo (epochOf n)) :
    Phase d content m { c with backend := b' } := by
  obtain ⟨txs, millis, duration, pc, b⟩ := c
  have header := looked.frame.1
  have before : b.metadata.currentBlockHeight = m ∧ Files d b content ∧ Fits d b content txs ∧
      slotOf m = (content (epochOf m)).length ∧ (pc = .enter ∨ txs.length ≤ maxTxPerBlock) →
      b'.metadata.currentBlockHeight = m ∧ Files d b' content ∧ Fits d b' content txs ∧
        slotOf m = (content (epochOf m)).length ∧ (pc = .enter ∨ txs.length ≤ maxTxPerBlock) := by
    rintro ⟨height, files, fits, rest⟩
    exact ⟨by rw [header]; exact height, looked.files files, fits.looked looked, rest⟩
  have ended (stretch : Stretch) : (stretch = .before → Files d b content) ∧
      (stretch = .committed → Files d b (content.append m txs)) → (stretch = .before → Files d b' content) ∧
      (stretch = .committed → Files d b' (content.append m txs)) :=
    fun files => ⟨fun here => looked.files (files.1 here), fun here => looked.files (files.2 here)⟩
  cases pc with
  | enter | verify | verifyApply | takeNumber => exact before h
  | openEpoch k =>
    obtain ⟨same, taken, mapped⟩ := h
    exact ⟨same, taken.looked looked, by rw [looked.mappedLength]; exact mapped⟩
  | blockHeader k =>
    obtain ⟨same, file, taken, opened, mapped⟩ := h
    obtain ⟨file', opened', length⟩ := looked.stays_open opened
    exact ⟨same, file', taken.looked looked, opened', by rw [length]; exact mapped⟩
  | transactions k todo =>
    obtain ⟨rfl, done, file, disk, parts, writing⟩ := h
    exact ⟨rfl, done, file, disk, parts, writing.looked looked free⟩
  | nextSlot k =>
    obtain ⟨rfl, next, file, disk, writing⟩ := h
    exact ⟨rfl, next, file, disk, writing.looked looked free⟩
  | returned result =>
    cases result with
    | none => exact ended _ h
    | some k => exact looked.files h
  | threw | died => exact ended _ h
  | _ => exact looked.files h

theorem Stored.looked {first : Backend τ} {k time : UInt64} {tracker : τ} {segments : List Segment}
    (h : Stored first b k time tracker segments) (looked : Looked n b b') : Stored first b' k time tracker segments := by
  obtain ⟨header, timestamps, submitted⟩ := looked.frame
  refine ⟨h.number, ?_, ?_, ?_, ?_⟩
  · rw [header, h.height]
  · rw [header, h.time]
  · rw [timestamps, h.tracker]
  · rw [submitted, h.submitted]

variable [OrderedStore τ TimestampEntry TimestampEntry.compare]

theorem Stores.of_before (here : c.pc.stretch = .before) : Stores d c.backend c := by
  obtain ⟨txs, millis, duration, pc, b⟩ := c
  cases pc with
  | enter | verify | verifyApply | takeNumber => exact rfl
  | returned result =>
    cases result with
    | none => exact rfl
    | some k => cases here
  | threw site e =>
    cases site with
    | verification | verificationApply => exact rfl
    | _ => cases here
  | died signal =>
    cases signal with
    | gateDivision => exact rfl
    | _ => cases here
  | _ => cases here

/-- The other stores of a call that has taken its number. -/
theorem Stores.looked (h : Stores d b c) (looked : Looked n c.backend b') (taken : c.pc.stretch ≠ .before) :
    Stores d b { c with backend := b' } := by
  obtain ⟨txs, millis, duration, pc, here⟩ := c
  have routed {k : UInt64} {i : Nat} {ov : Ov} : StoredBlock d b ⟨txs, millis, duration, pc, here⟩ k i ov →
      StoredBlock d b ⟨txs, millis, duration, pc, b'⟩ k i ov := by
    rintro ⟨segments, routed, stored⟩
    exact ⟨segments, routed, stored.looked looked⟩
  cases pc with
  | enter | verify | verifyApply | takeNumber => exact absurd rfl taken
  | openEpoch | blockHeader | transactions | nextSlot | setTimestamp | track | commitApply => exact Stored.looked h looked
  | sealing k i ov => exact ⟨h.1, routed h.2⟩
  | writeSegment k i ov version payload =>
    obtain ⟨slot, nonempty, registered, sealed, stored⟩ := h
    exact ⟨slot, nonempty, registered, sealed, routed stored⟩
  | report | sync | finish =>
    obtain ⟨ov, stored⟩ := h
    exact ⟨ov, routed stored⟩
  | returned result =>
    cases result with
    | none => exact absurd rfl taken
    | some k =>
      obtain ⟨ov, stored⟩ := h
      exact ⟨ov, routed stored⟩
  | threw site e =>
    cases site with
    | verification | verificationApply => exact absurd rfl taken
    | epochOpen | transactionWrite | trackerInsert | commitApply =>
      obtain ⟨k, stored⟩ := h
      exact ⟨k, stored.looked looked⟩
    | sealing =>
      obtain ⟨k, i, ov, slot, failed, stored⟩ := h
      exact ⟨k, i, ov, slot, failed, routed stored⟩
    | segmentWrite =>
      obtain ⟨k, i, ov, slot, stored⟩ := h
      exact ⟨k, i, ov, slot, routed stored⟩
  | died signal =>
    cases signal with
    | gateDivision => exact absurd rfl taken
    | nullPointer =>
      obtain ⟨k, stored⟩ := h
      exact ⟨k, stored.looked looked⟩
    | reportDivision =>
      obtain ⟨k, ov, stored⟩ := h
      exact ⟨k, ov, routed stored⟩

omit [OrderedStore τ TimestampEntry TimestampEntry.compare] in
theorem Journal.looked {blocks : List (List Tx)} (h : Journal d b blocks) (looked : Looked n b b') : Journal d b' blocks :=
  ⟨h.bound, by rw [looked.frame.1]; exact h.height, looked.files h.files⟩

/-- The backend a call started from, as a read leaves it: a call that has stored nothing might have
started after the read. -/
def Commit.lookedBase (c : Commit τ Tx Ov) (b b' : Backend τ) : Backend τ := if c.pc.stretch = .before then b' else b

theorem Stores.looked_base (h : Stores d b c) (looked : Looked n c.backend b') :
    Stores d (c.lookedBase b b') { c with backend := b' } ∧ (c.lookedBase b b').metadata = b.metadata ∧
      (c.lookedBase b b').timestamps = b.timestamps := by
  unfold Commit.lookedBase
  split
  · rename_i here
    have same := h.before here
    rw [same] at looked
    exact ⟨Stores.of_before here, looked.frame.1, looked.frame.2.1⟩
  · rename_i taken
    exact ⟨h.looked looked taken, rfl, rfl⟩

end Calls

/-! ## Readers beside a node -/

section Runs

variable {κ σ τ Tx Ov : Type}

/-- A turn of a node, or a call of `getBlock` by somebody else. -/
inductive ReaderTurn (μ : Type) where
  | turn (t : μ)
  | getBlock (blockNumber : UInt64) (outcome : OpenOutcome)

namespace NodeLife

/-- The node after a call of `getBlock`. -/
def read (d : ChainDesign Tx Ov) (s : NodeLife κ σ τ Tx Ov) (n : UInt64) (outcome : OpenOutcome) : NodeLife κ σ τ Tx Ov :=
  { s with commit := { s.commit with backend := (s.commit.backend.getBlock d n outcome).2 } }

/-- Nobody reads an epoch to which a block is being appended, and the turns of the node are as `allowed`. -/
def ReadsApart (allowed : NodeLife κ σ τ Tx Ov → LifeTurn Tx → Prop) (s : NodeLife κ σ τ Tx Ov) :
    ReaderTurn (LifeTurn Tx) → Prop
  | .turn t => allowed s t
  | .getBlock n _ => ¬ s.commit.pc.appendsTo (epochOf n)

instance (allowed : NodeLife κ σ τ Tx Ov → LifeTurn Tx → Prop) (s : NodeLife κ σ τ Tx Ov)
    [DecidablePred (allowed s)] : (move : ReaderTurn (LifeTurn Tx)) → Decidable (s.ReadsApart allowed move)
  | .turn t => inferInstanceAs (Decidable (allowed s t))
  | .getBlock n _ => inferInstanceAs (Decidable (¬ s.commit.pc.appendsTo (epochOf n)))

variable [OrderedStore κ ContentsEntry ContentsEntry.compare] [OrderedStore σ SegmentMetadata SegmentMetadata.compare]
  [OrderedStore τ TimestampEntry TimestampEntry.compare]

def stepRead (d : ChainDesign Tx Ov) (config : BlockchainConfig) (lib : CatalogLibrary) (s : NodeLife κ σ τ Tx Ov) :
    ReaderTurn (LifeTurn Tx) → Option (NodeLife κ σ τ Tx Ov)
  | .turn t => s.step d config lib t
  | .getBlock n outcome => some (s.read d n outcome)

variable {d : ChainDesign Tx Ov} {lib : CatalogLibrary} {s : NodeLife κ σ τ Tx Ov} {b : Backend τ}

/-- What every allowed turn keeps, and every read apart, is kept by a whole run of them. -/
theorem stepRead_invariant {config : BlockchainConfig} {allowed : NodeLife κ σ τ Tx Ov → LifeTurn Tx → Prop}
    {P : NodeLife κ σ τ Tx Ov → Prop}
    (turns : ∀ t turn t', P t → allowed t turn → t.step d config lib turn = some t' → P t')
    (reads : ∀ t n outcome, P t → ¬ t.commit.pc.appendsTo (epochOf n) → P (t.read d n outcome))
    {s' : NodeLife κ σ τ Tx Ov} (run : Reach (stepRead d config lib) (ReadsApart allowed) s s') (first : P s) : P s' := by
  apply run.invariant first
  intro t move t' kept ok moved
  cases move with
  | turn turn => exact turns t turn t' kept ok moved
  | getBlock n outcome =>
    cases moved
    exact reads t n outcome kept ok

/-- A read leaves the stores in order. -/
theorem InOrder.read (h : s.InOrder d lib b) (n : UInt64) (outcome : OpenOutcome) :
    (s.read d n outcome).InOrder d lib (s.commit.lookedBase b (s.commit.backend.getBlock d n outcome).2) := by
  obtain ⟨stores, header, timestamps⟩ := h.stores.looked_base (getBlock_looked d s.commit.backend n outcome)
  refine ⟨h.kept, h.run, ?_, stores, ?_, ?_, h.writing⟩
  · rw [header]
    exact h.room
  · rw [header, timestamps]
    exact h.tracked
  · rw [header, timestamps]
    exact h.jobs

/-- A read leaves the jobs those of what was routed. -/
theorem InStep.read (h : s.InStep d lib b) (n : UInt64) (outcome : OpenOutcome) :
    (s.read d n outcome).InStep d lib (s.commit.lookedBase b (s.commit.backend.getBlock d n outcome).2) := by
  have submitted := (getBlock_looked d s.commit.backend n outcome).frame.2.2
  refine ⟨h.order.read n outcome, fun idle => ?_, fun j writing => ?_⟩
  · exact (h.idle idle).trans (congrArg _ submitted.symm)
  · obtain ⟨k, i, ov, version, payload, pc, jobs⟩ := h.writing j writing
    refine ⟨k, i, ov, version, payload, pc, jobs.trans ?_⟩
    exact congrArg (fun segments => segments.map Segment.call ++ _) submitted.symm

end NodeLife

end Runs

end MagelessChain
