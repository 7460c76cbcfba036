import MagelessChain.Backend.AddBlock
import MagelessChain.Backend.Journal

/-!
# The journal while a block is committed

What the epoch files hold at each point of `addBlock`: the old content up to the height
increment, the new one from the moment the block and the slot after it are written, and in
between an epoch file with a block half in it. `Phase` says this for every program counter, and
every step keeps it, whatever fails.
-/

namespace MagelessChain

open Lib

variable {τ Tx Ov : Type}

/-- The three stretches of `addBlock`, cut where the journal changes. -/
inductive Stretch where
  | before
  | writing
  | committed
  deriving DecidableEq, Repr

/-- The stretch a program counter lies in; a call that threw or died lies where it stopped. -/
def Pc.stretch : Pc Tx Ov → Stretch
  | .enter | .verify _ _ | .verifyApply _ _ _ | .takeNumber => .before
  | .openEpoch _ | .blockHeader _ | .transactions _ _ | .nextSlot _ => .writing
  | .setTimestamp _ | .track _ | .commitApply _ _ _ | .sealing _ _ _ | .writeSegment _ _ _ _ _ => .committed
  | .report _ | .sync _ | .finish _ => .committed
  | .returned none => .before
  | .returned (some _) => .committed
  | .threw .verification _ | .threw .verificationApply _ => .before
  | .threw .epochOpen _ | .threw .transactionWrite _ => .writing
  | .threw .trackerInsert _ | .threw .commitApply _ | .threw .sealing _ | .threw .segmentWrite _ => .committed
  | .died .gateDivision => .before
  | .died .nullPointer => .writing
  | .died .reportDivision => .committed

/-- The next block fits its epoch file: it ends below 2^32 and within the mapping it is written
through. -/
structure Fits (d : ChainDesign Tx Ov) (b : Backend τ) (content : Content Tx) (txs : List Tx) : Prop where
  below : d.offsetOf (content (epochOf b.metadata.currentBlockHeight)) + d.blockSize txs ≤ 2 ^ 32
  mapped : d.offsetOf (content (epochOf b.metadata.currentBlockHeight)) + d.blockSize txs ≤
    b.mappedLength b.metadata.currentBlockHeight

instance (d : ChainDesign Tx Ov) (b : Backend τ) (content : Content Tx) (txs : List Tx) : Decidable (Fits d b content txs) :=
  decidable_of_iff (_ ∧ _) ⟨fun h => ⟨h.1, h.2⟩, fun h => ⟨h.below, h.mapped⟩⟩

/-- The content with block `n` appended to its epoch file. -/
def Content.append (content : Content Tx) (n : UInt64) (txs : List Tx) : Content Tx :=
  Function.update content (epochOf n) (content (epochOf n) ++ [txs])

/-- Appending to the files of a journal gives those of the longer one. -/
theorem epochBlocks_append {blocks : List (List Tx)} {n : UInt64} (hn : n.toNat = blocks.length)
    (bound : blocks.length < maxBlocks) (txs : List Tx) :
    Content.append (epochBlocks blocks) n txs = epochBlocks (blocks ++ [txs]) := by
  funext e
  by_cases same : e = epochOf n
  · rw [same, epochBlocks_snoc hn bound]
    exact Function.update_self _ _ _
  · rw [epochBlocks_snoc_ne hn bound same]
    exact Function.update_of_ne same _ _

/-- Block `n` goes to the end of its epoch file and fits there; the files are as before. -/
structure Taken (d : ChainDesign Tx Ov) (content : Content Tx) (n : UInt64) (c : Commit τ Tx Ov) : Prop where
  slot : slotOf n = (content (epochOf n)).length
  size : c.txs.length ≤ maxTxPerBlock
  below : d.offsetOf (content (epochOf n)) + d.blockSize c.txs ≤ 2 ^ 32
  files : Files d c.backend content

/-- The epoch file is open and its mapping is long enough. -/
structure Opened (d : ChainDesign Tx Ov) (content : Content Tx) (n : UInt64) (c : Commit τ Tx Ov) (file : EpochFile) :
    Prop extends Taken d content n c where
  opened : c.backend.openEpochs (epochOf n) = some file
  mapped : d.offsetOf (content (epochOf n)) + d.blockSize c.txs ≤ file.length

/-- The block header and the transactions `done` are written. -/
structure Writing (d : ChainDesign Tx Ov) (content : Content Tx) (n : UInt64) (c : Commit τ Tx Ov)
    (done : List Tx) (file : EpochFile) (disk : EpochDisk) : Prop extends Opened d content n c file where
  onDisk : c.backend.epochs (epochOf n) = some disk
  appending : Appending d disk.image (content (epochOf n)) c.millis c.txs.length done file.cursor

/-- What holds of the epoch files at each point of a call that commits block `n` to files that
held `content`. -/
def Phase (d : ChainDesign Tx Ov) (content : Content Tx) (n : UInt64) (c : Commit τ Tx Ov) : Prop :=
  match c.pc with
  | .enter | .verify _ _ | .verifyApply _ _ _ | .takeNumber =>
    c.backend.metadata.currentBlockHeight = n ∧ Files d c.backend content ∧ Fits d c.backend content c.txs ∧
      slotOf n = (content (epochOf n)).length ∧ (c.pc = .enter ∨ c.txs.length ≤ maxTxPerBlock)
  | .openEpoch m => m = n ∧ Taken d content n c ∧
      d.offsetOf (content (epochOf n)) + d.blockSize c.txs ≤ c.backend.mappedLength n
  | .blockHeader m => m = n ∧ ∃ file, Opened d content n c file
  | .transactions m todo => m = n ∧ ∃ done file disk, c.txs = done ++ todo ∧ Writing d content n c done file disk
  | .nextSlot m => m = n ∧ hasNextSlot n ∧ ∃ file disk, Writing d content n c c.txs file disk
  | .setTimestamp _ | .track _ | .commitApply _ _ _ | .sealing _ _ _ | .writeSegment _ _ _ _ _
  | .report _ | .sync _ | .finish _ | .returned (some _) => Files d c.backend (content.append n c.txs)
  | .returned none | .threw _ _ | .died _ =>
    (c.pc.stretch = .before → Files d c.backend content) ∧
      (c.pc.stretch = .committed → Files d c.backend (content.append n c.txs))

/-- A call that stopped before the height was taken. -/
theorem Stretch.stopped_before {P Q : Prop} (p : P) :
    (Stretch.before = .before → P) ∧ (Stretch.before = .committed → Q) :=
  ⟨fun _ => p, fun there => by cases there⟩

/-- A call that stopped while it wrote. -/
theorem Stretch.stopped_writing {P Q : Prop} :
    (Stretch.writing = .before → P) ∧ (Stretch.writing = .committed → Q) :=
  ⟨(by intro there; cases there), by intro there; cases there⟩

/-- A call that stopped with the block written. -/
theorem Stretch.stopped_committed {P Q : Prop} (q : Q) :
    (Stretch.committed = .before → P) ∧ (Stretch.committed = .committed → Q) :=
  ⟨(by intro there; cases there), fun _ => q⟩

theorem gate_pass {config : BlockchainConfig} {size : Nat} {duration : UInt64}
    (h : gate config size duration = .pass) : 0 < size ∧ size ≤ maxTxPerBlock := by
  unfold gate at h
  split at h
  · rename_i eq; rw [eq]; decide
  · split at h
    · cases h
    · split at h
      · cases h
      · rename_i zero fits
        simp only [not_or, not_lt] at fits
        rw [narrowSize_eq fits.2.2] at zero
        exact ⟨Nat.pos_of_ne_zero zero, fits.2.2⟩

section Steps

variable {d : ChainDesign Tx Ov} {content : Content Tx} {c : Commit τ Tx Ov} {n : UInt64}

/-- The block header is written where the block belongs. -/
theorem Opened.header {file : EpochFile} (h : Opened d content n c file) (c' : Commit τ Tx Ov)
    (txs : c'.txs = c.txs) (millis : c'.millis = c.millis)
    (backend : c'.backend = c.backend.withEpoch (epochOf n) fun file img =>
      ({ file with cursor := (beginBlock img n c.millis c.txs.length).2 },
        (beginBlock img n c.millis c.txs.length).1)) :
    ∃ file disk, Writing d content n c' [] file disk := by
  obtain ⟨disk, onDisk, -, ends⟩ := h.files.opened _ file h.opened
  have held := h.files.holds (epochOf n)
  rw [onDisk] at held
  have room : (content (epochOf n)).length < blocksPerEpoch := by
    rw [← h.slot, slotOf_eq]
    exact Nat.mod_lt _ (by decide)
  have below := h.below
  have appending : Appending d (beginBlock disk.image n c.millis c.txs.length).1 (content (epochOf n))
      c.millis c.txs.length [] (beginBlock disk.image n c.millis c.txs.length).2 :=
    held.1.begin h.slot room (by unfold ChainDesign.blockSize blockHeaderSize at below; omega)
  obtain ⟨opened', onDisk'⟩ := withEpoch_opened h.opened onDisk fun file img =>
    ({ file with cursor := (beginBlock img n c.millis c.txs.length).2 }, (beginBlock img n c.millis c.txs.length).1)
  rw [← backend] at opened' onDisk'
  refine ⟨_, _, ⟨⟨⟨h.slot, ?_, ?_, ?_⟩, opened', ?_⟩, onDisk', ?_⟩⟩
  · rw [txs]; exact h.size
  · rw [txs]; exact below
  · rw [backend]
    exact h.files.withEpoch h.opened onDisk rfl (fun _ _ => rfl) appending.old ends
  · rw [txs]; exact h.mapped
  · rw [txs, millis]; exact appending

/-- The program counter and the time since the last block play no part. -/
theorem Writing.congr {done : List Tx} {file : EpochFile} {disk : EpochDisk}
    (h : Writing d content n c done file disk) {c' : Commit τ Tx Ov} (txs : c'.txs = c.txs)
    (millis : c'.millis = c.millis) (backend : c'.backend = c.backend) : Writing d content n c' done file disk := by
  obtain ⟨⟨⟨slot, size, below, files⟩, opened, mapped⟩, onDisk, appending⟩ := h
  rw [← txs] at size below mapped appending
  rw [← millis] at appending
  rw [← backend] at files opened onDisk
  exact ⟨⟨⟨slot, size, below, files⟩, opened, mapped⟩, onDisk, appending⟩

/-- One transaction is written behind those already there. -/
theorem Writing.transaction {done : List Tx} {file : EpochFile} {disk : EpochDisk}
    (h : Writing d content n c done file disk) (tx : Tx) (c' : Commit τ Tx Ov)
    (txs : c'.txs = c.txs) (millis : c'.millis = c.millis)
    (backend : c'.backend = c.backend.withEpoch (epochOf n) fun file img =>
      ({ file with cursor := file.cursor + (d.write tx).1.length }, img.write file.cursor (d.write tx).1)) :
    ∃ file disk, Writing d content n c' (done ++ [tx]) file disk := by
  obtain ⟨-, -, -, ends⟩ := h.files.opened _ file h.opened
  have appending := h.appending.transaction tx
  obtain ⟨opened', onDisk'⟩ := withEpoch_opened h.opened h.onDisk fun file img =>
    ({ file with cursor := file.cursor + (d.write tx).1.length }, img.write file.cursor (d.write tx).1)
  rw [← backend] at opened' onDisk'
  refine ⟨_, _, ⟨⟨⟨h.slot, ?_, ?_, ?_⟩, opened', ?_⟩, onDisk', ?_⟩⟩
  · rw [txs]; exact h.size
  · rw [txs]; exact h.below
  · rw [backend]
    exact h.files.withEpoch h.opened h.onDisk rfl (fun _ _ => rfl) appending.old ends
  · rw [txs]; exact h.mapped
  · rw [txs, millis]; exact appending

/-- The epoch file with the new block whole turns the content into the new one. -/
theorem Writing.finish {file : EpochFile} {disk : EpochDisk} (h : Writing d content n c c.txs file disk)
    {use : EpochFile → Image → EpochFile × Image} (keep : (use file disk.image).1.length = file.length)
    (holds : EpochHolds d (use file disk.image).2 (content (epochOf n) ++ [c.txs])) :
    Files d (c.backend.withEpoch (epochOf n) use) (content.append n c.txs) := by
  obtain ⟨-, -, -, ends⟩ := h.files.opened _ file h.opened
  have own : content.append n c.txs (epochOf n) = content (epochOf n) ++ [c.txs] := Function.update_self _ _ _
  refine h.files.withEpoch h.opened h.onDisk keep (fun e ne => Function.update_of_ne ne _ _) ?_ ?_
  · rw [own]; exact holds
  · rw [own]; exact ends.snoc h.mapped

theorem Writing.small {file : EpochFile} {disk : EpochDisk} {done : List Tx}
    (h : Writing d content n c done file disk) : c.txs.length < 65536 :=
  Nat.lt_of_le_of_lt h.size (by decide)

/-- Writing the next slot completes the block. -/
theorem Writing.nextSlot {file : EpochFile} {disk : EpochDisk} (h : Writing d content n c c.txs file disk)
    (next : hasNextSlot n) :
    Files d (c.backend.withEpoch (epochOf n) fun file img => (file, setNextSlot img n file.cursor))
      (content.append n c.txs) := by
  have slot := h.slot
  have more := (hasNextSlot_eq n).1 next
  rw [slotOf_eq] at slot
  refine h.finish rfl (h.appending.finish_next ?_ ?_ h.small h.below)
  · rw [slotOf_succ, ← slot]; omega
  · rw [← slot]; unfold blocksPerEpoch; omega

/-- The last block of an epoch is complete with its last transaction. -/
theorem Writing.last {file : EpochFile} {disk : EpochDisk} (h : Writing d content n c c.txs file disk)
    (last : ¬ hasNextSlot n) : Files d c.backend (content.append n c.txs) := by
  have slot := h.slot
  rw [slotOf_eq] at slot
  have full : (n.toNat + 1) % 65536 = 0 := by
    by_contra ne
    exact last ((hasNextSlot_eq n).2 ne)
  have holds := h.appending.finish_last (by rw [← slot]; unfold blocksPerEpoch; omega) h.small h.below
  have sameDisk : Function.update c.backend.epochs (epochOf n) (some disk) = c.backend.epochs := by
    rw [← h.onDisk, Function.update_eq_self]
  have sameFile : Function.update c.backend.openEpochs (epochOf n) (some file) = c.backend.openEpochs := by
    rw [← h.opened, Function.update_eq_self]
  have unchanged : (c.backend.withEpoch (epochOf n) fun file img => (file, img)) = c.backend := by
    simp only [Backend.withEpoch, h.opened, h.onDisk, sameDisk, sameFile]
  rw [← unchanged]
  exact h.finish rfl holds

/-- The files in the stretch before the height is taken. -/
theorem Phase.before {c : Commit τ Tx Ov} (h : Phase d content n c) (here : c.pc.stretch = .before) :
    Files d c.backend content := by
  obtain ⟨txs, millis, duration, pc, b⟩ := c
  cases pc with
  | enter => exact h.2.1
  | verify todo ov => exact h.2.1
  | verifyApply tx todo ov => exact h.2.1
  | takeNumber => exact h.2.1
  | returned result =>
    cases result with
    | none => exact h.1 rfl
    | some m => cases here
  | threw site e => exact h.1 here
  | died signal => exact h.1 here
  | _ => cases here

/-- The files in the stretch after the block is written. -/
theorem Phase.committed {c : Commit τ Tx Ov} (h : Phase d content n c) (here : c.pc.stretch = .committed) :
    Files d c.backend (content.append n c.txs) := by
  obtain ⟨txs, millis, duration, pc, b⟩ := c
  cases pc with
  | setTimestamp m => exact h
  | track m => exact h
  | commitApply m todo ov => exact h
  | sealing m i ov => exact h
  | writeSegment m i ov version payload => exact h
  | report m => exact h
  | sync m => exact h
  | finish m => exact h
  | returned result =>
    cases result with
    | none => cases here
    | some m => exact h
  | threw site e => exact h.2 here
  | died signal => exact h.2 here
  | _ => cases here

end Steps

section Runs

variable [OrderedStore τ TimestampEntry TimestampEntry.compare] {d : ChainDesign Tx Ov}
  {config : BlockchainConfig} {content : Content Tx} {n : UInt64}

/-- A call keeps its argument and its clock reading. -/
theorem step_args (d : ChainDesign Tx Ov) (config : BlockchainConfig) (env : Env) (c : Commit τ Tx Ov) :
    (AddBlock.step d config env c).txs = c.txs ∧ (AddBlock.step d config env c).millis = c.millis := by
  unfold AddBlock.step
  dsimp only
  repeat' first | exact ⟨rfl, rfl⟩ | split

/-- **The epoch files at every step**: whatever fails, each effect of `addBlock` takes the files
along its stretches. -/
theorem Phase.step {c : Commit τ Tx Ov} (h : Phase d content n c) (env : Env) :
    Phase d content n (AddBlock.step d config env c) := by
  obtain ⟨txs, millis, duration, pc, b⟩ := c
  cases pc with
  | enter =>
    obtain ⟨height, files, fits, slot, -⟩ := h
    simp only [AddBlock.step]
    split
    · rename_i pass
      exact ⟨height, files, fits, slot, .inr (gate_pass pass).2⟩
    · exact Stretch.stopped_before files
    · exact Stretch.stopped_before files
  | verify todo ov =>
    obtain ⟨height, files, fits, slot, size⟩ := h
    have small : txs.length ≤ maxTxPerBlock := size.resolve_left fun entered => by cases entered
    cases todo with
    | nil => exact ⟨height, files, fits, slot, .inr small⟩
    | cons tx todo =>
      simp only [AddBlock.step]
      split
      · exact ⟨height, files, fits, slot, .inr small⟩
      · exact Stretch.stopped_before files
  | verifyApply tx todo ov =>
    obtain ⟨height, files, fits, slot, size⟩ := h
    have small : txs.length ≤ maxTxPerBlock := size.resolve_left fun entered => by cases entered
    simp only [AddBlock.step]
    split
    · exact ⟨height, files, fits, slot, .inr small⟩
    · exact Stretch.stopped_before files
  | takeNumber =>
    obtain ⟨rfl, files, fits, slot, size⟩ := h
    have small : txs.length ≤ maxTxPerBlock := size.resolve_left fun entered => by cases entered
    exact ⟨rfl, ⟨slot, small, fits.below, files.congr rfl rfl⟩, fits.mapped⟩
  | openEpoch m =>
    obtain ⟨rfl, taken, mapped⟩ := h
    have files := taken.files.getEpochFile m env.epochOpen
    simp only [AddBlock.step]
    split
    · rename_i file b' eq
      rw [eq] at files
      obtain ⟨opened, length⟩ := getEpochFile_some eq
      exact ⟨rfl, file, ⟨⟨taken.slot, taken.size, taken.below, files⟩, opened, by rw [length]; exact mapped⟩⟩
    · exact Stretch.stopped_writing
    · exact Stretch.stopped_writing
  | blockHeader m =>
    obtain ⟨rfl, file, opened⟩ := h
    obtain ⟨file', disk, writing⟩ := opened.header
      (AddBlock.step d config env ⟨txs, millis, duration, .blockHeader m, b⟩) rfl rfl rfl
    exact ⟨rfl, [], file', disk, rfl, writing⟩
  | transactions m todo =>
    obtain ⟨rfl, done, file, disk, split, writing⟩ := h
    cases todo with
    | nil =>
      rw [List.append_nil] at split
      rw [← split] at writing
      simp only [AddBlock.step]
      by_cases next : hasNextSlot m
      · rw [if_pos next]
        exact ⟨rfl, next, file, disk, writing.congr rfl rfl rfl⟩
      · rw [if_neg next]
        exact writing.last next
    | cons tx todo =>
      obtain ⟨file', disk', writing'⟩ := writing.transaction tx
        (AddBlock.step d config env ⟨txs, millis, duration, .transactions m (tx :: todo), b⟩) rfl rfl rfl
      simp only [AddBlock.step] at writing' ⊢
      split
      · exact ⟨rfl, done ++ [tx], file', disk', by simpa using split, writing'.congr rfl rfl rfl⟩
      · exact Stretch.stopped_writing
  | nextSlot m =>
    obtain ⟨rfl, next, file, disk, writing⟩ := h
    exact writing.nextSlot next
  | setTimestamp m => exact Files.congr h rfl rfl
  | track m =>
    simp only [AddBlock.step]
    split
    · exact Stretch.stopped_committed h
    · exact Files.congr h rfl rfl
  | commitApply m todo ov =>
    cases todo with
    | nil => exact h
    | cons tx todo =>
      simp only [AddBlock.step]
      split
      · exact h
      · exact Stretch.stopped_committed h
  | sealing m i ov =>
    simp only [AddBlock.step]
    split
    · split
      · exact Stretch.stopped_committed h
      · split
        · exact h
        · split <;> exact h
    · exact h
  | writeSegment m i ov version payload =>
    simp only [AddBlock.step]
    split
    · exact Stretch.stopped_committed h
    · exact Files.congr h rfl rfl
  | report m =>
    simp only [AddBlock.step]
    split
    · exact Stretch.stopped_committed h
    · exact h
  | sync m => exact Files.congr h rfl rfl
  | finish m => exact Files.congr h rfl rfl
  | returned result => cases result <;> exact h
  | threw site e => exact h
  | died signal => exact h

variable {b : Backend τ} {txs : List Tx}

theorem after_args (d : ChainDesign Tx Ov) (config : BlockchainConfig) (env : Nat → Env) (txs : List Tx)
    (millis : UInt64) (b : Backend τ) (k : Nat) :
    ((AddBlock.machine d config).after env k (AddBlock.start txs millis b)).txs = txs ∧
      ((AddBlock.machine d config).after env k (AddBlock.start txs millis b)).millis = millis :=
  (AddBlock.machine d config).after_induction (P := fun c => c.txs = txs ∧ c.millis = millis) env ⟨rfl, rfl⟩
    (fun i c h => by
      obtain ⟨same, time⟩ := step_args d config (env i) c
      exact ⟨same.trans h.1, time.trans h.2⟩) k

/-- **A call cut off outside the writing stretch** leaves the old content or the new one. -/
theorem Files.after (files : Files d b content) (fits : Fits d b content txs)
    (slot : slotOf b.metadata.currentBlockHeight = (content (epochOf b.metadata.currentBlockHeight)).length)
    (config : BlockchainConfig) (env : Nat → Env) (millis : UInt64) (k : Nat) :
    let c := (AddBlock.machine d config).after env k (AddBlock.start txs millis b)
    (c.pc.stretch = .before → Files d c.backend content) ∧
      (c.pc.stretch = .committed → Files d c.backend (content.append b.metadata.currentBlockHeight txs)) := by
  have start : Phase d content b.metadata.currentBlockHeight (AddBlock.start txs millis b : Commit τ Tx Ov) :=
    ⟨rfl, files, fits, slot, .inl rfl⟩
  have phase := (AddBlock.machine d config).after_induction env start (fun _ _ h => h.step _) k
  refine ⟨phase.before, fun here => ?_⟩
  have whole := phase.committed here
  rwa [(after_args d config env txs millis b k).1] at whole

end Runs

end MagelessChain
