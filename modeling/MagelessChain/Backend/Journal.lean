import MagelessChain.Backend.State

/-!
# The journal as a list of blocks

The chain's journal, abstractly, is the list of the blocks committed so far. `Journal` relates
a backend to that list: the height counts it, and the epoch files hold it in runs of 65536.
Opening, evicting and reading epoch files keep the relation, and `getBlock` answers from the
list.
-/

namespace MagelessChain

open Lib

variable {τ Tx Ov : Type}

/-- The number of blocks the `uint32_t` epoch numbers reach. -/
def maxBlocks : Nat := 2 ^ 48

/-- The blocks of one epoch. -/
def epochBlocks (blocks : List (List Tx)) (epoch : UInt32) : List (List Tx) :=
  (blocks.drop (epoch.toNat * blocksPerEpoch)).take blocksPerEpoch

section Numbers

theorem epochOf_toNat (n : UInt64) : (epochOf n).toNat = n.toNat / 65536 % 2 ^ 32 := by
  simp [epochOf]

end Numbers

section Epochs

variable {blocks : List (List Tx)} {n : UInt64}

/-- The block a journal of `blocks` appends next goes to the end of its epoch. -/
theorem epochBlocks_snoc (hn : n.toNat = blocks.length) (bound : blocks.length < maxBlocks) (txs : List Tx) :
    epochBlocks (blocks ++ [txs]) (epochOf n) = epochBlocks blocks (epochOf n) ++ [txs] := by
  have epoch : (epochOf n).toNat = blocks.length / 65536 := by
    rw [epochOf_toNat, hn]
    unfold maxBlocks at bound
    omega
  unfold epochBlocks blocksPerEpoch
  rw [epoch, List.drop_append_of_le_length (by omega), List.take_of_length_le, List.take_of_length_le]
  · rw [List.length_drop]; omega
  · rw [List.length_append, List.length_drop, List.length_singleton]; omega

/-- ... and the other epochs stay. -/
theorem epochBlocks_snoc_ne {e : UInt32} (hn : n.toNat = blocks.length) (bound : blocks.length < maxBlocks)
    (ne : e ≠ epochOf n) (txs : List Tx) : epochBlocks (blocks ++ [txs]) e = epochBlocks blocks e := by
  have different : e.toNat ≠ blocks.length / 65536 := by
    intro same
    apply ne
    rw [← UInt32.toNat_inj, epochOf_toNat, hn, same]
    unfold maxBlocks at bound
    omega
  unfold epochBlocks blocksPerEpoch
  by_cases past : blocks.length < e.toNat * 65536
  · rw [List.drop_eq_nil_of_le (by simp; omega), List.drop_eq_nil_of_le (by omega)]
  · rw [List.drop_append_of_le_length (by omega), List.take_append_of_le_length]
    rw [List.length_drop]
    omega

theorem length_epochBlocks_next (hn : n.toNat = blocks.length) (bound : blocks.length < maxBlocks) :
    (epochBlocks blocks (epochOf n)).length = slotOf n := by
  unfold epochBlocks blocksPerEpoch maxBlocks at *
  rw [List.length_take, List.length_drop, epochOf_toNat, slotOf_eq, hn]
  omega

/-- A block is found in its epoch at its slot. -/
theorem getElem?_epochBlocks (bound : blocks.length ≤ maxBlocks) (hn : n.toNat < blocks.length) :
    (epochBlocks blocks (epochOf n))[slotOf n]? = blocks[n.toNat]? := by
  unfold epochBlocks blocksPerEpoch maxBlocks at *
  rw [List.getElem?_take_of_lt (by rw [slotOf_eq]; omega), List.getElem?_drop, epochOf_toNat, slotOf_eq]
  congr 1
  omega

end Epochs

/-! ## The relation -/

/-- Every block of an epoch ends at or before `length`. -/
def EndsBy (d : ChainDesign Tx Ov) (blocks : List (List Tx)) (length : Nat) : Prop :=
  ∀ j (hj : j < blocks.length), d.offsetOf (blocks.take j) + d.blockSize blocks[j] ≤ length

theorem EndsBy.mono {d : ChainDesign Tx Ov} {blocks : List (List Tx)} {length length' : Nat}
    (h : EndsBy d blocks length) (le : length ≤ length') : EndsBy d blocks length' :=
  fun j hj => Nat.le_trans (h j hj) le

theorem EndsBy.snoc {d : ChainDesign Tx Ov} {blocks : List (List Tx)} {length : Nat} {txs : List Tx}
    (h : EndsBy d blocks length) (last : d.offsetOf blocks + d.blockSize txs ≤ length) :
    EndsBy d (blocks ++ [txs]) length := by
  intro j hj
  rw [List.length_append, List.length_singleton] at hj
  rcases Nat.lt_succ_iff_lt_or_eq.1 hj with lt | rfl
  · rw [List.take_append_of_le_length (Nat.le_of_lt lt), List.getElem_append_left lt]
    exact h j lt
  · rw [List.take_append_of_le_length (Nat.le_refl _), List.take_length]
    simpa using last

/-- An epoch file on disk holds the blocks of its epoch; an epoch with no file has none. -/
def DiskHolds (d : ChainDesign Tx Ov) (blocks : List (List Tx)) : Option EpochDisk → Prop
  | none => blocks = []
  | some disk => EpochHolds d disk.image blocks ∧ EndsBy d blocks disk.length

/-- What each epoch file holds. -/
abbrev Content (Tx : Type) := UInt32 → List (List Tx)

/-- The epoch files of a backend hold `content`, and every open file maps all of its epoch. -/
structure Files (d : ChainDesign Tx Ov) (b : Backend τ) (content : Content Tx) : Prop where
  holds : ∀ e, DiskHolds d (content e) (b.epochs e)
  opened : ∀ e file, b.openEpochs e = some file → ∃ disk, b.epochs e = some disk ∧
    file.length ≤ disk.length ∧ EndsBy d (content e) file.length

/-- The backend's journal is `blocks`. -/
structure Journal (d : ChainDesign Tx Ov) (b : Backend τ) (blocks : List (List Tx)) : Prop where
  bound : blocks.length ≤ maxBlocks
  height : b.metadata.currentBlockHeight.toNat = blocks.length
  files : Files d b (epochBlocks blocks)

theorem Files.congr {d : ChainDesign Tx Ov} {b b' : Backend τ} {content : Content Tx} (h : Files d b content)
    (epochs : b'.epochs = b.epochs) (opens : b'.openEpochs = b.openEpochs) : Files d b' content where
  holds := by rw [epochs]; exact h.holds
  opened := by rw [epochs, opens]; exact h.opened

/-- The length of an epoch file, zero where there is none. -/
def Backend.fileLength (b : Backend τ) (e : UInt32) : Nat := ((b.epochs e).getD EpochDisk.created).length

theorem fileLength_withEpoch (b : Backend τ) (e e' : UInt32) (use : EpochFile → Image → EpochFile × Image) :
    (b.withEpoch e' use).fileLength e = b.fileLength e := by
  unfold Backend.withEpoch
  split
  · rename_i file disk opened onDisk
    by_cases same : e = e'
    · subst same
      simp [Backend.fileLength, onDisk]
    · simp [Backend.fileLength, Function.update_of_ne same]
  · rfl

theorem fileLength_openEpoch (b : Backend τ) (e e' : UInt32) :
    (b.openEpoch e').2.fileLength e = b.fileLength e + if e = e' then 1024 * 1024 else 0 := by
  by_cases same : e = e'
  · subst same
    simp [Backend.fileLength, Backend.openEpoch, EpochFile.construct]
  · simp [Backend.fileLength, Backend.openEpoch, same]

/-- The length of the mapping an append to the file of block `n` goes through. -/
def Backend.mappedLength (b : Backend τ) (n : UInt64) : Nat :=
  match b.openEpochs (epochOf n) with
  | some file => file.length
  | none => b.fileLength (epochOf n) + 1024 * 1024

/-- Opening an epoch file keeps what the files hold; a new file holds its epoch, which is empty. -/
theorem Files.openEpoch {d : ChainDesign Tx Ov} {b : Backend τ} {content : Content Tx} (h : Files d b content)
    (e : UInt32) : Files d (b.openEpoch e).2 content where
  holds e' := by
    by_cases same : e' = e
    · subst same
      have held := h.holds e'
      simp only [Backend.openEpoch, EpochFile.construct, Function.update_self]
      cases file : b.epochs e' with
      | none =>
        rw [file] at held
        simp only [DiskHolds] at held
        rw [held]
        exact ⟨EpochHolds.created d _, fun j hj => absurd hj (by simp)⟩
      | some disk =>
        rw [file] at held
        exact ⟨held.1, held.2.mono (Nat.le_add_right _ _)⟩
    · simp only [Backend.openEpoch, Function.update_of_ne same]
      exact h.holds e'
  opened e' file opened := by
    by_cases same : e' = e
    · subst same
      simp only [Backend.openEpoch, EpochFile.construct, Function.update_self, Option.some.injEq] at opened ⊢
      refine ⟨_, rfl, by rw [← opened], ?_⟩
      have held := h.holds e'
      cases disk : b.epochs e' with
      | none =>
        rw [disk] at held
        simp only [DiskHolds] at held
        rw [held]
        exact fun j hj => absurd hj (by simp)
      | some old =>
        rw [disk] at held opened
        rw [← opened]
        exact held.2.mono (Nat.le_add_right _ _)
    · simp only [Backend.openEpoch, Function.update_of_ne same] at opened ⊢
      exact h.opened e' file opened

/-- `getEpochFile` keeps what the files hold. -/
theorem Files.getEpochFile {d : ChainDesign Tx Ov} {b : Backend τ} {content : Content Tx} (h : Files d b content)
    (n : UInt64) (outcome : OpenOutcome) : Files d (b.getEpochFile n outcome).2 content := by
  unfold Backend.getEpochFile
  split
  · exact h
  · split
    · exact h
    · exact h
    · exact h.openEpoch _

/-- A file `getEpochFile` returns is open, with the mapping `mappedLength` foretells. -/
theorem getEpochFile_some {b b' : Backend τ} {n : UInt64} {outcome : OpenOutcome} {file : EpochFile}
    (h : b.getEpochFile n outcome = (.ok (some file), b')) :
    b'.openEpochs (epochOf n) = some file ∧ file.length = b.mappedLength n := by
  unfold Backend.getEpochFile at h
  unfold Backend.mappedLength
  cases cached : b.openEpochs (epochOf n) with
  | some old =>
    simp only [cached, Prod.mk.injEq, Except.ok.injEq, Option.some.injEq] at h
    obtain ⟨rfl, rfl⟩ := h
    exact ⟨cached, rfl⟩
  | none =>
    cases outcome with
    | throws e => simp [cached] at h
    | null => simp [cached] at h
    | opens =>
      simp only [cached, Prod.mk.injEq, Except.ok.injEq, Option.some.injEq] at h
      obtain ⟨rfl, rfl⟩ := h
      simp [Backend.openEpoch, EpochFile.construct, Backend.fileLength]

/-- `getEpochFile` touches nothing but the epoch files. -/
theorem getEpochFile_metadata (b : Backend τ) (n : UInt64) (outcome : OpenOutcome) :
    (b.getEpochFile n outcome).2.metadata = b.metadata := by
  unfold Backend.getEpochFile
  split
  · rfl
  · split <;> rfl

theorem withEpoch_opened {b : Backend τ} {e : UInt32} {file : EpochFile} {disk : EpochDisk}
    (opened : b.openEpochs e = some file) (onDisk : b.epochs e = some disk)
    (use : EpochFile → Image → EpochFile × Image) :
    (b.withEpoch e use).openEpochs e = some (use file disk.image).1 ∧
      (b.withEpoch e use).epochs e = some { disk with image := (use file disk.image).2 } := by
  simp [Backend.withEpoch, opened, onDisk]

/-- Using an open epoch file turns what the files hold from `content` into `content'`, when its
own epoch says so and the other epochs are the same in both. -/
theorem Files.withEpoch {d : ChainDesign Tx Ov} {b : Backend τ} {content content' : Content Tx} {e : UInt32}
    {file : EpochFile} {disk : EpochDisk} {use : EpochFile → Image → EpochFile × Image} (h : Files d b content)
    (opened : b.openEpochs e = some file) (onDisk : b.epochs e = some disk)
    (keep : (use file disk.image).1.length = file.length)
    (others : ∀ e', e' ≠ e → content' e' = content e')
    (holds : EpochHolds d (use file disk.image).2 (content' e))
    (ends : EndsBy d (content' e) file.length) : Files d (b.withEpoch e use) content' := by
  have le : file.length ≤ disk.length := by
    obtain ⟨disk', onDisk', le, -⟩ := h.opened e file opened
    rw [onDisk, Option.some.injEq] at onDisk'
    rw [onDisk']
    exact le
  simp only [Backend.withEpoch, opened, onDisk]
  refine ⟨fun e' => ?_, fun e' file' opened' => ?_⟩
  · by_cases same : e' = e
    · subst same
      simp only [Function.update_self]
      exact ⟨holds, ends.mono le⟩
    · simp only [Function.update_of_ne same]
      rw [others e' same]
      exact h.holds e'
  · by_cases same : e' = e
    · subst same
      simp only [Function.update_self, Option.some.injEq] at opened' ⊢
      subst opened'
      exact ⟨_, rfl, by rw [keep]; exact le, by rw [keep]; exact ends⟩
    · simp only [Function.update_of_ne same] at opened' ⊢
      rw [others e' same]
      exact h.opened e' file' opened'

/-- Moving a cursor keeps what the files hold. -/
theorem Files.moveCursor {d : ChainDesign Tx Ov} {b : Backend τ} {content : Content Tx} (h : Files d b content)
    (e : UInt32) (move : EpochFile → Image → EpochFile) (keep : ∀ file img, (move file img).length = file.length) :
    Files d (b.withEpoch e fun file img => (move file img, img)) content := by
  cases opened : b.openEpochs e with
  | none => simpa [Backend.withEpoch, opened] using h
  | some file =>
    obtain ⟨disk, onDisk, -, ends⟩ := h.opened e file opened
    have held := h.holds e
    rw [onDisk] at held
    exact h.withEpoch opened onDisk (keep _ _) (fun _ _ => rfl) held.1 ends

@[simp] theorem withEpoch_metadata (b : Backend τ) (e : UInt32) (use : EpochFile → Image → EpochFile × Image) :
    (b.withEpoch e use).metadata = b.metadata := by
  unfold Backend.withEpoch
  split <;> rfl

theorem readBlock_length (d : ChainDesign Tx Ov) (file : EpochFile) (img : Image) (n : UInt64) :
    (file.readBlock d img n).2.length = file.length := by
  unfold EpochFile.readBlock
  dsimp only
  split <;> rfl

/-- Looking for an epoch file keeps the journal, whether it opens or not. -/
theorem Journal.getEpochFile {d : ChainDesign Tx Ov} {b : Backend τ} {blocks : List (List Tx)} (h : Journal d b blocks)
    (n : UInt64) (outcome : OpenOutcome) : Journal d (b.getEpochFile n outcome).2 blocks where
  bound := h.bound
  height := by
    rw [getEpochFile_metadata]
    exact h.height
  files := h.files.getEpochFile n outcome

/-- Reading a block changes neither the height nor what the files hold. -/
theorem Journal.getBlock {d : ChainDesign Tx Ov} {b : Backend τ} {blocks : List (List Tx)} (h : Journal d b blocks)
    (n : UInt64) (outcome : OpenOutcome) : Journal d (b.getBlock d n outcome).2 blocks := by
  have looked := h.getEpochFile n outcome
  unfold Backend.getBlock
  split
  · exact h
  · split
    · rename_i e b' eq
      rw [eq] at looked
      exact looked
    · rename_i b' eq
      rw [eq] at looked
      exact looked
    · rename_i file b' eq
      rw [eq] at looked
      dsimp only
      constructor
      · exact looked.bound
      · rw [withEpoch_metadata]
        exact looked.height
      · apply looked.files.moveCursor (epochOf n) (fun file img => (file.readBlock d img n).2)
        intro file img
        exact readBlock_length d file img n

/-- A block below the height is read from its slot of its epoch file. -/
theorem Files.getBlock_eq {d : ChainDesign Tx Ov} {b : Backend τ} {content : Content Tx} (h : Files d b content)
    {n : UInt64} {txs : List Tx} (inRange : n < b.metadata.currentBlockHeight)
    (found : (content (epochOf n))[slotOf n]? = some txs) (reads : ∀ tx ∈ txs, d.ReadsBack tx) :
    (b.getBlock d n .opens).1 = .ok txs := by
  have files := h.getEpochFile n .opens
  obtain ⟨slotBound, atSlot⟩ := List.getElem?_eq_some_iff.1 found
  obtain ⟨file, b', eq⟩ : ∃ file b', b.getEpochFile n .opens = (.ok (some file), b') := by
    unfold Backend.getEpochFile
    cases b.openEpochs (epochOf n) with
    | some file => exact ⟨file, b, rfl⟩
    | none => exact ⟨_, _, rfl⟩
  rw [eq] at files
  obtain ⟨opened, -⟩ := getEpochFile_some eq
  obtain ⟨disk, onDisk, -, ends⟩ := files.opened _ file opened
  have held := files.holds (epochOf n)
  rw [onDisk] at held
  unfold Backend.getBlock
  rw [if_neg (UInt64.not_le.2 inRange), eq]
  dsimp only
  rw [onDisk, Option.getD_some, ← atSlot]
  exact held.1.readBlock slotBound rfl (by rw [atSlot]; exact reads) (ends _ slotBound)

/-- **Reading from the journal**: `getBlock` returns the block with that number. -/
theorem Journal.getBlock_eq {d : ChainDesign Tx Ov} {b : Backend τ} {blocks : List (List Tx)} (h : Journal d b blocks)
    {n : UInt64} (hn : n.toNat < blocks.length) (reads : ∀ tx ∈ blocks[n.toNat], d.ReadsBack tx) :
    (b.getBlock d n .opens).1 = .ok blocks[n.toNat] := by
  have found := getElem?_epochBlocks h.bound hn
  rw [List.getElem?_eq_getElem hn] at found
  exact h.files.getBlock_eq (by rw [UInt64.lt_iff_toNat_lt, h.height]; exact hn) found reads

/-- Blocks that are not committed are out of range. -/
theorem Journal.getBlock_range {d : ChainDesign Tx Ov} {b : Backend τ} {blocks : List (List Tx)}
    (h : Journal d b blocks) {n : UInt64} (hn : blocks.length ≤ n.toNat) (outcome : OpenOutcome) :
    (b.getBlock d n outcome).1 = .error (.rangeError "Block number out of range") := by
  have outside : n ≥ b.metadata.currentBlockHeight := by
    rw [ge_iff_le, UInt64.le_iff_toNat_le, h.height]
    exact hn
  unfold Backend.getBlock
  rw [if_pos outside]

theorem Journal.collectBlocks {d : ChainDesign Tx Ov} {blocks : List (List Tx)} (outcome : UInt64 → OpenOutcome) :
    ∀ (numbers : List UInt64) {b : Backend τ}, Journal d b blocks →
      Journal d (b.collectBlocks d outcome numbers).2 blocks := by
  intro numbers
  induction numbers with
  | nil => intro b h; exact h
  | cons n rest ih =>
    intro b h
    have read := h.getBlock n (outcome n)
    unfold Backend.collectBlocks
    split
    · rename_i e b' eq
      rw [eq] at read
      exact read
    · rename_i txs b' eq
      rw [eq] at read
      have more := ih read
      split <;> (rename_i eq'; rw [eq'] at more; exact more)

theorem Journal.timeWindow [OrderedStore τ TimestampEntry TimestampEntry.compare] {d : ChainDesign Tx Ov} {b b' : Backend τ}
    {blocks : List (List Tx)} {fuel : Nat} {startMillis endMillis : UInt64} {outcome : UInt64 → OpenOutcome}
    {result : Except Exn (List Tx)} (h : Journal d b blocks)
    (returned : b.getTransactionsByTimeWindow d fuel startMillis endMillis outcome = some (result, b')) :
    Journal d b' blocks := by
  unfold Backend.getTransactionsByTimeWindow at returned
  split at returned
  · cases returned
    exact h
  · obtain ⟨numbers, -, eq⟩ := Option.map_eq_some_iff.1 returned
    have journal := h.collectBlocks outcome numbers
    rw [eq] at journal
    exact journal

theorem Journal.reopen {d : ChainDesign Tx Ov} {b : Backend τ} {blocks : List (List Tx)} (h : Journal d b blocks) :
    Journal d b.reopen blocks where
  bound := h.bound
  height := h.height
  files := ⟨h.files.holds, by simp [Backend.reopen]⟩

theorem Journal.evict {d : ChainDesign Tx Ov} {b : Backend τ} {blocks : List (List Tx)} (h : Journal d b blocks)
    (e : UInt32) : Journal d (b.evict e) blocks where
  bound := h.bound
  height := h.height
  files := by
    refine ⟨h.files.holds, fun e' file opened => ?_⟩
    by_cases same : e' = e
    · simp [Backend.evict, same] at opened
    · simp only [Backend.evict, Function.update_of_ne same] at opened
      exact h.files.opened e' file opened

/-- A fresh backend has an empty journal. -/
theorem Journal.fresh [OrderedStore τ TimestampEntry TimestampEntry.compare] (d : ChainDesign Tx Ov) :
    Journal d (Backend.fresh : Backend τ) [] where
  bound := Nat.zero_le _
  height := rfl
  files := ⟨fun e => by simp [Backend.fresh, DiskHolds, epochBlocks], by simp [Backend.fresh]⟩

end MagelessChain
