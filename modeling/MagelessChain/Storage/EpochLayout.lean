import MagelessChain.Storage.EpochFile

/-!
# The layout of an epoch

Where the blocks of an epoch stand when they are appended one after another, and what the file
then holds: `EpochHolds` ties the offset table and the block regions to the list of blocks.
`Appending` is the same file while the next block is being written. Each effect of
`appendBlock` has one lemma, and `readBlock` reads back what the file holds.
-/

namespace MagelessChain

open Lib

variable {Tx Ov : Type}

/-- `x` rounded up to a multiple of the block alignment. -/
def roundUp (x : Nat) : Nat := (x + 4095) / 4096 * 4096

theorem le_roundUp (x : Nat) : x ≤ roundUp x := by unfold roundUp; omega

theorem alignUp_eq_roundUp {x : Nat} (h : x + 4095 < 2 ^ 64) : alignUp x = roundUp x := alignUp_eq h

theorem firstBlockOffset_eq : firstBlockOffset = 266240 := by decide

/-- The bytes a block takes: its header and its transactions. -/
def ChainDesign.blockSize (d : ChainDesign Tx Ov) (txs : List Tx) : Nat :=
  blockHeaderSize + (d.blockBytes txs).length

/-- Where the block after `blocks` starts. -/
def ChainDesign.offsetOf (d : ChainDesign Tx Ov) (blocks : List (List Tx)) : Nat :=
  blocks.foldl (fun off txs => roundUp (off + d.blockSize txs)) firstBlockOffset

section Offsets

variable {d : ChainDesign Tx Ov} {blocks : List (List Tx)}

theorem offsetOf_nil : d.offsetOf [] = 266240 := by
  rw [ChainDesign.offsetOf, List.foldl_nil, firstBlockOffset_eq]

theorem offsetOf_snoc (txs : List Tx) :
    d.offsetOf (blocks ++ [txs]) = roundUp (d.offsetOf blocks + d.blockSize txs) := by
  simp [ChainDesign.offsetOf]

theorem offsetOf_le_append (blocks more : List (List Tx)) : d.offsetOf blocks ≤ d.offsetOf (blocks ++ more) := by
  induction more generalizing blocks with
  | nil => simp
  | cons txs more ih =>
    have step : d.offsetOf blocks ≤ d.offsetOf (blocks ++ [txs]) := by
      rw [offsetOf_snoc]
      exact Nat.le_trans (Nat.le_add_right _ _) (le_roundUp _)
    have rest := ih (blocks ++ [txs])
    rw [List.append_assoc, List.singleton_append] at rest
    exact Nat.le_trans step rest

theorem first_le_offsetOf (blocks : List (List Tx)) : 266240 ≤ d.offsetOf blocks := by
  have := offsetOf_le_append (d := d) [] blocks
  rwa [List.nil_append, offsetOf_nil] at this

/-- Every block ends at or before the place where the next append starts. -/
theorem block_end_le {j : Nat} (hj : j < blocks.length) :
    d.offsetOf (blocks.take j) + d.blockSize blocks[j] ≤ d.offsetOf blocks := by
  have split : blocks = blocks.take j ++ [blocks[j]] ++ blocks.drop (j + 1) := by
    rw [List.append_assoc, List.singleton_append, List.getElem_cons_drop, List.take_append_drop]
  calc d.offsetOf (blocks.take j) + d.blockSize blocks[j]
      ≤ d.offsetOf (blocks.take j ++ [blocks[j]]) := by rw [offsetOf_snoc]; exact le_roundUp _
    _ ≤ d.offsetOf (blocks.take j ++ [blocks[j]] ++ blocks.drop (j + 1)) := offsetOf_le_append _ _
    _ = d.offsetOf blocks := by rw [← split]

end Offsets

/-! ## What an epoch file holds -/

/-- A block with transactions `txs` stands at `off`, under some time. -/
def BlockAt (d : ChainDesign Tx Ov) (img : Image) (off : Nat) (txs : List Tx) : Prop :=
  ∃ millis, img.Holds off (blockHeader millis txs.length ++ d.blockBytes txs)

/-- An epoch file holds `blocks`: each below 2^32 and at the offset its slot records, and the
slot of the next block is set. -/
structure EpochHolds (d : ChainDesign Tx Ov) (img : Image) (blocks : List (List Tx)) : Prop where
  count : blocks.length ≤ blocksPerEpoch
  small : ∀ txs ∈ blocks, txs.length < 65536
  fits : ∀ j (hj : j < blocks.length), d.offsetOf (blocks.take j) + d.blockSize blocks[j] ≤ 2 ^ 32
  slots : ∀ j, j < blocks.length → blockOffset img j = d.offsetOf (blocks.take j)
  next : blocks.length < blocksPerEpoch → blockOffset img blocks.length = d.offsetOf blocks % 2 ^ 32
  held : ∀ j (hj : j < blocks.length), BlockAt d img (d.offsetOf (blocks.take j)) blocks[j]

@[simp] theorem length_blockHeader (millis : UInt64) (n : Nat) : (blockHeader millis n).length = 64 := by
  simp [blockHeader]

theorem blockOffset_write {img : Image} {i off : Nat} {bytes : Bytes} (hi : i < blocksPerEpoch)
    (above : 266240 ≤ off) : blockOffset (img.write off bytes) i = blockOffset img i := by
  apply Image.readWord_write
  left
  unfold blocksPerEpoch at hi
  omega

theorem blockOffset_setBlockOffset (img : Image) (i off : Nat) :
    blockOffset (setBlockOffset img i off) i = off % 2 ^ 32 := by
  exact Image.readWord_writeWord _ _ _ _

theorem blockOffset_setBlockOffset_ne {img : Image} {i j off : Nat} (ne : i ≠ j) :
    blockOffset (setBlockOffset img j off) i = blockOffset img i := by
  apply Image.readWord_writeWord_apart
  unfold Image.Apart
  omega

theorem BlockAt.write {d : ChainDesign Tx Ov} {img : Image} {off off' : Nat} {txs : List Tx} {bytes : Bytes}
    (h : BlockAt d img off txs) (above : off + d.blockSize txs ≤ off') :
    BlockAt d (img.write off' bytes) off txs := by
  obtain ⟨millis, held⟩ := h
  refine ⟨millis, held.write (.inl ?_)⟩
  rw [List.length_append, length_blockHeader]
  exact above

theorem BlockAt.setBlockOffset {d : ChainDesign Tx Ov} {img : Image} {off i v : Nat} {txs : List Tx}
    (h : BlockAt d img off txs) (hi : i < blocksPerEpoch) (above : 266240 ≤ off) :
    BlockAt d (setBlockOffset img i v) off txs := by
  obtain ⟨millis, held⟩ := h
  refine ⟨millis, held.writeWord (.inr ?_)⟩
  unfold blocksPerEpoch at hi
  omega

/-- A new file holds no block, and its first slot is set. -/
theorem EpochHolds.created (d : ChainDesign Tx Ov) (img : Image) : EpochHolds d (initHeader img) [] where
  count := Nat.zero_le _
  small := by simp
  fits := by simp
  slots := by simp
  next := by
    intro _
    rw [List.length_nil, initHeader, blockOffset_setBlockOffset, firstBlockOffset_eq, offsetOf_nil]
  held := by simp

/-- Stores past the last block leave the file's blocks and slots alone. -/
theorem EpochHolds.write {d : ChainDesign Tx Ov} {img : Image} {blocks : List (List Tx)} {off : Nat}
    {bytes : Bytes} (h : EpochHolds d img blocks) (above : d.offsetOf blocks ≤ off) :
    EpochHolds d (img.write off bytes) blocks where
  count := h.count
  small := h.small
  fits := h.fits
  slots j hj := by
    have := first_le_offsetOf (d := d) blocks
    rw [blockOffset_write (Nat.lt_of_lt_of_le hj h.count) (by omega)]
    exact h.slots j hj
  next room := by
    have := first_le_offsetOf (d := d) blocks
    rw [blockOffset_write room (by omega)]
    exact h.next room
  held j hj := (h.held j hj).write (Nat.le_trans (block_end_le hj) above)

/-! ## Appending a block -/

/-- The file while the block after `blocks` is written: the transactions `done` stand behind
its header and the cursor is at their end. -/
structure Appending (d : ChainDesign Tx Ov) (img : Image) (blocks : List (List Tx)) (millis : UInt64)
    (count : Nat) (done : List Tx) (cursor : Nat) : Prop where
  old : EpochHolds d img blocks
  here : img.Holds (d.offsetOf blocks) (blockHeader millis count ++ d.blockBytes done)
  cursor_eq : cursor = d.offsetOf blocks + blockHeaderSize + (d.blockBytes done).length

section Append

variable {d : ChainDesign Tx Ov} {img : Image} {blocks : List (List Tx)} {millis : UInt64}

/-- The header goes to the offset its slot records; the fallback is not taken. -/
theorem EpochHolds.begin {blockNumber : UInt64} {count : Nat} (h : EpochHolds d img blocks)
    (slot : slotOf blockNumber = blocks.length) (room : blocks.length < blocksPerEpoch)
    (fits : d.offsetOf blocks < 2 ^ 32) :
    Appending d (beginBlock img blockNumber millis count).1 blocks millis count []
      (beginBlock img blockNumber millis count).2 := by
  have low := first_le_offsetOf (d := d) blocks
  have off : blockOffset img (slotOf blockNumber) = d.offsetOf blocks := by
    rw [slot, h.next room, Nat.mod_eq_of_lt fits]
  have eq : beginBlock img blockNumber millis count =
      (img.write (d.offsetOf blocks) (blockHeader millis count), d.offsetOf blocks + blockHeaderSize) := by
    unfold beginBlock
    simp only [off]
    rw [if_neg (by omega)]
  rw [eq]
  refine ⟨h.write (Nat.le_refl _), ?_, by simp⟩
  simpa using Image.holds_write img (d.offsetOf blocks) (blockHeader millis count)

/-- One transaction more. -/
theorem Appending.transaction {count cursor : Nat} {done : List Tx}
    (h : Appending d img blocks millis count done cursor) (tx : Tx) :
    Appending d (img.write cursor (d.write tx).1) blocks millis count (done ++ [tx])
      (cursor + (d.write tx).1.length) where
  old := h.old.write (by rw [h.cursor_eq]; omega)
  here := by
    have at_end : cursor = d.offsetOf blocks + (blockHeader millis count ++ d.blockBytes done).length := by
      rw [h.cursor_eq, List.length_append, length_blockHeader, blockHeaderSize]
      omega
    have extended := h.here.extend (d.write tx).1
    rw [← at_end] at extended
    simpa [d.blockBytes_append] using extended
  cursor_eq := by
    rw [h.cursor_eq, d.blockBytes_append]
    simp
    omega

/-- The block is whole once all its transactions are written and the slot of the next block,
if the epoch has one, is set. -/
theorem Appending.finish {img' : Image} {txs : List Tx} {cursor : Nat}
    (h : Appending d img blocks millis txs.length txs cursor) (room : blocks.length < blocksPerEpoch)
    (small : txs.length < 65536) (fits : d.offsetOf blocks + d.blockSize txs ≤ 2 ^ 32)
    (same : ∀ j, j ≤ blocks.length → blockOffset img' j = blockOffset img j)
    (kept : ∀ off xs, 266240 ≤ off → BlockAt d img off xs → BlockAt d img' off xs)
    (next : blocks.length + 1 < blocksPerEpoch →
      blockOffset img' (blocks.length + 1) = alignUp cursor % 2 ^ 32) :
    EpochHolds d img' (blocks ++ [txs]) := by
  have off : blockOffset img blocks.length = d.offsetOf blocks := by
    rw [h.old.next room, Nat.mod_eq_of_lt]
    unfold ChainDesign.blockSize blockHeaderSize at fits
    omega
  -- each clause is about an old block, or about the new one at index `blocks.length`
  have cases : ∀ j, j < (blocks ++ [txs]).length → j < blocks.length ∨ j = blocks.length := by
    intro j hj
    rw [List.length_append, List.length_singleton] at hj
    omega
  have old : ∀ j, j ≤ blocks.length → (blocks ++ [txs]).take j = blocks.take j := fun j hj =>
    List.take_append_of_le_length hj
  refine ⟨?_, ?_, fun j hj => ?_, fun j hj => ?_, fun more => ?_, fun j hj => ?_⟩
  · rw [List.length_append, List.length_singleton]
    exact room
  · intro xs mem
    rcases List.mem_append.1 mem with mem | mem
    · exact h.old.small xs mem
    · rw [List.mem_singleton.1 mem]
      exact small
  · rcases cases j hj with lt | rfl
    · rw [old j (by omega), List.getElem_append_left lt]
      exact h.old.fits j lt
    · rw [old _ (Nat.le_refl _), List.take_length]
      simpa using fits
  · rcases cases j hj with lt | rfl
    · rw [same j (by omega), old j (by omega)]
      exact h.old.slots j lt
    · rw [same _ (Nat.le_refl _), old _ (Nat.le_refl _), List.take_length]
      exact off
  · rw [List.length_append, List.length_singleton] at more ⊢
    rw [next more, offsetOf_snoc, alignUp_eq_roundUp (by
      rw [h.cursor_eq]; unfold ChainDesign.blockSize at fits; omega), h.cursor_eq]
    rw [ChainDesign.blockSize, Nat.add_assoc]
  · rcases cases j hj with lt | rfl
    · rw [old j (by omega), List.getElem_append_left lt]
      exact kept _ _ (first_le_offsetOf _) (h.old.held j lt)
    · rw [old _ (Nat.le_refl _), List.take_length]
      refine kept _ _ (first_le_offsetOf _) ⟨millis, ?_⟩
      simpa using h.here

/-- The last block of an epoch leaves no slot to set. -/
theorem Appending.finish_last {txs : List Tx} {cursor : Nat}
    (h : Appending d img blocks millis txs.length txs cursor) (last : blocks.length + 1 = blocksPerEpoch)
    (small : txs.length < 65536) (fits : d.offsetOf blocks + d.blockSize txs ≤ 2 ^ 32) :
    EpochHolds d img (blocks ++ [txs]) :=
  h.finish (by omega) small fits (fun _ _ => rfl) (fun _ _ _ held => held) (fun more => by omega)

/-- Setting the slot of the next block completes any other. -/
theorem Appending.finish_next {txs : List Tx} {cursor : Nat} {blockNumber : UInt64}
    (h : Appending d img blocks millis txs.length txs cursor)
    (slot : slotOf (blockNumber + 1) = blocks.length + 1) (more : blocks.length + 1 < blocksPerEpoch)
    (small : txs.length < 65536) (fits : d.offsetOf blocks + d.blockSize txs ≤ 2 ^ 32) :
    EpochHolds d (setNextSlot img blockNumber cursor) (blocks ++ [txs]) := by
  unfold setNextSlot
  rw [slot]
  refine h.finish (by omega) small fits (fun j hj => ?_) (fun off xs low held => ?_) (fun _ => ?_)
  · exact blockOffset_setBlockOffset_ne (by omega)
  · exact held.setBlockOffset more low
  · exact blockOffset_setBlockOffset _ _ _

end Append

/-! ## Reading a block -/

/-- The loop of `readBlock` reads back transactions that stand one after another. -/
theorem readTransactions_eq {d : ChainDesign Tx Ov} {img : Image} {length : Nat} (txs : List Tx)
    (reads : ∀ tx ∈ txs, d.ReadsBack tx) :
    ∀ off, img.Holds off (d.blockBytes txs) → off + (d.blockBytes txs).length ≤ length →
      readTransactions d img length txs.length off = (.ok txs, off + (d.blockBytes txs).length) := by
  induction txs with
  | nil => intro off _ _; rfl
  | cons tx txs ih =>
    intro off held bound
    rw [d.blockBytes_cons, List.length_append] at bound
    rw [d.blockBytes_cons, Image.holds_append] at held
    have first : d.read img length off = _ := (reads tx List.mem_cons_self).read held.1 (by omega)
    have rest := ih (fun x hx => reads x (List.mem_cons_of_mem _ hx)) _ held.2 (by omega)
    rw [List.length_cons, readTransactions]
    simp only [first, rest, d.blockBytes_cons, List.length_append, Nat.add_assoc]

/-- `readBlock` returns the block, with the cursor at its end. -/
theorem EpochHolds.readBlock_eq {d : ChainDesign Tx Ov} {img : Image} {blocks : List (List Tx)}
    {file : EpochFile} {blockNumber : UInt64} {j : Nat} (h : EpochHolds d img blocks)
    (hj : j < blocks.length) (slot : slotOf blockNumber = j) (reads : ∀ tx ∈ blocks[j], d.ReadsBack tx)
    (mapped : d.offsetOf (blocks.take j) + d.blockSize blocks[j] ≤ file.length) :
    file.readBlock d img blockNumber =
      (.ok blocks[j], { file with cursor := d.offsetOf (blocks.take j) + d.blockSize blocks[j] }) := by
  obtain ⟨millis, held⟩ := h.held j hj
  have off : blockOffset img (slotOf blockNumber) = d.offsetOf (blocks.take j) := by
    rw [slot, h.slots j hj]
  have low := first_le_offsetOf (d := d) (blocks.take j)
  -- the count field of the block header, behind the eight bytes of the time
  have count : img.readWord (d.offsetOf (blocks.take j) + 8) 2 = (blocks[j]).length := by
    have header := (Image.holds_append.1 held).1
    unfold blockHeader at header
    rw [List.append_assoc, Image.holds_append, Image.holds_append] at header
    have word := header.2.1.readWord
    rw [Image.length_leBytes] at word
    rw [word]
    exact Nat.mod_eq_of_lt (h.small _ (List.getElem_mem hj))
  have body := (Image.holds_append.1 held).2
  rw [length_blockHeader] at body
  have bound : d.offsetOf (blocks.take j) + 64 + (d.blockBytes blocks[j]).length ≤ file.length := by
    unfold ChainDesign.blockSize blockHeaderSize at mapped
    omega
  have loop := readTransactions_eq _ reads _ body bound
  simp only [EpochFile.readBlock, off, count]
  rw [if_neg (by omega)]
  simp only [ChainDesign.blockSize, blockHeaderSize, loop, Nat.add_assoc]

/-- **Reading back**: `readBlock` returns the block an epoch file holds. -/
theorem EpochHolds.readBlock {d : ChainDesign Tx Ov} {img : Image} {blocks : List (List Tx)}
    {file : EpochFile} {blockNumber : UInt64} {j : Nat} (h : EpochHolds d img blocks)
    (hj : j < blocks.length) (slot : slotOf blockNumber = j) (reads : ∀ tx ∈ blocks[j], d.ReadsBack tx)
    (mapped : d.offsetOf (blocks.take j) + d.blockSize blocks[j] ≤ file.length) :
    (file.readBlock d img blockNumber).1 = .ok blocks[j] := by
  rw [h.readBlock_eq hj slot reads mapped]

end MagelessChain
