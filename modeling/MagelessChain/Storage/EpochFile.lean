import MagelessChain.Chain.Design

/-!
# Epoch files

`storage/EpochFile.cpp`: a file of the journal, mapped whole. Its header is four words and a
table of 65536 block offsets; blocks follow, each at a multiple of 4096. `appendBlock` is cut
into the three effects it has on the mapping: the block header, one transaction after another,
and the table slot of the next block.
-/

namespace MagelessChain

open Lib

def blocksPerEpoch : Nat := 65536
def blockAlignment : Nat := 4096
def currentFileVersion : Nat := 0xC7000000

/-- `sizeof(blockchain_epoch_header_t)`. -/
def epochHeaderSize : Nat := 16 + 4 * blocksPerEpoch

/-- `sizeof(block_header_t)`. -/
def blockHeaderSize : Nat := 64

/-- `(x + BLOCK_ALIGNMENT - 1) & ~(BLOCK_ALIGNMENT - 1)` in 64 bits. -/
def alignUp (x : Nat) : Nat := ((UInt64.ofNat x + 4095) &&& ~~~4095).toNat

/-- The offset of the first block of an epoch. -/
def firstBlockOffset : Nat := alignUp epochHeaderSize

/-- An epoch file on disk: what the mappings show, what a power loss leaves, and its length. -/
structure EpochDisk where
  image : Image
  durable : Image
  length : Nat

/-- A file just created. -/
def EpochDisk.created : EpochDisk := ⟨Image.zero, Image.zero, 0⟩

/-- The `EpochFile` object: the length of its mapping and the cursor of its `MmapHandle`. -/
structure EpochFile where
  length : Nat
  cursor : Nat
  deriving DecidableEq

/-- `blockOffset[i]` of the epoch header. -/
def blockOffset (img : Image) (i : Nat) : Nat := img.readWord (16 + 4 * i) 4

/-- Store `blockOffset[i]`, a `uint32_t`. -/
def setBlockOffset (img : Image) (i off : Nat) : Image := img.writeWord (16 + 4 * i) 4 off

/-- The header the constructor gives a new file. -/
def initHeader (img : Image) : Image :=
  setBlockOffset ((((img.writeWord 0 4 currentFileVersion).writeWord 4 4 blocksPerEpoch).writeWord 8 4 0).writeWord
    12 4 blockAlignment) 0 firstBlockOffset

/-- `EpochFile::EpochFile`: map the file and one MiB past its end, which extends it, and set up
the header of a new file. -/
def EpochFile.construct (isNew : Bool) (disk : EpochDisk) : EpochFile × EpochDisk :=
  let length := disk.length + 1024 * 1024
  (⟨length, 0⟩, { disk with length, image := if isNew then initHeader disk.image else disk.image })

/-- A `block_header_t`: the time, the transaction count as a `uint16_t`, 54 reserved bytes. -/
def blockHeader (millis : UInt64) (numTransactions : Nat) : Bytes :=
  Image.leBytes 8 millis.toNat ++ Image.leBytes 2 numTransactions ++ List.replicate 54 0

/-- The table slot of a block within its epoch. -/
def slotOf (blockNumber : UInt64) : Nat := (blockNumber % 65536).toNat

/-- `appendBlock` up to the transactions: find the block's offset, falling back to the first
data offset when its slot is zero, and write the block header there. Returns the cursor. -/
def beginBlock (img : Image) (blockNumber millis : UInt64) (numTransactions : Nat) : Image × Nat :=
  let i := slotOf blockNumber
  if blockOffset img i = 0 then
    ((setBlockOffset img i firstBlockOffset).write firstBlockOffset (blockHeader millis numTransactions),
      firstBlockOffset + blockHeaderSize)
  else
    (img.write (blockOffset img i) (blockHeader millis numTransactions), blockOffset img i + blockHeaderSize)

/-- Whether `appendBlock` has a next block in this epoch to write the slot of. -/
def hasNextSlot (blockNumber : UInt64) : Bool := (blockNumber + 1) % 65536 != 0

/-- `appendBlock` after the transactions: the next block starts at the aligned cursor. -/
def setNextSlot (img : Image) (blockNumber : UInt64) (cursor : Nat) : Image :=
  setBlockOffset img (slotOf (blockNumber + 1)) (alignUp cursor)

variable {Tx Ov : Type}

/-- The loop of `readBlock` over `n` transactions from the cursor. -/
def readTransactions (d : ChainDesign Tx Ov) (img : Image) (length : Nat) : Nat → Nat → Except Exn (List Tx) × Nat
  | 0, cursor => (.ok [], cursor)
  | n + 1, cursor =>
    match d.read img length cursor with
    | .error e => (.error e, cursor)
    | .ok (none, cursor) => (.error (.runtimeError "Failed to deserialize transaction"), cursor)
    | .ok (some tx, cursor) =>
      match readTransactions d img length n cursor with
      | (.ok txs, cursor) => (.ok (tx :: txs), cursor)
      | (.error e, cursor) => (.error e, cursor)

/-- `EpochFile::readBlock`. -/
def EpochFile.readBlock (d : ChainDesign Tx Ov) (file : EpochFile) (img : Image) (blockNumber : UInt64) :
    Except Exn (List Tx) × EpochFile :=
  let off := blockOffset img (slotOf blockNumber)
  if off = 0 then (.error (.runtimeError "Block offset is zero"), file)
  else
    let numTransactions := img.readWord (off + 8) 2
    let (result, cursor) := readTransactions d img file.length numTransactions (off + blockHeaderSize)
    (result, { file with cursor })

/-! ## Word arithmetic -/

/-- Masking the low twelve bits rounds down. -/
theorem toNat_and_not_4095 (x : UInt64) : (x &&& ~~~4095).toNat = x.toNat / 4096 * 4096 := by
  have mask : (~~~4095 : UInt64).toNat = (2 ^ 52 - 1) <<< 12 := by decide
  have down : x.toNat / 4096 * 4096 = x.toNat >>> 12 <<< 12 := by
    rw [Nat.shiftRight_eq_div_pow, Nat.shiftLeft_eq]
  rw [UInt64.toNat_and, mask, down]
  apply Nat.eq_of_testBit_eq
  intro j
  simp only [Nat.testBit_and, Nat.testBit_shiftLeft, Nat.testBit_shiftRight, Nat.testBit_two_pow_sub_one]
  by_cases low : 12 ≤ j
  · by_cases high : j < 64
    · simp [low, show j - 12 < 52 by omega, show 12 + (j - 12) = j by omega]
    · have : x.toNat.testBit j = false :=
        Nat.testBit_lt_two_pow (Nat.lt_of_lt_of_le x.toNat_lt (Nat.pow_le_pow_right (by omega) (by omega)))
      simp [this, show 12 + (j - 12) = j by omega]
  · simp [low]

theorem alignUp_eq {x : Nat} (h : x + 4095 < 2 ^ 64) : alignUp x = (x + 4095) / 4096 * 4096 := by
  rw [alignUp, toNat_and_not_4095]
  have : (UInt64.ofNat x + 4095).toNat = x + 4095 := by
    simp [UInt64.toNat_add]
    omega
  rw [this]

/-! ## Slots -/

theorem slotOf_eq (n : UInt64) : slotOf n = n.toNat % 65536 := by
  simp [slotOf]

theorem slotOf_succ (n : UInt64) : slotOf (n + 1) = (n.toNat + 1) % 65536 := by
  rw [slotOf_eq, UInt64.toNat_add]
  simp

theorem hasNextSlot_eq (n : UInt64) : hasNextSlot n = true ↔ (n.toNat + 1) % 65536 ≠ 0 := by
  have slot := slotOf_succ n
  unfold slotOf at slot
  rw [hasNextSlot, bne_iff_ne, ne_eq, ← UInt64.toNat_inj, slot]
  rfl

end MagelessChain
