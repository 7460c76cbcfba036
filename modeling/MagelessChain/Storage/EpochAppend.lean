import MagelessChain.Storage.EpochLayout

/-!
# Appending block after block

`EpochFile::appendBlock`, called for one block of an epoch after the other through one object. Each
call starts where the table says, writes the block header and the transactions behind one another, and
records the end, rounded up, for the next block. The table has 32 bits for it, and takes zero for an
offset not set; the mapping ends a MiB behind where the file ended when it was opened. What follows
from either is arithmetic on the sizes of the blocks.
-/

namespace MagelessChain

open Lib

variable {Tx Ov : Type}

/-- The loop of `appendBlock`: the transactions are written behind one another, up to one whose
`write` throws. -/
def appendTransactions (d : ChainDesign Tx Ov) : List Tx → Image → Nat → Image × Nat × Option Exn
  | [], img, cursor => (img, cursor, none)
  | tx :: rest, img, cursor =>
    let img := img.write cursor (d.write tx).1
    let cursor := cursor + (d.write tx).1.length
    match (d.write tx).2 with
    | none => appendTransactions d rest img cursor
    | some e => (img, cursor, some e)

/-- `EpochFile::appendBlock`: the object and the file it leaves, and what it threw. -/
def EpochFile.appendBlock (d : ChainDesign Tx Ov) (file : EpochFile) (img : Image) (blockNumber millis : UInt64)
    (transactions : List Tx) : EpochFile × Image × Option Exn :=
  let (img, cursor) := beginBlock img blockNumber millis transactions.length
  match appendTransactions d transactions img cursor with
  | (img, cursor, some e) => ({ file with cursor }, img, some e)
  | (img, cursor, none) =>
    ({ file with cursor }, if hasNextSlot blockNumber then setNextSlot img blockNumber cursor else img, none)

/-- `blockOffset` in `appendBlock`, with its fallback. -/
def blockStart (img : Image) (blockNumber : UInt64) : Nat :=
  if blockOffset img (slotOf blockNumber) = 0 then firstBlockOffset else blockOffset img (slotOf blockNumber)

/-- What a call of `appendBlock` did: the bytes from `start` up to `stop` were written, and `next` is
the offset recorded for the next block, if the epoch has one. -/
structure Appended where
  start : Nat
  stop : Nat
  next : Option Nat
  deriving DecidableEq, Repr

/-- Calls for successive blocks, each with its time, up to one that throws. -/
def appendRun (d : ChainDesign Tx Ov) : List (UInt64 × List Tx) → EpochFile → Image → UInt64 → List Appended
  | [], _, _, _ => []
  | (millis, transactions) :: rest, file, img, blockNumber =>
    let (file', img', thrown) := file.appendBlock d img blockNumber millis transactions
    ⟨blockStart img blockNumber, file'.cursor,
      if hasNextSlot blockNumber then some (blockOffset img' (slotOf (blockNumber + 1))) else none⟩ ::
      match thrown with
      | none => appendRun d rest file' img' (blockNumber + 1)
      | some _ => []

/-! ## Where the blocks go -/

/-- The start of a block behind one that ends at `stop`: 32 bits of the end rounded up, and the first
offset where they are zero. -/
def nextStart (stop : Nat) : Nat :=
  if roundUp stop % 2 ^ 32 = 0 then firstBlockOffset else roundUp stop % 2 ^ 32

/-- What calls for blocks of these sizes do, the first one in a given slot and at a given offset. -/
def appendLayout (start slot : Nat) : List Nat → List Appended
  | [] => []
  | size :: rest =>
    ⟨start, start + size, if slot + 1 < blocksPerEpoch then some (roundUp (start + size) % 2 ^ 32) else none⟩ ::
      appendLayout (nextStart (start + size)) (slot + 1) rest

theorem alignUp_mod (x : Nat) : alignUp x % 2 ^ 32 = roundUp x % 2 ^ 32 := by
  have wrapped : (UInt64.ofNat x + 4095).toNat = (x + 4095) % 2 ^ 64 := by
    rw [UInt64.toNat_add, UInt64.toNat_ofNat']
    simp
  rw [alignUp, toNat_and_not_4095, wrapped]
  unfold roundUp
  omega

theorem appendTransactions_eq {d : ChainDesign Tx Ov} (txs : List Tx) (writes : ∀ tx ∈ txs, (d.write tx).2 = none) :
    ∀ img cursor, ∃ img', appendTransactions d txs img cursor = (img', cursor + (d.blockBytes txs).length, none) := by
  induction txs with
  | nil => exact fun img _ => ⟨img, rfl⟩
  | cons tx rest ih =>
    intro img cursor
    obtain ⟨img', rest'⟩ := ih (fun tx mem => writes tx (List.mem_cons_of_mem _ mem)) (img.write cursor (d.write tx).1)
      (cursor + (d.write tx).1.length)
    refine ⟨img', ?_⟩
    rw [appendTransactions]
    simp only [writes tx List.mem_cons_self, rest', ChainDesign.blockBytes_cons, List.length_append, Nat.add_assoc]

/-- Where the transactions are written without exceptions, `appendBlock` ends with the slot of the next block. -/
theorem appendBlock_returns {d : ChainDesign Tx Ov} {txs : List Tx} (file : EpochFile) (img : Image) (n millis : UInt64)
    (writes : ∀ tx ∈ txs, (d.write tx).2 = none) :
    let begun := beginBlock img n millis txs.length
    let written := appendTransactions d txs begun.1 begun.2
    file.appendBlock d img n millis txs =
      ({ file with cursor := written.2.1 }, if hasNextSlot n then setNextSlot written.1 n written.2.1 else written.1, none) := by
  obtain ⟨img', written⟩ := appendTransactions_eq txs writes (beginBlock img n millis txs.length).1
    (beginBlock img n millis txs.length).2
  unfold EpochFile.appendBlock
  simp only [written]

theorem beginBlock_cursor (img : Image) (n millis : UInt64) (count : Nat) :
    (beginBlock img n millis count).2 = blockStart img n + blockHeaderSize := by
  unfold beginBlock blockStart
  dsimp only
  split <;> rfl

/-- One call: where it leaves the cursor, and what it records. -/
theorem appendBlock_eq {d : ChainDesign Tx Ov} {txs : List Tx} (file : EpochFile) (img : Image) (n millis : UInt64)
    (writes : ∀ tx ∈ txs, (d.write tx).2 = none) :
    ∃ img', file.appendBlock d img n millis txs = ({ file with cursor := blockStart img n + d.blockSize txs }, img', none) ∧
      (hasNextSlot n → blockOffset img' (slotOf (n + 1)) = roundUp (blockStart img n + d.blockSize txs) % 2 ^ 32) := by
  obtain ⟨img', written⟩ := appendTransactions_eq txs writes (beginBlock img n millis txs.length).1
    (beginBlock img n millis txs.length).2
  have stop : (beginBlock img n millis txs.length).2 + (d.blockBytes txs).length = blockStart img n + d.blockSize txs := by
    rw [beginBlock_cursor, ChainDesign.blockSize, Nat.add_assoc]
  rw [stop] at written
  refine ⟨if hasNextSlot n then setNextSlot img' n (blockStart img n + d.blockSize txs) else img', ?_, fun more => ?_⟩
  · rw [appendBlock_returns file img n millis writes, written]
  · rw [if_pos more, setNextSlot, blockOffset_setBlockOffset, alignUp_mod]

theorem hasNextSlot_iff (n : UInt64) : hasNextSlot n = true ↔ slotOf n + 1 < blocksPerEpoch := by
  rw [hasNextSlot_eq, slotOf_eq]
  unfold blocksPerEpoch
  omega

/-- **A run of calls** lays the blocks out by their sizes alone. -/
theorem appendRun_eq {d : ChainDesign Tx Ov} (blocks : List (UInt64 × List Tx))
    (writes : ∀ block ∈ blocks, ∀ tx ∈ block.2, (d.write tx).2 = none) :
    ∀ (file : EpochFile) (img : Image) (n : UInt64), slotOf n + blocks.length ≤ blocksPerEpoch →
      appendRun d blocks file img n =
        appendLayout (blockStart img n) (slotOf n) (blocks.map fun block => d.blockSize block.2) := by
  induction blocks with
  | nil => exact fun _ _ _ _ => rfl
  | cons block rest ih =>
    intro file img n room
    obtain ⟨millis, txs⟩ := block
    have here : ∀ tx ∈ txs, (d.write tx).2 = none := writes (millis, txs) List.mem_cons_self
    obtain ⟨img', appended, recorded⟩ := appendBlock_eq file img n millis here
    have later := ih (fun block mem => writes block (List.mem_cons_of_mem _ mem))
      { file with cursor := blockStart img n + d.blockSize txs } img' (n + 1)
    rw [appendRun, appended, List.map_cons, appendLayout]
    dsimp only
    rw [List.length_cons] at room
    have more := hasNextSlot_iff n
    by_cases last : slotOf n + 1 < blocksPerEpoch
    · have next := recorded (more.2 last)
      have slot : slotOf (n + 1) = slotOf n + 1 := by
        rw [slotOf_eq] at last
        rw [slotOf_succ, slotOf_eq]
        unfold blocksPerEpoch at last
        omega
      have starts : blockStart img' (n + 1) = nextStart (blockStart img n + d.blockSize txs) := by
        rw [blockStart, nextStart, next]
      rw [if_pos (more.2 last), if_pos last, later (by omega), next, slot, starts]
    · obtain rfl : rest = [] := List.length_eq_zero_iff.1 (by omega)
      rw [if_neg (fun has => last (more.1 has)), if_neg last]
      rfl

/-! ## Within the mapping -/

/-- Blocks of these sizes, the first one at `start`, end within the first `mapped` bytes. -/
def Room (mapped : Nat) : Nat → List Nat → Prop
  | _, [] => True
  | start, size :: rest => start + size ≤ mapped ∧ Room mapped (nextStart (start + size)) rest

instance decidableRoom (mapped : Nat) : (start : Nat) → (sizes : List Nat) → Decidable (Room mapped start sizes)
  | _, [] => .isTrue trivial
  | start, size :: rest =>
    have := decidableRoom mapped (nextStart (start + size)) rest
    inferInstanceAs (Decidable (_ ∧ _))

theorem appendLayout_inside (mapped : Nat) (sizes : List Nat) :
    ∀ start slot, (∀ call ∈ appendLayout start slot sizes, call.stop ≤ mapped) ↔ Room mapped start sizes := by
  induction sizes with
  | nil => exact fun _ _ => iff_of_true (fun _ mem => by cases mem) trivial
  | cons size rest ih =>
    intro start slot
    rw [appendLayout, List.forall_mem_cons, ih, Room]

theorem roundUp_add {start : Nat} (aligned : 4096 ∣ start) (size : Nat) : roundUp (start + size) = start + roundUp size := by
  obtain ⟨units, rfl⟩ := aligned
  unfold roundUp
  omega

/-- While offsets need no more than 32 bits, each block starts behind the rounded sizes of those before it. -/
theorem room_iff {mapped : Nat} (narrow : mapped + 4096 ≤ 2 ^ 32) (sizes : List Nat) :
    ∀ {start}, 4096 ∣ start → 0 < start → (Room mapped start sizes ↔
      ∀ k (inside : k < sizes.length), start + ((sizes.take k).map roundUp).sum + sizes[k] ≤ mapped) := by
  induction sizes with
  | nil => exact fun _ _ => iff_of_true trivial fun k inside => absurd inside (Nat.not_lt_zero k)
  | cons size rest ih =>
    intro start aligned positive
    rw [Room]
    by_cases fits : start + size ≤ mapped
    · have padding : roundUp (start + size) < start + size + 4096 := by unfold roundUp; omega
      have next : nextStart (start + size) = start + roundUp size := by
        have low := le_roundUp (start + size)
        rw [nextStart, Nat.mod_eq_of_lt (by omega), if_neg (by omega), roundUp_add aligned]
      have aligned' : 4096 ∣ start + roundUp size := Nat.dvd_add aligned ⟨_, Nat.mul_comm _ _⟩
      rw [next, ih aligned' (by omega)]
      constructor
      · rintro ⟨-, later⟩ k inside
        obtain _ | k := k
        · simpa using fits
        · have here := later k (Nat.lt_of_succ_lt_succ inside)
          rw [List.take_succ_cons, List.map_cons, List.sum_cons, List.getElem_cons_succ]
          omega
      · intro all
        refine ⟨fits, fun k inside => ?_⟩
        have here := all (k + 1) (Nat.succ_lt_succ inside)
        rw [List.take_succ_cons, List.map_cons, List.sum_cons, List.getElem_cons_succ] at here
        omega
    · refine iff_of_false (fun room => fits room.1) fun all => fits ?_
      simpa using all 0 (Nat.succ_pos _)

/-- Every call writes within the region mapped when the file was opened. -/
def InsideMapping (d : ChainDesign Tx Ov) (isNew : Bool) (disk : EpochDisk) (n : UInt64) (blocks : List (UInt64 × List Tx)) :
    Prop :=
  ∀ call ∈ appendRun d blocks (EpochFile.construct isNew disk).1 (EpochFile.construct isNew disk).2.image n,
    call.stop ≤ (EpochFile.construct isNew disk).1.length

section Inside

variable {d : ChainDesign Tx Ov} {blocks : List (UInt64 × List Tx)}

theorem insideMapping_iff (writes : ∀ block ∈ blocks, ∀ tx ∈ block.2, (d.write tx).2 = none) (isNew : Bool) (disk : EpochDisk)
    {n : UInt64} (epoch : slotOf n + blocks.length ≤ blocksPerEpoch) :
    InsideMapping d isNew disk n blocks ↔ Room (disk.length + 1024 * 1024)
      (blockStart (EpochFile.construct isNew disk).2.image n) (blocks.map fun block => d.blockSize block.2) := by
  rw [InsideMapping, appendRun_eq blocks writes _ _ _ epoch]
  exact appendLayout_inside _ _ _ _

theorem blockStart_pos (img : Image) (n : UInt64) : 0 < blockStart img n := by
  unfold blockStart
  split
  · decide
  · omega

/-- The first block of a new file starts behind the header. -/
theorem blockStart_new {n : UInt64} (first : slotOf n = 0) (img : Image) : blockStart (initHeader img) n = 266240 := by
  have recorded : blockOffset (initHeader img) 0 = 266240 := by
    rw [initHeader, blockOffset_setBlockOffset, firstBlockOffset_eq, Nat.mod_eq_of_lt (by omega)]
  rw [blockStart, first, recorded]
  rfl

/-- **Appends stay inside the mapping** exactly while the sizes of the blocks leave room, whatever the
file held when it was opened. Below 4 GiB a block has room if its offset, the first one and the rounded
sizes of those before it, leaves it as many bytes as it takes. -/
theorem appends_inside (d : ChainDesign Tx Ov) (isNew : Bool) (disk : EpochDisk) (n : UInt64)
    (blocks : List (UInt64 × List Tx)) (writes : ∀ block ∈ blocks, ∀ tx ∈ block.2, (d.write tx).2 = none)
    (epoch : slotOf n + blocks.length ≤ blocksPerEpoch) :
    let start := blockStart (EpochFile.construct isNew disk).2.image n
    let sizes := blocks.map fun block => d.blockSize block.2
    let mapped := disk.length + 1024 * 1024
    (InsideMapping d isNew disk n blocks ↔ Room mapped start sizes) ∧
      (4096 ∣ start → mapped + 4096 ≤ 2 ^ 32 → (InsideMapping d isNew disk n blocks ↔
        ∀ k (inside : k < sizes.length), start + ((sizes.take k).map roundUp).sum + sizes[k] ≤ mapped)) := by
  have room := insideMapping_iff writes isNew disk epoch
  exact ⟨room, fun aligned narrow => room.trans (room_iff narrow _ aligned (blockStart_pos _ _))⟩

/-- Blocks of one transaction of one byte. -/
def smallBlocks (count : Nat) : List (UInt64 × List UInt8) := List.replicate count (0, [7])

theorem smallBlocks_write (count : Nat) : ∀ block ∈ smallBlocks count, ∀ tx ∈ block.2, (byteDesign.write tx).2 = none :=
  fun _ _ _ _ => rfl

theorem smallBlocks_epoch {count : Nat} (few : count ≤ blocksPerEpoch) : slotOf 0 + (smallBlocks count).length ≤ blocksPerEpoch := by
  rw [smallBlocks, List.length_replicate, slotOf_eq]
  simpa using few

theorem smallBlocks_sizes (count : Nat) :
    (smallBlocks count).map (fun block => byteDesign.blockSize block.2) = List.replicate count 66 :=
  List.map_replicate

/-- The mapping of a new file takes 191 of the smallest blocks. -/
theorem appends_inside_small : InsideMapping byteDesign true EpochDisk.created 0 (smallBlocks 191) := by
  refine (appends_inside byteDesign true EpochDisk.created 0 (smallBlocks 191) (smallBlocks_write 191)
    (smallBlocks_epoch (by decide))).1.2 ?_
  rw [smallBlocks_sizes, EpochFile.construct]
  dsimp only
  rw [if_pos rfl, blockStart_new rfl]
  decide +kernel

/-- The next one ends 66 bytes behind it. -/
theorem appends_outside : ¬ InsideMapping byteDesign true EpochDisk.created 0 (smallBlocks 192) := by
  rw [insideMapping_iff (smallBlocks_write 192) true EpochDisk.created (smallBlocks_epoch (by decide)), smallBlocks_sizes, EpochFile.construct]
  dsimp only
  rw [if_pos rfl, blockStart_new rfl]
  decide +kernel

end Inside

/-! ## Apart from one another -/

/-- Where the block behind blocks of these sizes would start, if offsets had no width. -/
def offsetAfter (start : Nat) (sizes : List Nat) : Nat := sizes.foldl (fun off size => roundUp (off + size)) start

/-- The table says where the blocks are: each call records the end of its block, rounded up, which is
behind the block's start, and the next call starts there. No block meets the epoch header or another
block. -/
structure Truthful (calls : List Appended) : Prop where
  recorded : ∀ call ∈ calls, ∀ next ∈ call.next, next = roundUp call.stop ∧ call.start < next
  chained : calls.IsChain fun a b => a.next = some b.start
  behindHeader : ∀ call ∈ calls, epochHeaderSize ≤ call.start
  apart : calls.Pairwise fun a b => a.stop ≤ b.start

section Apart

theorem le_offsetAfter (start : Nat) (sizes : List Nat) : start ≤ offsetAfter start sizes := by
  induction sizes generalizing start with
  | nil => exact Nat.le_refl _
  | cons size rest ih => exact Nat.le_trans (Nat.le_trans (Nat.le_add_right _ _) (le_roundUp _)) (ih _)

theorem offsetOf_eq (d : ChainDesign Tx Ov) (blocks : List (List Tx)) :
    d.offsetOf blocks = offsetAfter firstBlockOffset (blocks.map d.blockSize) := by
  rw [offsetAfter, List.foldl_map]
  rfl

/-- An offset that needs no more than 32 bits is where the next block starts. -/
theorem nextStart_narrow {stop : Nat} (positive : 0 < stop) (narrow : roundUp stop < 2 ^ 32) : nextStart stop = roundUp stop := by
  have low := le_roundUp stop
  rw [nextStart, Nat.mod_eq_of_lt narrow, if_neg (by omega)]

/-- Blocks whose offsets need no more than 32 bits are recorded where they are. -/
theorem appendLayout_truthful (sizes : List Nat) :
    ∀ start slot, epochHeaderSize ≤ start → (∀ size ∈ sizes, 0 < size) → slot + sizes.length ≤ blocksPerEpoch →
      offsetAfter start (sizes.take (blocksPerEpoch - 1 - slot)) < 2 ^ 32 →
      Truthful (appendLayout start slot sizes) ∧ ∀ call ∈ appendLayout start slot sizes, start ≤ call.start := by
  induction sizes with
  | nil =>
    intro start slot _ _ _ _
    exact ⟨⟨fun _ mem => (by cases mem), .nil, fun _ mem => (by cases mem), .nil⟩, fun _ mem => by cases mem⟩
  | cons size rest ih =>
    intro start slot low positive room narrow
    have some : 0 < size := positive size List.mem_cons_self
    rw [List.length_cons] at room
    rw [appendLayout]
    by_cases more : slot + 1 < blocksPerEpoch
    · rw [show blocksPerEpoch - 1 - slot = blocksPerEpoch - 1 - (slot + 1) + 1 by omega, List.take_succ_cons] at narrow
      have end_le := le_roundUp (start + size)
      have next : roundUp (start + size) < 2 ^ 32 := Nat.lt_of_le_of_lt (le_offsetAfter _ _) narrow
      have place : nextStart (start + size) = roundUp (start + size) := nextStart_narrow (by omega) next
      obtain ⟨truthful, later⟩ := ih (roundUp (start + size)) (slot + 1) (by omega)
        (fun size mem => positive size (List.mem_cons_of_mem _ mem)) (by omega) narrow
      rw [if_pos more, place, Nat.mod_eq_of_lt next]
      refine ⟨⟨?_, ?_, ?_, ?_⟩, ?_⟩
      · rw [List.forall_mem_cons]
        refine ⟨fun next' mem => ?_, truthful.recorded⟩
        cases mem
        exact ⟨rfl, by dsimp only; omega⟩
      · cases rest with
        | nil => exact .singleton _
        | cons size rest => exact .cons_cons rfl truthful.chained
      · rw [List.forall_mem_cons]
        exact ⟨low, truthful.behindHeader⟩
      · exact List.pairwise_cons.2 ⟨fun call mem => Nat.le_trans end_le (later call mem), truthful.apart⟩
      · rw [List.forall_mem_cons]
        exact ⟨Nat.le_refl _, fun call mem => Nat.le_trans (by omega) (later call mem)⟩
    · obtain rfl : rest = [] := List.length_eq_zero_iff.1 (by omega)
      rw [if_neg more, appendLayout]
      refine ⟨⟨?_, .singleton _, ?_, List.pairwise_singleton _ _⟩, ?_⟩
      · rw [List.forall_mem_singleton]
        exact fun _ mem => by cases mem
      · rw [List.forall_mem_singleton]
        exact low
      · rw [List.forall_mem_singleton]

/-- Blocks that are recorded where they are have offsets that need no more than 32 bits. -/
theorem Truthful.narrow (sizes : List Nat) :
    ∀ start slot, 0 < start → start < 2 ^ 32 → Truthful (appendLayout start slot sizes) →
      offsetAfter start (sizes.take (blocksPerEpoch - 1 - slot)) < 2 ^ 32 := by
  induction sizes with
  | nil =>
    intro start slot _ narrow _
    rw [List.take_nil]
    exact narrow
  | cons size rest ih =>
    intro start slot positive narrow truthful
    by_cases more : slot + 1 < blocksPerEpoch
    · rw [show blocksPerEpoch - 1 - slot = blocksPerEpoch - 1 - (slot + 1) + 1 by omega, List.take_succ_cons]
      rw [appendLayout, if_pos more] at truthful
      have recorded : roundUp (start + size) % 2 ^ 32 = roundUp (start + size) :=
        (truthful.recorded _ List.mem_cons_self _ rfl).1
      have next : roundUp (start + size) < 2 ^ 32 := by omega
      have low := le_roundUp (start + size)
      rw [nextStart_narrow (by omega) next] at truthful
      refine ih (roundUp (start + size)) (slot + 1) (by omega) next ⟨?_, truthful.chained.of_cons, ?_, truthful.apart.tail⟩
      · exact fun call mem => truthful.recorded call (List.mem_cons_of_mem _ mem)
      · exact fun call mem => truthful.behindHeader call (List.mem_cons_of_mem _ mem)
    · rw [show blocksPerEpoch - 1 - slot = 0 by omega, List.take_zero]
      exact narrow

variable {d : ChainDesign Tx Ov} {blocks : List (UInt64 × List Tx)}

/-- What calls on a new file do. -/
theorem appendRun_new (writes : ∀ block ∈ blocks, ∀ tx ∈ block.2, (d.write tx).2 = none) (disk : EpochDisk) {n : UInt64}
    (first : slotOf n = 0) (epoch : blocks.length ≤ blocksPerEpoch) :
    appendRun d blocks (EpochFile.construct true disk).1 (EpochFile.construct true disk).2.image n =
      appendLayout 266240 0 (blocks.map fun block => d.blockSize block.2) := by
  rw [appendRun_eq blocks writes _ _ _ (by omega), EpochFile.construct]
  dsimp only
  rw [if_pos rfl, blockStart_new first, first]

/-- **The offset table** of an epoch tells the truth, and its blocks are apart, exactly while the offsets
recorded in it need no more than 32 bits. -/
theorem appends_truthful (d : ChainDesign Tx Ov) (disk : EpochDisk) (n : UInt64) (blocks : List (UInt64 × List Tx))
    (writes : ∀ block ∈ blocks, ∀ tx ∈ block.2, (d.write tx).2 = none) (first : slotOf n = 0)
    (epoch : blocks.length ≤ blocksPerEpoch) :
    Truthful (appendRun d blocks (EpochFile.construct true disk).1 (EpochFile.construct true disk).2.image n) ↔
      d.offsetOf ((blocks.map Prod.snd).take (blocksPerEpoch - 1)) < 2 ^ 32 := by
  have sizes : d.offsetOf ((blocks.map Prod.snd).take (blocksPerEpoch - 1)) =
      offsetAfter 266240 ((blocks.map fun block => d.blockSize block.2).take (blocksPerEpoch - 1 - 0)) := by
    rw [offsetOf_eq, firstBlockOffset_eq, List.map_take, List.map_map]
    rfl
  rw [appendRun_new writes disk first epoch, sizes]
  constructor
  · exact Truthful.narrow _ 266240 0 (by decide) (by decide)
  · refine fun narrow => (appendLayout_truthful _ 266240 0 (by decide) ?_ ?_ narrow).1
    · intro size mem
      obtain ⟨block, -, rfl⟩ := List.mem_map.1 mem
      unfold ChainDesign.blockSize blockHeaderSize
      omega
    · rw [List.length_map]
      omega

/-- Transactions that are their own bytes. -/
def blobDesign : ChainDesign Bytes Unit where
  freshOverride := ()
  verify _ _ _ := true
  apply _ _ ov := (ov, .ok true)
  write tx := (tx, none)
  getFactory _ := none
  familySize := 0
  indexCount := 0
  encodingVersion _ := none
  sealFamily _ _ _ := .ok []

/-- Two blocks, the first one of more than 4096 bytes. -/
theorem appends_truthful_small : Truthful (appendRun blobDesign [(1, [List.replicate 5000 7, [8]]), (2, [[9]])]
    (EpochFile.construct true EpochDisk.created).1 (EpochFile.construct true EpochDisk.created).2.image 0) := by
  refine (appends_truthful blobDesign EpochDisk.created 0 [(1, [List.replicate 5000 7, [8]]), (2, [[9]])]
    (fun _ _ _ _ => rfl) (by decide) (by decide)).2 ?_
  decide +kernel

/-- What calls for a block that ends where 32 bits do and another one do: the end is recorded as zero, and
the other block is written over the first one. -/
theorem appendRun_wraps {blob : Bytes} (length : blob.length = 2 ^ 32 - 266304) :
    appendRun blobDesign [(1, [blob]), (2, [[9]])] (EpochFile.construct true EpochDisk.created).1
        (EpochFile.construct true EpochDisk.created).2.image 0 =
      [⟨266240, 2 ^ 32, some 0⟩, ⟨266240, 266305, some 270336⟩] := by
  have sizes : [(1, [blob]), (2, [[9]])].map (fun block : UInt64 × List Bytes => blobDesign.blockSize block.2) =
      [2 ^ 32 - 266240, 65] := by
    simp [ChainDesign.blockSize, ChainDesign.blockBytes, blobDesign, blockHeaderSize, length]
  rw [appendRun_new (fun _ _ _ _ => rfl) EpochDisk.created (by decide) (by rw [List.length_cons, List.length_singleton]; decide),
    sizes]
  decide +kernel

/-- The second block is not behind the first one. -/
theorem appends_untruthful : ¬ Truthful (appendRun blobDesign [(1, [List.replicate (2 ^ 32 - 266304) 7]), (2, [[9]])]
    (EpochFile.construct true EpochDisk.created).1 (EpochFile.construct true EpochDisk.created).2.image 0) := by
  intro truthful
  rw [appendRun_wraps List.length_replicate] at truthful
  have apart := List.rel_of_pairwise_cons truthful.apart (List.mem_singleton.2 rfl)
  dsimp only at apart
  omega

end Apart

end MagelessChain
