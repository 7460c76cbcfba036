import MagelessChain.Backend.RoundTrip

/-!
# Transactions by id

The id of a committed transaction is its block number, shifted by 20 bits, and its position in
the block. `getTransactionById` unpacks it and reads the block. Positions that no block has give
null, but a block that is not committed makes `getBlock` throw.
-/

namespace MagelessChain

open Lib

variable {τ Tx Ov : Type}

/-- The block an id names. -/
def idBlock (id : UInt64) : UInt64 := id >>> 20

/-- The position an id names, taken into a `uint32_t`. -/
def idPosition (id : UInt64) : UInt32 := (id &&& 0xFFFFF).toUInt32

/-- `BlockchainFrontend::getTransactionById`; a null pointer is `none`. -/
def Backend.getTransactionById (d : ChainDesign Tx Ov) (b : Backend τ) (id : UInt64) (outcome : OpenOutcome) :
    Except Exn (Option Tx) × Backend τ :=
  match b.getBlock d (idBlock id) outcome with
  | (.error e, b) => (.error e, b)
  | (.ok transactions, b) =>
    (.ok (if (idPosition id).toNat < transactions.length then transactions[(idPosition id).toNat]? else none), b)

/-- The id of a position in a block. -/
def transactionId (n : UInt64) (position : Nat) : UInt64 := (n <<< 20) ||| UInt64.ofNat position

theorem idBlock_toNat (id : UInt64) : (idBlock id).toNat = id.toNat / 2 ^ 20 := by
  rw [idBlock, UInt64.toNat_shiftRight, show (20 : UInt64).toNat % 64 = 20 from by decide, Nat.shiftRight_eq_div_pow]

theorem idPosition_toNat (id : UInt64) : (idPosition id).toNat = id.toNat % 2 ^ 20 := by
  rw [idPosition, UInt64.toNat_toUInt32, UInt64.toNat_and, show (0xFFFFF : UInt64).toNat = 2 ^ 20 - 1 from by decide,
    Nat.and_two_pow_sub_one_eq_mod]
  omega

/-- While the block number has 44 bits and the position 20, they stand side by side. -/
theorem transactionId_toNat {n : UInt64} {position : Nat} (block : n.toNat < 2 ^ 44) (inside : position < 2 ^ 20) :
    (transactionId n position).toNat = n.toNat * 2 ^ 20 + position := by
  have shifted : (n <<< 20).toNat = n.toNat * 2 ^ 20 := by
    rw [UInt64.toNat_shiftLeft, show (20 : UInt64).toNat % 64 = 20 from by decide, Nat.shiftLeft_eq]
    exact Nat.mod_eq_of_lt (by omega)
  have low : (UInt64.ofNat position).toNat = position := UInt64.toNat_ofNat_of_lt' (by simp only [UInt64.size]; omega)
  rw [transactionId, UInt64.toNat_or, shifted, low, Nat.mul_comm, Nat.two_pow_add_eq_or_of_lt inside]

/-- The transaction an id stands for in a chain. -/
def History.transactionAt (history : History Tx) (id : UInt64) : Option Tx :=
  (history.blocks[(idBlock id).toNat]?).bind fun txs => txs[(idPosition id).toNat]?

/-- The id gives the transaction it stands for, and null where it stands for none. -/
def Resolves (d : ChainDesign Tx Ov) (b : Backend τ) (history : History Tx) (id : UInt64) : Prop :=
  (b.getTransactionById d id .opens).1 = .ok (history.transactionAt id)

/-- A committed block has fewer transactions than its `uint16_t` count could hold. -/
theorem Journal.small {d : ChainDesign Tx Ov} {b : Backend τ} {blocks : List (List Tx)} (h : Journal d b blocks)
    {n : UInt64} (inside : n.toNat < blocks.length) : blocks[n.toNat].length < 65536 := by
  have found := getElem?_epochBlocks h.bound inside
  rw [List.getElem?_eq_getElem inside] at found
  have mem := List.mem_of_getElem? found
  have held := h.files.holds (epochOf n)
  cases onDisk : b.epochs (epochOf n) with
  | none =>
    rw [onDisk] at held
    simp only [DiskHolds] at held
    rw [held] at mem
    cases mem
  | some disk =>
    rw [onDisk] at held
    exact held.1.small _ mem

/-- A block that is read gives its transaction at the position, or null. -/
theorem getTransactionById_of_getBlock {d : ChainDesign Tx Ov} {b : Backend τ} {id : UInt64} {txs : List Tx}
    (read : (b.getBlock d (idBlock id) .opens).1 = .ok txs) :
    (b.getTransactionById d id .opens).1 = .ok txs[(idPosition id).toNat]? := by
  rw [Backend.getTransactionById, show b.getBlock d (idBlock id) .opens =
    (.ok txs, (b.getBlock d (idBlock id) .opens).2) from Prod.ext read rfl]
  dsimp only
  split
  · rfl
  · rename_i past
    rw [List.getElem?_eq_none (Nat.not_lt.1 past)]

/-- Where `getBlock` throws, so does the query. -/
theorem getTransactionById_of_error {d : ChainDesign Tx Ov} {b : Backend τ} {id : UInt64} {e : Exn}
    (read : (b.getBlock d (idBlock id) .opens).1 = .error e) : (b.getTransactionById d id .opens).1 = .error e := by
  rw [Backend.getTransactionById, show b.getBlock d (idBlock id) .opens =
    (.error e, (b.getBlock d (idBlock id) .opens).2) from Prod.ext read rfl]

/-- A numbered history has each of its blocks at its number. -/
theorem History.Numbered.block {history : History Tx} (h : history.Numbered) {n : UInt64} {txs : List Tx}
    (mem : (n, txs) ∈ history) : ∃ inside : n.toNat < history.blocks.length, history.blocks[n.toNat] = txs := by
  obtain ⟨i, hi, entry⟩ := List.getElem_of_mem mem
  have number : n.toNat = i := by rw [← h i hi, entry]
  refine ⟨by rw [History.blocks, List.length_map]; omega, ?_⟩
  simp [History.blocks, number, entry]

/-- Where the id of a committed position leads. -/
theorem Journal.committed_id {d : ChainDesign Tx Ov} {b : Backend τ} {history : History Tx}
    (journal : Journal d b history.blocks) (numbered : history.Numbered) {n : UInt64} {txs : List Tx} {position : Nat}
    (mem : (n, txs) ∈ history) (inside : position < txs.length) (block : n.toNat < 2 ^ 44) :
    idBlock (transactionId n position) = n ∧ (idPosition (transactionId n position)).toNat = position := by
  obtain ⟨committed, there⟩ := numbered.block mem
  have small := journal.small committed
  rw [there] at small
  have id := transactionId_toNat block (by omega : position < 2 ^ 20)
  refine ⟨?_, ?_⟩
  · rw [← UInt64.toNat_inj, idBlock_toNat, id]
    omega
  · rw [idPosition_toNat, id]
    omega

variable [OrderedStore τ TimestampEntry TimestampEntry.compare]

/-- **Transaction ids**: in a chain of at most 2^48 blocks an id resolves exactly when its block is
committed; committed positions of the first 2^44 blocks have different ids, and each resolves to
itself. -/
theorem transaction_ids_resolve (d : ChainDesign Tx Ov) (b : Backend τ) (history : History Tx) (run : Run d b history)
    (reach : history.length ≤ maxBlocks) (reads : ∀ entry ∈ history, ∀ tx ∈ entry.2, d.ReadsBack tx) :
    (∀ id, Resolves d b history id ↔ idBlock id < b.metadata.currentBlockHeight) ∧
    (∀ n txs position, (n, txs) ∈ history → n.toNat < 2 ^ 44 → (inside : position < txs.length) →
      (b.getTransactionById d (transactionId n position) .opens).1 = .ok (some txs[position])) ∧
    ∀ n txs position m txs' position', (n, txs) ∈ history → n.toNat < 2 ^ 44 → position < txs.length →
      (m, txs') ∈ history → m.toNat < 2 ^ 44 → position' < txs'.length →
      transactionId n position = transactionId m position' → n = m ∧ position = position' := by
  obtain ⟨journal, numbered⟩ := run.journal reach
  obtain ⟨read, below, above⟩ := journal.readsHistory numbered reads
  refine ⟨fun id => ⟨fun resolves => ?_, fun committed => ?_⟩, fun n txs position mem block inside => ?_, ?_⟩
  · by_contra past
    have throws := getTransactionById_of_error (above (idBlock id) .opens (UInt64.not_lt.1 past))
    rw [Resolves, throws] at resolves
    cases resolves
  · obtain ⟨txs, mem⟩ := below (idBlock id) committed
    obtain ⟨inside, block⟩ := numbered.block mem
    rw [Resolves, getTransactionById_of_getBlock (read _ _ mem).2, History.transactionAt,
      List.getElem?_eq_getElem inside, block]
    rfl
  · obtain ⟨same, at_position⟩ := journal.committed_id numbered mem inside block
    have block_read := (read n txs mem).2
    rw [← same] at block_read
    rw [getTransactionById_of_getBlock block_read, at_position, List.getElem?_eq_getElem inside]
  · intro n txs position m txs' position' mem block inside mem' block' inside' same
    obtain ⟨first, at_position⟩ := journal.committed_id numbered mem inside block
    obtain ⟨second, at_position'⟩ := journal.committed_id numbered mem' inside' block'
    rw [same] at first at_position
    exact ⟨first.symm.trans second, at_position.symm.trans at_position'⟩

/-- A chain of one block, which carries the byte 7. -/
def sevenBackend : Backend (SortedRecords TimestampEntry TimestampEntry.compare) :=
  (Backend.fresh.addBlock byteDesign briskConfig (fun _ => Env.calm fun _ => 0) [7] 100).2

theorem sevenBackend_run : Run byteDesign sevenBackend ([] ++ [(0, [7])]) :=
  .committed .start ⟨by decide +kernel, by decide +kernel⟩ (by decide +kernel)

/-- The id of its transaction resolves, and so do the positions behind it. -/
theorem transaction_ids_resolve_seven : (sevenBackend.getTransactionById byteDesign (transactionId 0 0) .opens).1 = .ok (some 7) ∧
    Resolves byteDesign sevenBackend [(0, [7])] 1000 := by
  obtain ⟨exact, committed, -⟩ := transaction_ids_resolve byteDesign sevenBackend _ sevenBackend_run (by decide)
    fun _ _ tx _ => byteDesign_readsBack tx
  exact ⟨committed 0 [7] 0 List.mem_cons_self (by decide) (by decide), (exact 1000).2 (by decide +kernel)⟩

/-- An id of the block after it makes the query throw, where null is promised. -/
theorem uncommitted_id_throws : Run byteDesign sevenBackend [(0, [7])] ∧
    (sevenBackend.getTransactionById byteDesign (transactionId 1 0) .opens).1 =
      .error (.rangeError "Block number out of range") ∧
    ¬ Resolves byteDesign sevenBackend [(0, [7])] (transactionId 1 0) := by
  have throws : (sevenBackend.getTransactionById byteDesign (transactionId 1 0) .opens).1 =
      .error (.rangeError "Block number out of range") := by rfl
  refine ⟨sevenBackend_run, throws, fun resolves => ?_⟩
  rw [Resolves, throws] at resolves
  cases resolves

end MagelessChain
