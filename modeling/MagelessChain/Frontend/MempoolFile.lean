import MagelessChain.Frontend.BlockchainFrontend

/-!
# `mempool.bin`

`saveMempool` truncates the file, writes the count, grows the file to its full size and writes the
transactions through a mapping of it. A process that dies in between leaves what has been done so
far; the calls that sync the file change nothing the next process sees. `loadMempool` reads back
what a complete save wrote.
-/

namespace MagelessChain

open Lib

variable {Tx Ov : Type}

/-- The loop of `saveMempool` over the mempool; a `write` that throws ends the process. -/
def writeTransactions (d : ChainDesign Tx Ov) : List Tx → Nat → Image → Image
  | [], _, img => img
  | tx :: rest, cursor, img =>
    let img := img.write cursor (d.write tx).1
    match (d.write tx).2 with
    | none => writeTransactions d rest (cursor + (d.write tx).1.length) img
    | some _ => img

/-- The file once its count is written. -/
def countImage (mempool : List Tx) : Image := Image.zero.writeWord 0 4 mempool.length

/-- `mempool.bin` after the first effects of `saveMempool`, with `Transaction::size`. -/
def saveMempool (d : ChainDesign Tx Ov) (size : Tx → Nat) (mempool : List Tx) (file : Option (Image × Nat)) :
    Nat → Option (Image × Nat)
  | 0 => file
  | 1 => some (Image.zero, 0)
  | 2 => some (countImage mempool, 4)
  | effects + 3 =>
    let totalSize := (mempool.map size).sum
    if totalSize > 0 then some (writeTransactions d (mempool.take effects) 4 (countImage mempool), 4 + totalSize)
    else some (countImage mempool, 4)

/-- The file holds these transactions: they stand behind their count, and a file of no more than a
count has none. -/
def MempoolHolds (d : ChainDesign Tx Ov) (file : Option (Image × Nat)) (txs : List Tx) : Prop :=
  match file with
  | none => txs = []
  | some (img, fileSize) =>
    if fileSize ≤ 4 then txs = []
    else img.readWord 0 4 = txs.length ∧ img.Holds 4 (d.blockBytes txs) ∧ 4 + (d.blockBytes txs).length ≤ fileSize

/-- What a transaction relies on to come back: it is read back, its `write` returns, and its `size`
is the number of bytes written. -/
structure Persists (d : ChainDesign Tx Ov) (size : Tx → Nat) (tx : Tx) : Prop where
  reads : d.ReadsBack tx
  writes : (d.write tx).2 = none
  size : size tx = (d.write tx).1.length

/-- What a mempool relies on to come back: every transaction is read back, its `write` returns, and
its `size` is the number of bytes written. -/
structure Persistable (d : ChainDesign Tx Ov) (size : Tx → Nat) : Prop where
  reads : ∀ tx, d.ReadsBack tx
  writes : ∀ tx, (d.write tx).2 = none
  size : ∀ tx, size tx = (d.write tx).1.length

theorem Persistable.persists {d : ChainDesign Tx Ov} {size : Tx → Nat} (app : Persistable d size) (tx : Tx) :
    Persists d size tx :=
  ⟨app.reads tx, app.writes tx, app.size tx⟩

section Save

variable {d : ChainDesign Tx Ov} {size : Tx → Nat}

/-- Writing behind a cursor leaves what is before it. -/
theorem writeTransactions_before (txs : List Tx) (cursor : Nat) (img : Image) {a : Nat} (before : a < cursor) :
    writeTransactions d txs cursor img a = img a := by
  induction txs generalizing cursor img with
  | nil => rfl
  | cons tx rest ih =>
    have first : img.write cursor (d.write tx).1 a = img a := Image.write_outside (.inl before)
    rw [writeTransactions]
    cases (d.write tx).2 with
    | none => exact (ih _ _ (Nat.lt_add_right _ before)).trans first
    | some e => exact first

/-- The transactions stand one behind the other. -/
theorem holds_writeTransactions (txs : List Tx) (writes : ∀ tx ∈ txs, (d.write tx).2 = none) (cursor : Nat) (img : Image) :
    (writeTransactions d txs cursor img).Holds cursor (d.blockBytes txs) := by
  induction txs generalizing cursor img with
  | nil => exact Image.holds_nil _ _
  | cons tx rest ih =>
    rw [writeTransactions, writes tx List.mem_cons_self, ChainDesign.blockBytes_cons, Image.holds_append]
    refine ⟨Image.holds_iff.2 fun k inside => ?_, ih (fun tx mem => writes tx (List.mem_cons_of_mem _ mem)) _ _⟩
    dsimp only
    rw [writeTransactions_before _ _ _ (by omega)]
    exact Image.write_inside inside

theorem totalSize_eq {mempool : List Tx} (persists : ∀ tx ∈ mempool, Persists d size tx) :
    (mempool.map size).sum = (d.blockBytes mempool).length := by
  induction mempool with
  | nil => rfl
  | cons tx rest ih =>
    rw [List.map_cons, List.sum_cons, ih fun tx mem => persists tx (List.mem_cons_of_mem _ mem),
      (persists tx List.mem_cons_self).size, ChainDesign.blockBytes_cons, List.length_append]

/-- A transaction takes a byte at least, that of its type. -/
theorem Persists.size_pos {tx : Tx} (h : Persists d size tx) : 0 < size tx := by
  obtain ⟨typeId, body, f, bytes, -⟩ := h.reads.wrote
  rw [h.size, bytes]
  exact Nat.succ_pos _

/-- An empty mempool is in the file as soon as that is truncated. -/
theorem saveMempool_empty (d : ChainDesign Tx Ov) (size : Tx → Nat) (file : Option (Image × Nat)) (effects : Nat) :
    MempoolHolds d (saveMempool d size [] file (effects + 1)) [] := by
  match effects with
  | 0 => rfl
  | 1 => rfl
  | effects + 2 => rfl

/-- The file a complete save of a mempool leaves: its count in 32 bits, and the transactions. -/
theorem saveMempool_written {mempool : List Tx} (persists : ∀ tx ∈ mempool, Persists d size tx) (nonempty : mempool ≠ [])
    (file : Option (Image × Nat)) {effects : Nat} (complete : mempool.length + 3 ≤ effects) :
    ∃ img, saveMempool d size mempool file effects = some (img, 4 + (d.blockBytes mempool).length) ∧
      img.readWord 0 4 = mempool.length % 2 ^ 32 ∧ img.Holds 4 (d.blockBytes mempool) ∧
      0 < (d.blockBytes mempool).length := by
  obtain ⟨written, rfl⟩ := Nat.exists_eq_add_of_le complete
  have all : mempool.take (mempool.length + written) = mempool := List.take_of_length_le (by omega)
  have some : 0 < (mempool.map size).sum := by
    obtain ⟨tx, rest, rfl⟩ := List.exists_cons_of_ne_nil nonempty
    have first := (persists tx List.mem_cons_self).size_pos
    rw [List.map_cons, List.sum_cons]
    omega
  rw [show mempool.length + 3 + written = mempool.length + written + 3 by omega, saveMempool, if_pos some, all,
    totalSize_eq persists]
  refine ⟨_, rfl, ?_, holds_writeTransactions _ (fun tx mem => (persists tx mem).writes) _ _, totalSize_eq persists ▸ some⟩
  have same : (writeTransactions d mempool 4 (countImage mempool)).read 0 4 = (countImage mempool).read 0 4 := by
    refine List.map_congr_left fun k mem => writeTransactions_before _ _ _ ?_
    have := List.mem_range.1 mem
    omega
  rw [Image.readWord, same]
  exact Image.readWord_writeWord Image.zero 0 4 mempool.length

/-- **A complete save**: the file holds the mempool. -/
theorem saveMempool_complete {mempool : List Tx} (persists : ∀ tx ∈ mempool, Persists d size tx)
    (few : mempool.length < 2 ^ 32) (file : Option (Image × Nat)) {effects : Nat} (complete : mempool.length + 3 ≤ effects) :
    MempoolHolds d (saveMempool d size mempool file effects) mempool := by
  by_cases empty : mempool = []
  · subst empty
    obtain ⟨written, rfl⟩ := Nat.exists_eq_add_of_le complete
    rw [show ([] : List Tx).length + 3 + written = written + 2 + 1 by rw [List.length_nil]; omega]
    exact saveMempool_empty d size file _
  · obtain ⟨img, written, count, held, some⟩ := saveMempool_written persists empty file complete
    rw [written]
    simp only [MempoolHolds]
    rw [if_neg (by omega)]
    exact ⟨by rw [count, Nat.mod_eq_of_lt few], held, Nat.le_refl _⟩

end Save

section Load

variable {d : ChainDesign Tx Ov} {visible : Nat → Visible}

/-- The loop of `loadMempool` over transactions that stand at the cursor. -/
theorem loadLoop_held {img : Image} {fileSize : Nat} (txs : List Tx) (reads : ∀ tx ∈ txs, d.ReadsBack tx) :
    ∀ (i cursor : Nat) (mempool : List Tx) (ov : Ov), img.Holds cursor (d.blockBytes txs) →
      cursor + (d.blockBytes txs).length ≤ fileSize →
      loadLoop d visible img fileSize txs.length i cursor mempool ov =
        (reapply d visible i txs ov).map fun ov => (mempool ++ txs, ov) := by
  induction txs with
  | nil =>
    intro i cursor mempool ov _ _
    simp [loadLoop, reapply, Except.map]
  | cons tx rest ih =>
    intro i cursor mempool ov held bound
    rw [ChainDesign.blockBytes_cons, Image.holds_append] at held
    rw [ChainDesign.blockBytes_cons, List.length_append] at bound
    have later : ∀ tx ∈ rest, d.ReadsBack tx := fun tx mem => reads tx (List.mem_cons_of_mem _ mem)
    rw [List.length_cons, loadLoop, (reads tx List.mem_cons_self).read held.1 (by omega), reapply]
    cases applied : d.apply (visible i) tx ov with
    | mk ov' result =>
      cases result with
      | error e => simp only [applied, Except.map]
      | ok result =>
        simp only [applied, ih later (i + 1) _ (mempool ++ [tx]) ov' held.2 (by omega), List.append_assoc, List.singleton_append]

/-- **Loading** gives the transactions the file holds, applied in order. -/
theorem loadMempool_held {file : Option (Image × Nat)} {txs : List Tx} (reads : ∀ tx ∈ txs, d.ReadsBack tx)
    (holds : MempoolHolds d file txs) :
    loadMempool d visible file = (reapply d visible 0 txs d.freshOverride).map fun ov => (txs, ov) := by
  unfold MempoolHolds at holds
  unfold loadMempool
  split at holds
  · subst holds
    rfl
  · rename_i img fileSize
    split at holds
    · rename_i short
      subst holds
      simp only [short, or_true, if_true, ite_self]
      rfl
    · rename_i long
      obtain ⟨count, held, bound⟩ := holds
      simp only [if_neg (show ¬ fileSize < 4 by omega), count, long, or_false]
      split
      · rename_i none
        obtain rfl := List.length_eq_zero_iff.1 none
        rfl
      · exact loadLoop_held txs reads 0 4 [] _ held bound

end Load

end MagelessChain
