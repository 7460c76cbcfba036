import Mathlib.Data.List.Induction

/-!
# Records derived from a log

Each entry of a log adds records, which may depend on the records of the entries before it. So
the records are a function of the log, and `rebuild` computes them from it. Where each entry's
records tell a step of an abstract state, all of them together tell the state the log leads to.
-/

namespace Lib

variable {α β δ : Type}

/-- Go on deriving over the entries from number `n` on, with the records there are. -/
def rebuildFrom (derive : List β → Nat → α → List β) : Nat → List β → List α → List β
  | _, records, [] => records
  | n, records, entry :: rest => rebuildFrom derive (n + 1) (records ++ derive records n entry) rest

/-- The records a log leads to: each entry is handed those of its predecessors, and its number. -/
def rebuild (derive : List β → Nat → α → List β) (log : List α) : List β := rebuildFrom derive 0 [] log

variable {derive : List β → Nat → α → List β}

theorem rebuildFrom_append (log more : List α) (n : Nat) (records : List β) :
    rebuildFrom derive n records (log ++ more) =
      rebuildFrom derive (n + log.length) (rebuildFrom derive n records log) more := by
  induction log generalizing n records with
  | nil => rfl
  | cons entry rest ih =>
    simp only [List.cons_append, rebuildFrom, List.length_cons]
    rw [ih, Nat.add_right_comm, Nat.add_assoc]

/-- One entry more adds what it derives from the records before it. -/
theorem rebuild_snoc (log : List α) (entry : α) :
    rebuild derive (log ++ [entry]) = rebuild derive log ++ derive (rebuild derive log) log.length entry := by
  unfold rebuild
  rw [rebuildFrom_append, Nat.zero_add]
  rfl

/-- **Refinement**: where what an entry derives tells one step of an abstract state, as long as the
records before it are as `Inv` says, the records of a log tell the state its entries lead to. -/
theorem rebuild_denotes (Inv : Nat → List β → Prop) (denote : List β → δ) (exec : δ → α → δ) (log : List α)
    (init : Inv 0 [])
    (step : ∀ records n entry, n < log.length → entry ∈ log → Inv n records →
      Inv (n + 1) (records ++ derive records n entry) ∧
        denote (records ++ derive records n entry) = exec (denote records) entry) :
    Inv log.length (rebuild derive log) ∧ denote (rebuild derive log) = log.foldl exec (denote []) := by
  induction log using List.reverseRecOn with
  | nil => exact ⟨init, rfl⟩
  | append_singleton log entry ih =>
    have length : (log ++ [entry]).length = log.length + 1 := by simp
    rw [length] at step ⊢
    obtain ⟨inv, told⟩ := ih fun records n old lt here => step records n old (by omega) (List.mem_append_left _ here)
    obtain ⟨kept, moved⟩ := step (rebuild derive log) log.length entry (by omega) (by simp) inv
    rw [rebuild_snoc]
    refine ⟨kept, ?_⟩
    calc denote (rebuild derive log ++ derive (rebuild derive log) log.length entry)
        = exec (denote (rebuild derive log)) entry := moved
      _ = exec (log.foldl exec (denote [])) entry := by rw [told]
      _ = (log ++ [entry]).foldl exec (denote []) := by rw [List.foldl_append]; rfl

end Lib
