import Mathlib.Order.Lattice
import Mathlib.Data.List.Basic

/-!
# Searching for the best

A program goes through the positions of a list once and keeps the best value so far with its
position, starting from a floor; a later value takes over only if it is strictly above. Some
positions have no value and are passed over. What it ends with is the earliest position of a
greatest value, if one is above the floor.
-/

namespace Lib

variable {α : Type} [LinearOrder α]

/-- One position. -/
def scanTurn (score : Nat → Option α) (best : α × Option Nat) (i : Nat) : α × Option Nat :=
  match score i with
  | none => best
  | some a => if a > best.1 then (a, some i) else best

/-- The first `n` positions. -/
def bestScan (score : Nat → Option α) (floor : α) (n : Nat) : α × Option Nat :=
  (List.range n).foldl (scanTurn score) (floor, none)

/-- What the search has found after `n` positions. -/
structure Leads (score : Nat → Option α) (floor : α) (n : Nat) (best : α × Option Nat) : Prop where
  below : ∀ j a, j < n → score j = some a → a ≤ best.1
  none : best.2 = none → best.1 = floor
  some : ∀ i, best.2 = some i → i < n ∧ score i = some best.1 ∧ floor < best.1 ∧
    ∀ j a, j < i → score j = some a → a < best.1

/-- No value found is below the floor. -/
theorem Leads.floor_le {score : Nat → Option α} {floor : α} {n : Nat} {best : α × Option Nat} (h : Leads score floor n best) :
    floor ≤ best.1 := by
  cases eq : best.2 with
  | none => exact le_of_eq (h.none eq).symm
  | some i => exact le_of_lt (h.some i eq).2.2.1

theorem Leads.turn {score : Nat → Option α} {floor : α} {n : Nat} {best : α × Option Nat} (h : Leads score floor n best) :
    Leads score floor (n + 1) (scanTurn score best n) := by
  have earlier : ∀ {j}, j < n + 1 → j < n ∨ j = n := fun lt => Nat.lt_succ_iff_lt_or_eq.1 lt
  unfold scanTurn
  cases value : score n with
  | none =>
    refine ⟨fun j a lt scored => ?_, h.none, fun i eq => ?_⟩
    · obtain lt | rfl := earlier lt
      · exact h.below j a lt scored
      · rw [value] at scored
        cases scored
    · obtain ⟨inside, rest⟩ := h.some i eq
      exact ⟨Nat.lt_succ_of_lt inside, rest⟩
  | some v =>
    dsimp only
    split
    · rename_i above
      refine ⟨fun j a lt scored => ?_, nofun, fun i eq => ?_⟩
      · obtain lt | rfl := earlier lt
        · exact le_trans (h.below j a lt scored) (le_of_lt above)
        · rw [value] at scored
          cases scored
          exact le_refl _
      · cases eq
        exact ⟨Nat.lt_succ_self _, value, lt_of_le_of_lt h.floor_le above,
          fun j a lt scored => lt_of_le_of_lt (h.below j a lt scored) above⟩
    · rename_i under
      refine ⟨fun j a lt scored => ?_, h.none, fun i eq => ?_⟩
      · obtain lt | rfl := earlier lt
        · exact h.below j a lt scored
        · rw [value] at scored
          cases scored
          exact not_lt.1 under
      · obtain ⟨inside, rest⟩ := h.some i eq
        exact ⟨Nat.lt_succ_of_lt inside, rest⟩

/-- **The search** leads over all positions. -/
theorem bestScan_leads (score : Nat → Option α) (floor : α) (n : Nat) : Leads score floor n (bestScan score floor n) := by
  induction n with
  | zero => exact ⟨fun j a lt => absurd lt (Nat.not_lt_zero _), fun _ => rfl, nofun⟩
  | succ n ih =>
    rw [bestScan, List.range_succ, List.foldl_append]
    exact ih.turn

end Lib
