import Mathlib.Data.Nat.Basic

/-!
# Comparing floats

What a search for the greatest of some `float` values needs to know about IEEE comparisons. A NaN
is neither above nor below anything, and apart from NaNs the comparisons are those of a linear
order in which the two zeros are one.
-/

namespace Lib

open Float.Model

/-- The value is not a NaN. -/
def IsNumber (a : Float32) : Prop := a.toModel.unpack ≠ .notANumber

theorem float_le_iff (a b : Float32) : a ≤ b ↔ (a.toModel.unpack.compare b.toModel.unpack).any (·.isLE) = true := by
  show decide (a.toModel ≤ b.toModel) = true ↔ _
  rw [decide_eq_true_iff]
  exact Iff.rfl

theorem float_lt_iff (a b : Float32) : a < b ↔ a.toModel.unpack.compare b.toModel.unpack = some .lt := by
  show decide (a.toModel < b.toModel) = true ↔ _
  rw [decide_eq_true_iff]
  show (_ == _) = true ↔ _
  exact beq_iff_eq

/-- A value from zero on is a zero, a positive number or the positive infinity. -/
theorem float_nonneg_iff (a : Float32) : 0 ≤ a ↔ (∃ s, a.toModel.unpack = .zero s) ∨
    a.toModel.unpack = .infinity .positive ∨ ∃ m e pos, a.toModel.unpack = .finite .positive m e pos := by
  rw [float_le_iff, show (0 : Float32).toModel.unpack = .zero .positive from rfl]
  cases a.toModel.unpack with
  | notANumber =>
    refine iff_of_false (by intro le; cases le) ?_
    rintro (⟨s, eq⟩ | eq | ⟨m, e, pos, eq⟩) <;> cases eq
  | zero s => exact iff_of_true rfl (.inl ⟨s, rfl⟩)
  | infinity s =>
    cases s with
    | positive => exact iff_of_true rfl (.inr (.inl rfl))
    | negative =>
      refine iff_of_false (by intro le; cases le) ?_
      rintro (⟨s, eq⟩ | eq | ⟨m, e, pos, eq⟩) <;> cases eq
  | finite s m e pos =>
    cases s with
    | positive => exact iff_of_true rfl (.inr (.inr ⟨m, e, pos, rfl⟩))
    | negative =>
      refine iff_of_false (by intro le; cases le) ?_
      rintro (⟨s, eq⟩ | eq | ⟨m, e, pos, eq⟩) <;> cases eq

/-- What is above something is a number. -/
theorem isNumber_of_lt {a b : Float32} (above : b < a) : IsNumber a := by
  intro nan
  rw [float_lt_iff, nan] at above
  generalize b.toModel.unpack = y at above
  cases y <;> cases above

/-- A number that is not below a value from zero on is from zero on itself. -/
theorem nonneg_of_not_lt {a b : Float32} (number : IsNumber b) (nonneg : 0 ≤ a) (above : ¬ b < a) : 0 ≤ b := by
  rw [float_nonneg_iff] at nonneg ⊢
  rw [float_lt_iff] at above
  unfold IsNumber at number
  generalize a.toModel.unpack = x at nonneg above
  generalize b.toModel.unpack = y at number above ⊢
  cases y with
  | notANumber => exact absurd rfl number
  | zero s => exact .inl ⟨s, rfl⟩
  | infinity s =>
    cases s with
    | positive => exact .inr (.inl rfl)
    | negative =>
      exfalso
      apply above
      obtain ⟨s, rfl⟩ | rfl | ⟨m, e, pos, rfl⟩ := nonneg <;> rfl
  | finite s m e pos =>
    cases s with
    | positive => exact .inr (.inr ⟨m, e, pos, rfl⟩)
    | negative =>
      exfalso
      apply above
      obtain ⟨s, rfl⟩ | rfl | ⟨m', e', pos', rfl⟩ := nonneg <;> rfl

/-- What is above a value from zero on is from zero on itself. -/
theorem nonneg_of_lt {a b : Float32} (nonneg : 0 ≤ a) (above : a < b) : 0 ≤ b := by
  rw [float_nonneg_iff] at nonneg ⊢
  rw [float_lt_iff] at above
  generalize b.toModel.unpack = y at above ⊢
  generalize a.toModel.unpack = x at nonneg above
  cases y with
  | notANumber => cases x <;> cases above
  | zero s => exact .inl ⟨s, rfl⟩
  | infinity s =>
    cases s with
    | positive => exact .inr (.inl rfl)
    | negative => obtain ⟨s, rfl⟩ | rfl | ⟨m, e, pos, rfl⟩ := nonneg <;> cases above
  | finite s m e pos =>
    cases s with
    | positive => exact .inr (.inr ⟨m, e, pos, rfl⟩)
    | negative => obtain ⟨s, rfl⟩ | rfl | ⟨m', e', pos', rfl⟩ := nonneg <;> cases above

/-- A negative number is below every value from zero on. -/
theorem lt_of_negative {a b : Float32} {m : Nat} {e : Int} {pos : 0 < m}
    (negative : b.toModel.unpack = .finite .negative m e pos) (nonneg : 0 ≤ a) : b < a := by
  rw [float_nonneg_iff] at nonneg
  rw [float_lt_iff, negative]
  obtain ⟨s, eq⟩ | eq | ⟨m', e', pos', eq⟩ := nonneg <;> rw [eq] <;> rfl

end Lib
