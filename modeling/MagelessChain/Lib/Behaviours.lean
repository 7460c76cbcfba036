import MagelessChain.Lib.Machine
import Mathlib.Tactic.Choose

/-!
# Behaviours and what they are matched by

A behaviour of a step function is an endless run: at each moment nothing happens, or one move. A
second step function matches the first along a relation of their states where it answers every move
with at most one of its own. Then each behaviour of the first has one of the second beside it, which
is related to it at every moment.
-/

namespace Lib

section Behaviours

variable {σ μ τ ν : Type} {step : σ → μ → Option σ} {step' : τ → ν → Option τ}

/-- Nothing happens, or one move. -/
def MayMove (step : σ → μ → Option σ) (s s' : σ) : Prop := s' = s ∨ ∃ m, step s m = some s'

/-- An endless run. -/
def Behaviour (step : σ → μ → Option σ) (f : Nat → σ) : Prop := ∀ k, MayMove step (f k) (f (k + 1))

/-- The second step function answers every move of the first with one of its own, or with none. -/
def Matches (step : σ → μ → Option σ) (step' : τ → ν → Option τ) (R : σ → τ → Prop) : Prop :=
  ∀ s m s' a, R s a → step s m = some s' → ∃ a', MayMove step' a a' ∧ R s' a'

theorem Matches.mayMove {R : σ → τ → Prop} (matched : Matches step step' R) {s s' : σ} {a : τ} (related : R s a)
    (may : MayMove step s s') : ∃ a', MayMove step' a a' ∧ R s' a' := by
  obtain rfl | ⟨m, moved⟩ := may
  · exact ⟨a, .inl rfl, related⟩
  · exact matched _ m _ a related moved

/-- **The simulation rule**: beside every behaviour there is a matching one. -/
theorem Matches.behaviour {R : σ → τ → Prop} (matched : Matches step step' R) {f : Nat → σ} (behaves : Behaviour step f)
    {a : τ} (start : R (f 0) a) : ∃ g : Nat → τ, g 0 = a ∧ Behaviour step' g ∧ ∀ k, R (f k) (g k) := by
  have next : ∀ k (x : { a // R (f k) a }), ∃ y : { a // R (f (k + 1)) a }, MayMove step' x.1 y.1 := by
    intro k x
    obtain ⟨a', may, related⟩ := matched.mayMove x.2 (behaves k)
    exact ⟨⟨a', related⟩, may⟩
  choose follow may using next
  let beside : (k : Nat) → { a // R (f k) a } := fun k => Nat.rec ⟨a, start⟩ (fun k x => follow k x) k
  refine ⟨fun k => (beside k).1, rfl, fun k => ?_, fun k => (beside k).2⟩
  exact may k (beside k)

/-- The states a list of moves goes through, and the last one for ever. -/
def timeline (step : σ → μ → Option σ) (ms : List μ) (start : σ) (k : Nat) : σ := (moves step (ms.take k) start).getD start

theorem behaviour_timeline {ms : List μ} {start s : σ} (ran : moves step ms start = some s) :
    Behaviour step (timeline step ms start) := by
  intro k
  by_cases inside : k < ms.length
  · right
    refine ⟨ms[k], ?_⟩
    have split := List.take_append_drop (k + 1) ms
    have whole : ∃ t, moves step (ms.take (k + 1)) start = some t := by
      rw [← split, moves_append] at ran
      obtain ⟨t, reached, -⟩ := Option.bind_eq_some_iff.1 ran
      exact ⟨t, reached⟩
    obtain ⟨t, reached⟩ := whole
    have here := reached
    rw [List.take_add_one, List.getElem?_eq_getElem inside, Option.toList_some, moves_append] at here
    obtain ⟨u, before, last⟩ := Option.bind_eq_some_iff.1 here
    obtain ⟨v, moved, same⟩ := Option.bind_eq_some_iff.1 last
    cases same
    rw [timeline, timeline, before, reached]
    exact moved
  · left
    rw [timeline, timeline, List.take_of_length_le (Nat.le_of_not_lt inside),
      List.take_of_length_le (Nat.le_succ_of_le (Nat.le_of_not_lt inside))]

end Behaviours

end Lib
