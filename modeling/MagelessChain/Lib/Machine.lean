import Mathlib.Logic.Function.Iterate

/-!
# Step machines

A program is a function that advances a configuration by one effect at a time, under an input
that stands for whatever the surroundings do at that step: which calls fail, what a read sees.
A run over a stream of inputs is cut off anywhere by taking fewer steps; a ranked machine halts
within its rank. Where several parties act on one state, each move is a label and a move that is
not enabled has no successor; `Reach` are the states any order of moves leads to.
-/

namespace Lib

/-- A step function over configurations `σ`, with one input of type `ι` a step. -/
structure Machine (ι σ : Type) where
  step : ι → σ → σ
  halted : σ → Prop
  rank : σ → Nat
  rank_step : ∀ i s, ¬ halted s → rank (step i s) < rank s
  step_halted : ∀ i s, halted s → step i s = s

namespace Machine

variable {ι σ : Type} (m : Machine ι σ)

/-- The configuration after `k` steps over the inputs `env 0, env 1, ...`. -/
def after (env : Nat → ι) : Nat → σ → σ
  | 0, s => s
  | k + 1, s => m.step (env k) (after env k s)

/-- The run to the end: as many steps as the rank allows. -/
def run (env : Nat → ι) (s : σ) : σ := m.after env (m.rank s) s

theorem after_succ (env : Nat → ι) (k : Nat) (s : σ) :
    m.after env (k + 1) s = m.step (env k) (m.after env k s) := rfl

/-- More steps go on from where the first ones led. -/
theorem after_add (env : Nat → ι) (j k : Nat) (s : σ) :
    m.after env (j + k) s = m.after (fun i => env (j + i)) k (m.after env j s) := by
  induction k with
  | zero => rfl
  | succ k ih => rw [← Nat.add_assoc, after_succ, ih, after_succ]

/-- Some number of steps leads from one configuration to the other, whatever the inputs. -/
def LeadsTo (s t : σ) : Prop := ∀ env, ∃ k, m.after env k s = t

variable {m} in
theorem LeadsTo.refl (s : σ) : m.LeadsTo s s := fun _ => ⟨0, rfl⟩

variable {m} in
theorem LeadsTo.step {s t : σ} (step : ∀ i, m.step i s = t) : m.LeadsTo s t := fun env => ⟨1, step (env 0)⟩

variable {m} in
theorem LeadsTo.trans {s t u : σ} (first : m.LeadsTo s t) (second : m.LeadsTo t u) : m.LeadsTo s u := by
  intro env
  obtain ⟨j, rfl⟩ := first env
  obtain ⟨k, rfl⟩ := second fun i => env (j + i)
  exact ⟨j + k, m.after_add env j k s⟩

/-- Some steps lead from one configuration to the other, under some inputs. -/
def Reaches (s t : σ) : Prop := ∃ env k, m.after env k s = t

/-- The steps depend on the inputs they are taken under, and on no later one. -/
theorem after_congr {env env' : Nat → ι} {s : σ} :
    ∀ {k : Nat}, (∀ i, i < k → env i = env' i) → m.after env k s = m.after env' k s := by
  intro k
  induction k with
  | zero => exact fun _ => rfl
  | succ k ih =>
    intro same
    rw [after_succ, after_succ, same k (Nat.lt_succ_self k), ih fun i below => same i (Nat.lt_succ_of_lt below)]

variable {m} in
theorem Reaches.refl (i : ι) (s : σ) : m.Reaches s s := ⟨fun _ => i, 0, rfl⟩

variable {m} in
theorem Reaches.step {s t : σ} (reaches : m.Reaches s t) (i : ι) : m.Reaches s (m.step i t) := by
  obtain ⟨env, k, rfl⟩ := reaches
  refine ⟨fun j => if j = k then i else env j, k + 1, ?_⟩
  rw [after_succ, if_pos rfl]
  congr 1
  apply m.after_congr
  intro j below
  rw [if_neg (Nat.ne_of_lt below)]

/-- An invariant of every step holds after any number of them. -/
theorem after_induction {P : σ → Prop} {s : σ} (env : Nat → ι) (start : P s)
    (keep : ∀ k s, P s → P (m.step (env k) s)) : ∀ k, P (m.after env k s) := by
  intro k
  induction k with
  | zero => exact start
  | succ k ih => exact keep _ _ ih

/-- The invariant rule for a whole run. -/
theorem run_induction {P : σ → Prop} {s : σ} (env : Nat → ι) (start : P s)
    (keep : ∀ k s, P s → P (m.step (env k) s)) : P (m.run env s) :=
  m.after_induction env start keep _

theorem rank_after (env : Nat → ι) (s : σ) :
    ∀ k, m.halted (m.after env k s) ∨ m.rank (m.after env k s) + k ≤ m.rank s := by
  intro k
  induction k with
  | zero => exact .inr (Nat.le_refl _)
  | succ k ih =>
    rcases ih with done | le
    · left
      rw [after_succ, m.step_halted _ _ done]
      exact done
    · by_cases done : m.halted (m.after env k s)
      · left
        rw [after_succ, m.step_halted _ _ done]
        exact done
      · right
        have := m.rank_step (env k) _ done
        rw [after_succ]
        omega

/-- **Termination**: the run ends in a halted configuration. -/
theorem halted_run (env : Nat → ι) (s : σ) : m.halted (m.run env s) := by
  by_contra going
  rcases m.rank_after env s (m.rank s) with done | le
  · exact going done
  · have zero : m.rank (m.run env s) = 0 := by unfold run at *; omega
    have := m.rank_step (env 0) _ going
    omega

/-- A halted configuration stays as it is. -/
theorem after_halted {env : Nat → ι} {s : σ} {k : Nat} (done : m.halted (m.after env k s)) :
    ∀ j, m.after env (k + j) s = m.after env k s := by
  intro j
  induction j with
  | zero => rfl
  | succ j ih => rw [← Nat.add_assoc, after_succ, ih, m.step_halted _ _ done]

/-- A run ends in whichever configuration it halts in. -/
theorem run_eq {env : Nat → ι} {s : σ} {k : Nat} (done : m.halted (m.after env k s)) : m.run env s = m.after env k s := by
  rcases Nat.le_total k (m.rank s) with le | le
  · obtain ⟨j, eq⟩ := Nat.exists_eq_add_of_le le
    rw [run, eq]
    exact m.after_halted done j
  · obtain ⟨j, eq⟩ := Nat.exists_eq_add_of_le le
    rw [eq]
    exact (m.after_halted (m.halted_run env s) j).symm

variable {m} in
/-- Where some steps lead to the end, some run does. -/
theorem Reaches.run {s t : σ} (reaches : m.Reaches s t) (done : m.halted t) : ∃ env, m.run env s = t := by
  obtain ⟨env, k, rfl⟩ := reaches
  exact ⟨env, m.run_eq done⟩

end Machine

/-! ## Moves in any order -/

section Moves

variable {σ μ : Type}

/-- The states reached from `start` by enabled moves that `allowed` admits. -/
inductive Reach (step : σ → μ → Option σ) (allowed : σ → μ → Prop) (start : σ) : σ → Prop where
  | refl : Reach step allowed start start
  | tail {s s' : σ} {m : μ} : Reach step allowed start s → allowed s m → step s m = some s' →
      Reach step allowed start s'

/-- **The invariant rule**: what holds at the start and is kept by every allowed move holds of
every state reached. -/
theorem Reach.invariant {step : σ → μ → Option σ} {allowed : σ → μ → Prop} {start s : σ} {P : σ → Prop}
    (reach : Reach step allowed start s) (init : P start)
    (keep : ∀ s m s', P s → allowed s m → step s m = some s' → P s') : P s := by
  induction reach with
  | refl => exact init
  | tail _ ok moved ih => exact keep _ _ _ ih ok moved

theorem Reach.trans {step : σ → μ → Option σ} {allowed : σ → μ → Prop} {s t u : σ}
    (first : Reach step allowed s t) (second : Reach step allowed t u) : Reach step allowed s u := by
  induction second with
  | refl => exact first
  | tail _ ok moved ih => exact ih.tail ok moved

/-- A run is one of more moves, too. -/
theorem Reach.mono {step : σ → μ → Option σ} {allowed more : σ → μ → Prop} {s t : σ}
    (admits : ∀ s m, allowed s m → more s m) (reach : Reach step allowed s t) : Reach step more s t := by
  induction reach with
  | refl => exact .refl
  | tail _ ok moved ih => exact ih.tail (admits _ _ ok) moved

/-- A run is empty or has a first move. -/
theorem Reach.head_cases {step : σ → μ → Option σ} {allowed : σ → μ → Prop} {s u : σ} (reach : Reach step allowed s u) :
    s = u ∨ ∃ m t, step s m = some t ∧ Reach step allowed t u := by
  induction reach with
  | refl => exact .inl rfl
  | tail _ ok moved ih =>
    rcases ih with rfl | ⟨m, t, first, rest⟩
    · exact .inr ⟨_, _, moved, .refl⟩
    · exact .inr ⟨m, t, first, rest.tail ok moved⟩

/-- Where a state has one move at most, of two runs one goes on from the other. -/
theorem Reach.total {next : σ → Option σ} {allowed : σ → Unit → Prop} {s a b : σ}
    (left : Reach (fun s _ => next s) allowed s a) (right : Reach (fun s _ => next s) allowed s b) :
    Reach (fun s _ => next s) allowed a b ∨ Reach (fun s _ => next s) allowed b a := by
  induction left with
  | refl => exact .inl right
  | @tail a a' _ _ ok moved ih =>
    rcases ih with on | back
    · rcases on.head_cases with rfl | ⟨-, t, first, rest⟩
      · exact .inr (Reach.refl.tail ok moved)
      · obtain rfl : t = a' := Option.some.inj (first.symm.trans moved)
        exact .inl rest
    · exact .inr (back.tail ok moved)

/-- States each reached from the one before it. -/
theorem Reach.chain {step : σ → μ → Option σ} {allowed : σ → μ → Prop} {f : Nat → σ}
    (next : ∀ k, Reach step allowed (f k) (f (k + 1))) {i j : Nat} (le : i ≤ j) : Reach step allowed (f i) (f j) := by
  induction le with
  | refl => exact .refl
  | step _ ih => exact ih.trans (next _)

/-- The state after a list of moves, if each is enabled. -/
def moves (step : σ → μ → Option σ) : List μ → σ → Option σ
  | [], s => some s
  | m :: rest, s => (step s m).bind (moves step rest)

theorem moves_append (step : σ → μ → Option σ) (ms more : List μ) (s : σ) :
    moves step (ms ++ more) s = (moves step ms s).bind (moves step more) := by
  induction ms generalizing s with
  | nil => rfl
  | cons m rest ih =>
    simp only [List.cons_append, moves, Option.bind_assoc]
    exact congrArg _ (funext ih)

/-- A list of enabled and allowed moves leads to a reached state. -/
theorem Reach.guarded {step : σ → μ → Option σ} {allowed : σ → μ → Prop} [∀ s m, Decidable (allowed s m)] {start : σ} :
    ∀ (ms : List μ) {s s' : σ}, Reach step allowed start s →
      Lib.moves (fun s m => if allowed s m then step s m else none) ms s = some s' → Reach step allowed start s' := by
  intro ms
  induction ms with
  | nil =>
    intro s s' reach eq
    cases eq
    exact reach
  | cons m rest ih =>
    intro s s' reach eq
    obtain ⟨t, first, more⟩ := Option.bind_eq_some_iff.1 eq
    dsimp only at first
    split at first
    · rename_i ok
      exact ih (reach.tail ok first) more
    · cases first

/-- **The measure rule**: moves that keep an invariant and take a measure down are no more than the
measure. -/
theorem length_moves_le {step : σ → μ → Option σ} {P : σ → Prop} {Q : μ → Prop} {measure : σ → Nat}
    (down : ∀ s m s', P s → Q m → step s m = some s' → P s' ∧ measure s' < measure s) :
    ∀ (ms : List μ) {s s' : σ}, P s → (∀ m ∈ ms, Q m) → Lib.moves step ms s = some s' →
      ms.length + measure s' ≤ measure s := by
  intro ms
  induction ms with
  | nil =>
    intro s s' _ _ ran
    cases ran
    exact Nat.le_of_eq (Nat.zero_add _)
  | cons m rest ih =>
    intro s s' inv steps ran
    obtain ⟨t, first, more⟩ := Option.bind_eq_some_iff.1 ran
    obtain ⟨inv, less⟩ := down s m t inv (steps m List.mem_cons_self) first
    have below := ih inv (fun m mem => steps m (List.mem_cons_of_mem _ mem)) more
    rw [List.length_cons]
    omega

/-- Where every move is allowed, enabled moves lead to a reached state. -/
theorem Reach.moves {step : σ → μ → Option σ} {start : σ} (ms : List μ) {s s' : σ}
    (reach : Reach step (fun _ _ => True) start s) (eq : Lib.moves step ms s = some s') :
    Reach step (fun _ _ => True) start s' :=
  reach.guarded ms (by simpa only [if_true] using eq)

end Moves

end Lib
