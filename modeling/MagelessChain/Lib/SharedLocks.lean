import Mathlib.Data.List.Basic
import Mathlib.Data.List.Pairwise

/-!
# Shared and unique locks

Threads stand at program points, and a point says which locks a thread there holds, each shared or
unique, and for which it waits. A lock is granted where no thread holds it in a way that excludes
the new one, so no two threads ever hold one in excluding ways. Where a thread waits only for locks
above those it holds, the threads never all wait for each other.
-/

namespace Lib

/-- How a lock is held. -/
inductive Mode where
  | shared
  | unique
  deriving DecidableEq, Repr

section Locks

variable {L P : Type} (hold : P → L → Option Mode)

/-- The lock can be given to a thread beside `others`. -/
def Grants (others : List P) (l : L) : Mode → Prop
  | .shared => ∀ p ∈ others, hold p l ≠ some .unique
  | .unique => ∀ p ∈ others, hold p l = none

instance [DecidableEq L] (others : List P) (l : L) : (mode : Mode) → Decidable (Grants hold others l mode)
  | .shared => inferInstanceAs (Decidable (∀ p ∈ others, _))
  | .unique => inferInstanceAs (Decidable (∀ p ∈ others, _))

/-- Two threads do not hold a lock in ways that exclude each other. -/
def Compatible (p q : P) : Prop :=
  ∀ l, (hold p l = some .unique → hold q l = none) ∧ (hold q l = some .unique → hold p l = none)

/-- No two threads hold a lock in ways that exclude each other. -/
def Excluded (threads : List P) : Prop := threads.Pairwise (Compatible hold)

variable {hold}

theorem Compatible.symm {p q : P} (h : Compatible hold p q) : Compatible hold q p := fun l => ⟨(h l).2, (h l).1⟩

/-- A thread that is granted what it newly holds is compatible with the others. -/
theorem Compatible.move {others : List P} {p p' q : P} (before : Compatible hold p q) (among : q ∈ others)
    (granted : ∀ l mode, hold p' l = some mode → hold p l = some mode ∨ Grants hold others l mode) :
    Compatible hold p' q := by
  intro l
  constructor
  · intro unique
    obtain kept | free := granted l .unique unique
    · exact (before l).1 kept
    · exact free q among
  · intro unique
    cases now : hold p' l with
    | none => rfl
    | some mode =>
      obtain kept | free := granted l mode now
      · rw [(before l).2 unique] at kept
        cases kept
      · cases mode with
        | shared => exact absurd unique (free q among)
        | unique =>
          rw [free q among] at unique
          cases unique

/-- **A move keeps the exclusion** where each lock it takes is granted beside the other threads. -/
theorem Excluded.move {front back : List P} {p p' : P} (h : Excluded hold (front ++ p :: back))
    (granted : ∀ l mode, hold p' l = some mode → hold p l = some mode ∨ Grants hold (front ++ back) l mode) :
    Excluded hold (front ++ p' :: back) := by
  obtain ⟨before, after, apart⟩ := List.pairwise_append.1 h
  obtain ⟨own, rest⟩ := List.pairwise_cons.1 after
  refine List.pairwise_append.2 ⟨before, List.pairwise_cons.2 ⟨fun q mem => ?_, rest⟩, fun q mem r mem' => ?_⟩
  · exact (own q mem).move (List.mem_append_right _ mem) granted
  · obtain rfl | mem' := List.mem_cons.1 mem'
    · exact ((apart q mem p List.mem_cons_self).symm.move (List.mem_append_left _ mem) granted).symm
    · exact apart q mem r (List.mem_cons_of_mem _ mem')

/-- A new thread that holds nothing. -/
theorem Excluded.spawn {threads : List P} {p : P} (h : Excluded hold threads) (free : ∀ l, hold p l = none) :
    Excluded hold (threads ++ [p]) := by
  refine List.pairwise_append.2 ⟨h, List.pairwise_singleton _ _, fun q _ r single => ?_⟩
  rw [List.mem_singleton.1 single]
  intro l
  refine ⟨fun _ => free l, fun unique => ?_⟩
  rw [free l] at unique
  cases unique

/-- While one thread holds a lock shared, no other holds it unique. -/
theorem Excluded.shared {threads : List P} (h : Excluded hold threads) {i j : Nat} {p q : P} (here : threads[i]? = some p)
    (there : threads[j]? = some q) {l : L} (shares : hold p l = some .shared) : hold q l ≠ some .unique := by
  intro unique
  have apart := List.pairwise_iff_getElem.1 h
  obtain ⟨inside, rfl⟩ := List.getElem?_eq_some_iff.1 here
  obtain ⟨inside', rfl⟩ := List.getElem?_eq_some_iff.1 there
  obtain lt | rfl | gt := Nat.lt_trichotomy i j
  · rw [(apart i j inside inside' lt l).2 unique] at shares
    cases shares
  · rw [unique] at shares
    cases shares
  · rw [(apart j i inside' inside gt l).1 unique] at shares
    cases shares

/-! ## No deadlock -/

/-- A thread waits only for a lock that ranks above all it holds. -/
def LockOrdered (hold : P → L → Option Mode) (wait : P → Option L) (rank : L → Nat) (p : P) : Prop :=
  ∀ l, wait p = some l → ∀ l', hold p l' ≠ none → rank l' < rank l

/-- A thread can go on: it waits for nothing, or for a lock that no thread holds. -/
def Free (hold : P → L → Option Mode) (wait : P → Option L) (threads : List P) (p : P) : Prop :=
  ∀ l, wait p = some l → ∀ q ∈ threads, hold q l = none

/-- The locks waited for have a highest rank. -/
theorem exists_rank_bound (wait : P → Option L) (rank : L → Nat) (threads : List P) :
    ∃ top, ∀ p ∈ threads, ∀ l, wait p = some l → rank l ≤ top := by
  induction threads with
  | nil => exact ⟨0, fun p mem => absurd mem List.not_mem_nil⟩
  | cons p rest ih =>
    obtain ⟨top, bound⟩ := ih
    refine ⟨max top (((wait p).map rank).getD 0), fun q mem l for_l => ?_⟩
    obtain rfl | mem := List.mem_cons.1 mem
    · rw [for_l]
      exact Nat.le_max_right _ _
    · exact Nat.le_trans (bound q mem l for_l) (Nat.le_max_left _ _)

/-- **No deadlock**: among threads that take their locks in ascending order, some thread can go on,
whatever order a lock is granted in. -/
theorem exists_free {wait : P → Option L} {rank : L → Nat} {threads : List P}
    (ascending : ∀ p ∈ threads, LockOrdered hold wait rank p) (some_thread : threads ≠ []) :
    ∃ p ∈ threads, Free hold wait threads p := by
  by_contra! stuck
  have waits : ∀ p ∈ threads, ∃ l, wait p = some l ∧ ∃ q ∈ threads, hold q l ≠ none := by
    intro p mem
    have held := stuck p mem
    unfold Free at held
    push Not at held
    exact held
  -- a thread waits for a lock with a holder, and the holder waits for a higher one
  have climb : ∀ n, ∃ p ∈ threads, ∃ l, wait p = some l ∧ n ≤ rank l := by
    intro n
    induction n with
    | zero =>
      obtain ⟨p, mem⟩ := List.exists_mem_of_ne_nil _ some_thread
      obtain ⟨l, for_l, -⟩ := waits p mem
      exact ⟨p, mem, l, for_l, Nat.zero_le _⟩
    | succ n ih =>
      obtain ⟨p, mem, l, for_l, above⟩ := ih
      obtain ⟨l', for_l', q, mem', holds⟩ := waits p mem
      obtain rfl : l = l' := Option.some.inj (for_l.symm.trans for_l')
      obtain ⟨m, for_m, -⟩ := waits q mem'
      have lt := ascending q mem' m for_m l holds
      exact ⟨q, mem', m, for_m, by omega⟩
  obtain ⟨top, bound⟩ := exists_rank_bound wait rank threads
  obtain ⟨p, mem, l, for_l, above⟩ := climb (top + 1)
  have := bound p mem l for_l
  omega

end Locks

end Lib
