import MagelessChain.Lib.BestScan
import MagelessChain.Backend.Overrides
import MagelessChain.Frontend.MEVBuilder
import Mathlib.Data.List.Infix

/-!
# The greedy order

With values of a linear order, each pick is the earliest transaction of greatest value in the state
the picks before it leave. Nothing in a round depends on how much time or room is left, so that a
builder cut off earlier selects a beginning of what it would have selected.
-/

namespace MagelessChain

open Lib

variable {Tx Ov Val : Type}

/-- The builder reads one committed state all along. -/
def BuildEnv.Sees (env : BuildEnv) (view : Visible) : Prop := ∀ round i, env.visible round i = view

/-! ## Cutting the builder off -/

section Prefix

variable {d : ChainDesign Tx Ov} {scoring : Scoring Tx Ov Val} {env env' : BuildEnv} {view : Visible} {mempool : List Tx}

/-- What a round finds depends on the state alone. -/
theorem bestOf_sees (sees : env.Sees view) (sees' : env'.Sees view) (round round' : Nat) (ov : Ov) (taken : List Nat) :
    bestOf scoring env round ov mempool taken = bestOf scoring env' round' ov mempool taken := by
  unfold bestOf
  simp only [sees _ _, sees' _ _]

/-- The loop only adds to what is selected. -/
theorem selectLoop_extends {maxTransactions rounds round : Nat} {deadline : UInt64} {ov : Ov} {selected selected' : List Tx}
    {indices indices' : List Nat} (loop : selectLoop d scoring env mempool maxTransactions deadline rounds round ov selected
      indices = .ok (selected', indices')) : selected <+: selected' := by
  obtain ⟨-, longer, -⟩ := selectLoop_rule (P := fun _ later _ => selected <+: later)
    (fun _ _ _ _ _ _ _ _ _ longer _ _ _ _ _ => longer.trans (List.prefix_append _ _)) rounds (List.prefix_refl selected) loop
  exact longer

/-- A loop with less room or time does what the unhurried one does, and ends no later. -/
theorem selectLoop_prefix {maxTransactions maxTransactions' : Nat} (deadline : UInt64) (sees : env.Sees view)
    (sees' : env'.Sees view) (less : maxTransactions' ≤ maxTransactions) :
    ∀ (rounds : Nat) {round : Nat} (round' : Nat) {ov : Ov} {selected all : List Tx} {indices indices' : List Nat},
      selectLoop d scoring env mempool maxTransactions 0 rounds round ov selected indices = .ok (all, indices') →
      ∃ part indices'', selectLoop d scoring env' mempool maxTransactions' deadline rounds round' ov selected indices =
        .ok (part, indices'') ∧ part <+: all := by
  intro rounds
  induction rounds with
  | zero =>
    intro round round' ov selected all indices indices' loop
    cases loop
    exact ⟨selected, indices, rfl, List.prefix_refl selected⟩
  | succ rounds ih =>
    intro round round' ov selected all indices indices' loop
    have longer := selectLoop_extends loop
    unfold selectLoop at loop ⊢
    split
    · rename_i going
      rw [if_pos ⟨Nat.lt_of_lt_of_le going.1 less, going.2⟩, bestOf_sees sees sees' round round'] at loop
      split at loop
      · cases loop
      · exact ⟨selected, indices, rfl, longer⟩
      · split at loop
        · exact ⟨selected, indices, rfl, longer⟩
        · rw [sees' round' mempool.length]
          rw [sees round mempool.length] at loop
          split at loop
          · rename_i worth
            rw [if_pos worth]
            split at loop
            · cases loop
            · rename_i applied
              rw [if_neg (fun late => late.1 rfl)] at loop
              split
              · exact ⟨_, _, rfl, selectLoop_extends loop⟩
              · exact ih _ loop
          · rename_i worthless
            rw [if_neg worthless]
            exact ⟨selected, indices, rfl, longer⟩
    · exact ⟨selected, indices, rfl, longer⟩

/-- A builder with less room or time selects a beginning of what the unhurried one selects. -/
theorem buildBlock_prefix {maxTransactions maxTransactions' : UInt16} {deadline : UInt64} {selected rest : List Tx}
    (sees : env.Sees view) (sees' : env'.Sees view) (less : maxTransactions' ≤ maxTransactions)
    (built : buildBlock d scoring env mempool maxTransactions 0 = .ok (selected, rest)) :
    ∃ selected' rest', buildBlock d scoring env' mempool maxTransactions' deadline = .ok (selected', rest') ∧
      selected' <+: selected := by
  unfold buildBlock at built ⊢
  split
  · exact ⟨[], mempool, rfl, List.nil_prefix⟩
  · rename_i nonempty
    rw [if_neg nonempty] at built
    split at built
    · cases built
    · rename_i selected' indices loop
      cases built
      obtain ⟨part, indices', loop', shorter⟩ := selectLoop_prefix deadline sees sees'
        (UInt16.le_iff_toNat_le.1 less) _ 0 loop
      rw [loop']
      exact ⟨part, _, rfl, shorter⟩

end Prefix

/-! ## The greedy run -/

section Order

variable [LinearOrder Val] [Zero Val]

/-- Values of a linear order, none of them thrown instead. -/
def orderedScoring (value : Visible → Tx → Ov → Val) (floor : Val) : Scoring Tx Ov Val :=
  ⟨fun view tx ov => .ok (value view tx ov), fun a b => decide (a > b), fun a => decide (a ≥ 0), floor⟩

/-- The transaction at position `i` is the earliest of greatest value among those not taken. -/
structure Best (value : Tx → Ov → Val) (mempool : List Tx) (taken : List Nat) (ov : Ov) (i : Nat) (tx : Tx) : Prop where
  free : i ∉ taken
  found : mempool[i]? = some tx
  greatest : ∀ j tx', j ∉ taken → mempool[j]? = some tx' → value tx' ov ≤ value tx ov
  earliest : ∀ j tx', j < i → j ∉ taken → mempool[j]? = some tx' → value tx' ov < value tx ov

/-- A greedy run over a committed state: the positions picked, the transactions at them, and the
state they leave. -/
inductive Greedy (d : ChainDesign Tx Ov) (view : Visible) (value : Tx → Ov → Val) (mempool : List Tx) :
    List Nat → List Tx → Ov → Prop
  | start : Greedy d view value mempool [] [] d.freshOverride
  | pick {taken : List Nat} {selected : List Tx} {ov : Ov} {i : Nat} {tx : Tx} (run : Greedy d view value mempool taken selected ov)
      (best : Best value mempool taken ov i tx) (nonneg : 0 ≤ value tx ov) :
      Greedy d view value mempool (taken ++ [i]) (selected ++ [tx]) (d.apply view tx ov).1

section Rounds

variable {d : ChainDesign Tx Ov} {value : Visible → Tx → Ov → Val} {floor : Val} {env : BuildEnv} {view : Visible}
  {mempool selected : List Tx} {taken : List Nat} {ov : Ov}

theorem Greedy.length {value : Tx → Ov → Val} (run : Greedy d view value mempool taken selected ov) :
    selected.length = taken.length := by
  induction run with
  | start => rfl
  | pick _ _ _ ih => rw [List.length_append, List.length_append, ih]; rfl

/-- The value at a position not taken. -/
def scoreAt (value : Visible → Tx → Ov → Val) (view : Visible) (mempool : List Tx) (taken : List Nat) (ov : Ov) (i : Nat) :
    Option Val :=
  if i ∈ taken then none else mempool[i]?.map fun tx => value view tx ov

omit [LinearOrder Val] [Zero Val] in
theorem scoreAt_free {i : Nat} {tx : Tx} (free : i ∉ taken) (found : mempool[i]? = some tx) :
    scoreAt value view mempool taken ov i = some (value view tx ov) := by
  rw [scoreAt, if_neg free, found]
  rfl

/-- The inner loop is the search for the best. -/
theorem bestOf_ordered (sees : env.Sees view) (round : Nat) :
    bestOf (orderedScoring value floor) env round ov mempool taken =
      .ok (bestScan (scoreAt value view mempool taken ov) floor mempool.length) := by
  refine foldlM_pure_turns (fun best i => ?_) _ _
  unfold scanTurn scoreAt
  simp only [List.contains_iff_mem]
  split
  · rfl
  · cases mempool[i]? with
    | none => rfl
    | some tx => simp [orderedScoring, sees round i]

/-- The position a round finds is the best. -/
theorem bestOf_best {round i : Nat} {val : Val} {tx : Tx} (sees : env.Sees view)
    (best : bestOf (orderedScoring value floor) env round ov mempool taken = .ok (val, some i)) (found : mempool[i]? = some tx) :
    Best (value view) mempool taken ov i tx ∧ val = value view tx ov := by
  obtain ⟨free, tx', found', scored⟩ := bestOf_some best
  obtain rfl : tx = tx' := Option.some.inj (found.symm.trans found')
  rw [sees] at scored
  obtain rfl : value view tx ov = val := Except.ok.inj scored
  rw [bestOf_ordered sees] at best
  have leads := bestScan_leads (scoreAt value view mempool taken ov) floor mempool.length
  rw [Except.ok.inj best] at leads
  refine ⟨⟨free, found, fun j tx' free' found' => ?_, fun j tx' lt free' found' => ?_⟩, rfl⟩
  · exact leads.below j _ (List.getElem?_eq_some_iff.1 found').1 (scoreAt_free free' found')
  · exact (leads.some i rfl).2.2.2 j _ lt (scoreAt_free free' found')

/-- Where a round finds nothing worth taking, everything left has a value below zero. -/
theorem bestOf_worthless {round j : Nat} {val : Val} {best : Option Nat} {tx : Tx} (sees : env.Sees view) (below : floor < 0)
    (ended : bestOf (orderedScoring value floor) env round ov mempool taken = .ok (val, best))
    (worthless : best = none ∨ (orderedScoring value floor : Scoring Tx Ov Val).nonneg val = false)
    (free : j ∉ taken) (found : mempool[j]? = some tx) : value view tx ov < 0 := by
  rw [bestOf_ordered sees] at ended
  have leads := bestScan_leads (scoreAt value view mempool taken ov) floor mempool.length
  rw [Except.ok.inj ended] at leads
  have le := leads.below j _ (List.getElem?_eq_some_iff.1 found).1 (scoreAt_free free found)
  refine lt_of_le_of_lt le ?_
  obtain none | negative := worthless
  · rw [leads.none none]
    exact below
  · exact not_le.1 (of_decide_eq_false negative)

end Rounds

/-- What keeps an unhurried builder from selecting more: the block is full, the mempool is used up,
or everything left has a value below zero. -/
def Saturated (value : Tx → Ov → Val) (maxTransactions : UInt16) (ov : Ov) (selected rest : List Tx) : Prop :=
  selected.length = maxTransactions.toNat ∨ rest = [] ∨ ∀ tx ∈ rest, value tx ov < 0

section Build

variable {d : ChainDesign Tx Ov} {value : Visible → Tx → Ov → Val} {floor : Val} {env : BuildEnv} {view : Visible}
  {mempool selected rest : List Tx} {maxTransactions : UInt16} {deadline : UInt64}

/-- What the selection loop ends with is a greedy run. -/
theorem selectLoop_greedy {indices : List Nat} (sees : env.Sees view)
    (loop : selectLoop d (orderedScoring value floor) env mempool maxTransactions.toNat deadline mempool.length 0
      d.freshOverride [] [] = .ok (selected, indices)) :
    ∃ ov, Greedy d view (value view) mempool indices selected ov ∧
      Ended (orderedScoring value floor) env mempool maxTransactions.toNat deadline ov selected indices := by
  have pick : ∀ round ov selected indices val i tx ov' result, Greedy d view (value view) mempool indices selected ov →
      selected.length < maxTransactions.toNat →
      bestOf (orderedScoring value floor) env round ov mempool indices = .ok (val, some i) →
      mempool[i]? = some tx → (orderedScoring value floor : Scoring Tx Ov Val).nonneg val = true →
      d.apply (env.visible round mempool.length) tx ov = (ov', .ok result) →
      Greedy d view (value view) mempool (indices ++ [i]) (selected ++ [tx]) ov' := by
    intro round ov selected indices val i tx ov' result run _ best found nonneg applied
    obtain ⟨isBest, rfl⟩ := bestOf_best sees best found
    rw [sees] at applied
    have picked := run.pick isBest (of_decide_eq_true nonneg)
    rw [applied] at picked
    exact picked
  obtain ⟨ov, run, ended⟩ := selectLoop_rule (P := fun ov selected indices => Greedy d view (value view) mempool indices selected ov)
    pick mempool.length .start loop
  exact ⟨ov, run, ended (Nat.le_add_left _ _)⟩

theorem buildBlock_greedy (sees : env.Sees view) (below : floor < 0)
    (built : buildBlock d (orderedScoring value floor) env mempool maxTransactions deadline = .ok (selected, rest)) :
    ∃ picks ov, Greedy d view (value view) mempool picks selected ov ∧
      (deadline = 0 → Saturated (value view) maxTransactions ov selected rest) := by
  have length := buildBlock_length built
  have perm := buildBlock_perm built
  unfold buildBlock at built
  split at built
  · rename_i empty
    cases built
    exact ⟨[], _, .start, fun _ => .inr (.inl (List.length_eq_zero_iff.1 empty))⟩
  · split at built
    · cases built
    · rename_i selected' indices loop
      cases built
      obtain ⟨ov, run, ended⟩ := selectLoop_greedy sees loop
      refine ⟨indices, ov, run, fun unhurried => ?_⟩
      obtain full | used | ⟨hurried, -⟩ | ⟨round, val, best, found, worthless⟩ := ended
      · exact .inl (Nat.le_antisymm length full)
      · -- as many are selected as there were
        have all := perm.length_eq
        rw [List.length_append, run.length] at all
        exact .inr (.inl (List.length_eq_zero_iff.1 (by omega)))
      · exact absurd unhurried hurried
      · have picked := selectLoop_picked loop
        have order := sortDescending_perm indices
        refine .inr (.inr fun tx left => ?_)
        obtain ⟨j, free, there⟩ := mem_removeAll (sortDescending_sorted picked.nodup)
          (fun i hi => picked.inside i (order.mem_iff.1 hi)) left
        exact bestOf_worthless sees below found worthless (fun mem => free (order.mem_iff.2 mem)) there

end Build

/-- **Building greedily.** Over one committed state, with values of a linear order and a floor below
zero, the builder makes a greedy run: at each position the earliest transaction of greatest value
among those left, and that value from zero on. Without a deadline it stops only where the block is
full, the mempool used up or everything left worth less than zero; and with any deadline, any clock
and no more room it selects a beginning of that. -/
theorem buildBlock_greedy_stable (d : ChainDesign Tx Ov) (value : Visible → Tx → Ov → Val) (floor : Val) (view : Visible)
    (env : BuildEnv) (mempool : List Tx) (maxTransactions : UInt16) (deadline : UInt64) (selected rest : List Tx)
    (below : floor < 0) (sees : env.Sees view)
    (built : buildBlock d (orderedScoring value floor) env mempool maxTransactions deadline = .ok (selected, rest)) :
    (∃ picks ov, Greedy d view (value view) mempool picks selected ov ∧
      (deadline = 0 → Saturated (value view) maxTransactions ov selected rest)) ∧
    (deadline = 0 → ∀ (env' : BuildEnv) (maxTransactions' : UInt16) (deadline' : UInt64), env'.Sees view →
      maxTransactions' ≤ maxTransactions → ∃ selected' rest',
        buildBlock d (orderedScoring value floor) env' mempool maxTransactions' deadline' = .ok (selected', rest') ∧
        selected' <+: selected) := by
  refine ⟨buildBlock_greedy sees below built, ?_⟩
  rintro rfl env' maxTransactions' deadline' sees' less
  exact buildBlock_prefix sees sees' less built

end Order

/-- Transactions whose value depends on how many were applied before: the byte 2 is worth more
behind another, and all above it less. -/
def orderDesign : ChainDesign UInt8 Nat where
  freshOverride := 0
  verify _ _ _ := true
  apply _ _ count := (count + 1, .ok true)
  write tx := ([1, tx], none)
  getFactory typeId := if typeId = 1 then some fun img off => (some (img off), off + 1) else none
  familySize := 0
  indexCount := 0
  encodingVersion _ := none
  sealFamily _ _ _ := .ok []

@[inherit_doc orderDesign] def orderValue (_ : Visible) (tx : UInt8) (count : Nat) : Int :=
  if tx = 1 then 10 else if tx = 2 then (if count > 0 then 20 else 5) else (if count > 0 then 1 else 15)

/-- The byte 3 comes first, and makes the byte 2 the best of the others. -/
theorem buildBlock_greedy_dependent :
    (∃ picks ov, Greedy orderDesign (fun _ => 0) (orderValue fun _ => 0) [1, 2, 3] picks [3, 2] ov ∧
      Saturated (orderValue fun _ => 0) 2 ov [3, 2] [1]) ∧
    ∃ selected' rest', buildBlock orderDesign (orderedScoring orderValue (-1)) ⟨fun _ _ _ => 0, fun _ => 7⟩ [1, 2, 3] 2 5 =
      .ok (selected', rest') ∧ selected' <+: [3, 2] := by
  have stable := buildBlock_greedy_stable orderDesign orderValue (-1) (fun _ => 0) ⟨fun _ _ _ => 0, fun _ => 0⟩ [1, 2, 3] 2 0
    [3, 2] [1] (by decide) (fun _ _ => rfl) (by decide +kernel)
  obtain ⟨⟨picks, ov, run, saturated⟩, cut⟩ := stable
  exact ⟨⟨picks, ov, run, saturated rfl⟩, cut rfl ⟨fun _ _ _ => 0, fun _ => 7⟩ 2 5 (fun _ _ => rfl) (UInt16.le_refl 2)⟩

end MagelessChain
