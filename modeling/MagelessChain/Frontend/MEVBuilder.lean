import MagelessChain.Chain.Design
import MagelessChain.Lib.Removal

/-!
# The block builder

`blockchain/MEVBuilder.cpp`: greedily pick the transaction of the highest value, apply it to a
simulated state and score again, then remove the picked positions from the mempool. Values are
`float`s, which the builder only compares; the comparisons are taken as given.
-/

namespace MagelessChain

open Lib

/-- What the builder knows about the application's values: `Transaction::computeValue`, and the
`float` comparisons it makes. -/
structure Scoring (Tx Ov Val : Type) where
  computeValue : Visible → Tx → Ov → Except Exn Val
  /-- `a > b` -/
  gt : Val → Val → Bool
  /-- `a >= 0` -/
  nonneg : Val → Bool
  /-- `-1.0e30f` -/
  floor : Val

/-- What the surroundings do during one call of `buildBlock`: the committed segments seen in each
round, by the read at position `i` or (at the size of the mempool) by the apply, and the clock at
the end of each round. -/
structure BuildEnv where
  visible : Nat → Nat → Visible
  clock : Nat → UInt64

section Build

variable {Tx Ov Val : Type} (d : ChainDesign Tx Ov) (scoring : Scoring Tx Ov Val) (env : BuildEnv)

/-- The inner loop of a round: the best value and its position among those not taken. -/
def bestOf (round : Nat) (ov : Ov) (mempool : List Tx) (taken : List Nat) : Except Exn (Val × Option Nat) :=
  (List.range mempool.length).foldlM (fun best i =>
    if taken.contains i then .ok best
    else match mempool[i]? with
      | none => .ok best
      | some tx =>
        match scoring.computeValue (env.visible round i) tx ov with
        | .error e => .error e
        | .ok val => .ok (if scoring.gt val best.1 then (val, some i) else best)) (scoring.floor, none)

/-- The selection loop. Each round takes a position or ends the loop, so that as many rounds as
the mempool has transactions are all the loop can make. -/
def selectLoop (mempool : List Tx) (maxTransactions : Nat) (deadline : UInt64) :
    Nat → Nat → Ov → List Tx → List Nat → Except Exn (List Tx × List Nat)
  | 0, _, _, selected, indicesToRemove => .ok (selected, indicesToRemove)
  | rounds + 1, round, ov, selected, indicesToRemove =>
    if selected.length < maxTransactions ∧ indicesToRemove.length < mempool.length then
      match bestOf scoring env round ov mempool indicesToRemove with
      | .error e => .error e
      | .ok (_, none) => .ok (selected, indicesToRemove)
      | .ok (bestValue, some bestIdx) =>
        match mempool[bestIdx]? with
        | none => .ok (selected, indicesToRemove)
        | some bestTx =>
          if scoring.nonneg bestValue then
            match d.apply (env.visible round mempool.length) bestTx ov with
            | (_, .error e) => .error e
            | (ov, .ok _) =>
              if deadline ≠ 0 ∧ env.clock round ≥ deadline then
                .ok (selected ++ [bestTx], indicesToRemove ++ [bestIdx])
              else
                selectLoop mempool maxTransactions deadline rounds (round + 1) ov (selected ++ [bestTx])
                  (indicesToRemove ++ [bestIdx])
          else .ok (selected, indicesToRemove)
    else .ok (selected, indicesToRemove)

/-- `MEVBuilder::buildBlock`: the selected transactions in execution order and the mempool that
is left. -/
def buildBlock (mempool : List Tx) (maxTransactions : UInt16) (deadline : UInt64) :
    Except Exn (List Tx × List Tx) :=
  if mempool.length = 0 then .ok ([], mempool)
  else
    match selectLoop d scoring env mempool maxTransactions.toNat deadline mempool.length 0 d.freshOverride [] [] with
    | .error e => .error e
    | .ok (selected, indicesToRemove) => .ok (selected, removeAll mempool (sortDescending indicesToRemove))

end Build

section Facts

variable {Tx Ov Val : Type} {d : ChainDesign Tx Ov} {scoring : Scoring Tx Ov Val} {env : BuildEnv}

/-- The positions taken so far are distinct positions of the mempool, and the selected
transactions are those at them. -/
structure Picked (mempool selected : List Tx) (indicesToRemove : List Nat) : Prop where
  nodup : indicesToRemove.Nodup
  inside : ∀ i ∈ indicesToRemove, i < mempool.length
  selected_eq : selected = indicesToRemove.filterMap (mempool[·]?)

/-- What every turn of a loop keeps holds of the value it ends with. -/
theorem foldlM_ok {α β : Type} {f : β → α → Except Exn β} {P : β → Prop}
    (keep : ∀ b a b', P b → f b a = .ok b' → P b') :
    ∀ (l : List α) {b r : β}, P b → l.foldlM f b = .ok r → P r := by
  intro l
  induction l with
  | nil =>
    intro b r hb h
    cases h
    exact hb
  | cons a l ih =>
    intro b r hb h
    rw [List.foldlM_cons] at h
    cases eq : f b a with
    | error e => rw [eq] at h; cases h
    | ok b' =>
      rw [eq] at h
      exact ih (keep b a b' hb eq) h

/-- What one turn of a loop brings about, and the others keep, holds of the value it ends with. -/
theorem foldlM_reaches {α β : Type} {f : β → α → Except Exn β} {P Q : β → Prop} {a : α}
    (keep : ∀ b x b', P b → f b x = .ok b' → P b') (reach : ∀ b b', P b → f b a = .ok b' → Q b')
    (stay : ∀ b x b', Q b → f b x = .ok b' → Q b') :
    ∀ (l : List α) {b r : β}, a ∈ l → P b → l.foldlM f b = .ok r → Q r := by
  intro l
  induction l with
  | nil =>
    intro b r mem _ _
    cases mem
  | cons x l ih =>
    intro b r mem hb h
    rw [List.foldlM_cons] at h
    cases eq : f b x with
    | error e => rw [eq] at h; cases h
    | ok b' =>
      rw [eq] at h
      obtain rfl | mem := List.mem_cons.1 mem
      · exact foldlM_ok stay l (reach b b' hb eq) h
      · exact ih mem (keep b x b' hb eq) h

/-- A loop no turn of which throws ends. -/
theorem foldlM_total {α β : Type} {f : β → α → Except Exn β} (total : ∀ b a, ∃ b', f b a = .ok b') :
    ∀ (l : List α) (b : β), ∃ r, l.foldlM f b = .ok r := by
  intro l
  induction l with
  | nil => intro b; exact ⟨b, rfl⟩
  | cons a l ih =>
    intro b
    obtain ⟨b', eq⟩ := total b a
    rw [List.foldlM_cons, eq]
    exact ih b'

/-- A loop no turn of which throws is a fold. -/
theorem foldlM_pure_turns {α β : Type} {f : β → α → Except Exn β} {g : β → α → β} (turn : ∀ b a, f b a = .ok (g b a)) :
    ∀ (l : List α) (b : β), l.foldlM f b = .ok (l.foldl g b) := by
  intro l
  induction l with
  | nil => exact fun _ => rfl
  | cons a l ih =>
    intro b
    rw [List.foldlM_cons, turn]
    exact ih (g b a)

/-- What a turn of the inner loop does to the best value so far. -/
theorem bestOf_turn {round i : Nat} {ov : Ov} {mempool : List Tx} {taken : List Nat} {best best' : Val × Option Nat}
    (turn : (if taken.contains i then (.ok best : Except Exn (Val × Option Nat))
      else match mempool[i]? with
        | none => .ok best
        | some tx =>
          match scoring.computeValue (env.visible round i) tx ov with
          | .error e => .error e
          | .ok val => .ok (if scoring.gt val best.1 then (val, some i) else best)) = .ok best') :
    best' = best ∨ ∃ tx val, i ∉ taken ∧ mempool[i]? = some tx ∧
      scoring.computeValue (env.visible round i) tx ov = .ok val ∧ scoring.gt val best.1 = true ∧ best' = (val, some i) := by
  split at turn
  · cases turn; exact .inl rfl
  · rename_i free
    split at turn
    · cases turn; exact .inl rfl
    · rename_i tx found
      split at turn
      · cases turn
      · rename_i val scored
        cases turn
        split
        · rename_i above
          exact .inr ⟨tx, val, by simpa using free, found, scored, above, rfl⟩
        · exact .inl rfl

/-- A position the inner loop finds is not taken, and the value is the one it has. -/
theorem bestOf_some {round : Nat} {ov : Ov} {mempool : List Tx} {taken : List Nat} {value : Val} {i : Nat}
    (h : bestOf scoring env round ov mempool taken = .ok (value, some i)) :
    i ∉ taken ∧ ∃ tx, mempool[i]? = some tx ∧ scoring.computeValue (env.visible round i) tx ov = .ok value := by
  refine foldlM_ok (P := fun best => ∀ i, best.2 = some i → i ∉ taken ∧ ∃ tx, mempool[i]? = some tx ∧
    scoring.computeValue (env.visible round i) tx ov = .ok best.1) ?_ _ ?_ h i rfl
  · intro best j best' old turn
    obtain rfl | ⟨tx, val, free, found, scored, -, rfl⟩ := bestOf_turn turn
    · exact old
    · intro i here
      cases here
      exact ⟨free, tx, found, scored⟩
  · intro i found
    cases found

theorem Picked.pick {mempool selected : List Tx} {indicesToRemove : List Nat} {i : Nat} {tx : Tx}
    (h : Picked mempool selected indicesToRemove) (fresh : i ∉ indicesToRemove) (found : mempool[i]? = some tx) :
    Picked mempool (selected ++ [tx]) (indicesToRemove ++ [i]) where
  nodup := by
    rw [List.nodup_append]
    exact ⟨h.nodup, by simp, fun a ha b hb => by
      rw [List.mem_singleton.1 hb]; exact fun eq => fresh (eq ▸ ha)⟩
  inside j hj := by
    rcases List.mem_append.1 hj with hj | hj
    · exact h.inside j hj
    · rw [List.mem_singleton.1 hj]
      exact (List.getElem?_eq_some_iff.1 found).1
  selected_eq := by
    rw [List.filterMap_append, ← h.selected_eq]
    simp [found]

/-- Why the selection loop ends: the block is full, the mempool is used up, the time is over, or
nothing left is worth taking. -/
def Ended (scoring : Scoring Tx Ov Val) (env : BuildEnv) (mempool : List Tx) (maxTransactions : Nat) (deadline : UInt64)
    (ov : Ov) (selected : List Tx) (indices : List Nat) : Prop :=
  maxTransactions ≤ selected.length ∨ mempool.length ≤ indices.length ∨
    (deadline ≠ 0 ∧ ∃ round, env.clock round ≥ deadline) ∨
    ∃ round value best, bestOf scoring env round ov mempool indices = .ok (value, best) ∧
      (best = none ∨ scoring.nonneg value = false)

/-- **The rule of the selection loop**: what every pick keeps holds of what the loop ends with, and
unless its rounds run out it ends for a reason. -/
theorem selectLoop_rule {mempool : List Tx} {maxTransactions : Nat} {deadline : UInt64}
    {P : Ov → List Tx → List Nat → Prop}
    (pick : ∀ round ov selected indices value i tx ov' result, P ov selected indices →
      selected.length < maxTransactions → bestOf scoring env round ov mempool indices = .ok (value, some i) →
      mempool[i]? = some tx → scoring.nonneg value = true →
      d.apply (env.visible round mempool.length) tx ov = (ov', .ok result) → P ov' (selected ++ [tx]) (indices ++ [i])) :
    ∀ (rounds : Nat) {round : Nat} {ov : Ov} {selected selected' : List Tx} {indices indices' : List Nat},
      P ov selected indices →
      selectLoop d scoring env mempool maxTransactions deadline rounds round ov selected indices =
        .ok (selected', indices') →
      ∃ ov', P ov' selected' indices' ∧
        (mempool.length ≤ indices.length + rounds → Ended scoring env mempool maxTransactions deadline ov' selected' indices') := by
  intro rounds
  induction rounds with
  | zero =>
    intro round ov selected selected' indices indices' held h
    cases h
    exact ⟨ov, held, fun all => .inr (.inl all)⟩
  | succ rounds ih =>
    intro round ov selected selected' indices indices' held h
    unfold selectLoop at h
    split at h
    · rename_i going
      split at h
      · cases h
      · rename_i value best
        cases h
        exact ⟨ov, held, fun _ => .inr (.inr (.inr ⟨round, value, none, best, .inl rfl⟩))⟩
      · rename_i value i best
        obtain ⟨-, tx', found', -⟩ := bestOf_some best
        split at h
        · rename_i missing
          rw [missing] at found'
          cases found'
        · rename_i tx found
          split at h
          · rename_i worth
            split at h
            · cases h
            · rename_i ov' result applied
              have held' := pick round ov selected indices value i tx ov' result held going.1 best found worth applied
              split at h
              · rename_i late
                cases h
                exact ⟨ov', held', fun _ => .inr (.inr (.inl ⟨late.1, round, late.2⟩))⟩
              · obtain ⟨ov'', held'', ended⟩ := ih held' h
                refine ⟨ov'', held'', fun all => ended ?_⟩
                rw [List.length_append, List.length_singleton]
                omega
          · rename_i worthless
            cases h
            exact ⟨ov, held, fun _ => .inr (.inr (.inr ⟨round, value, some i, best, .inr (by simpa using worthless)⟩))⟩
    · rename_i full
      cases h
      refine ⟨ov, held, fun _ => ?_⟩
      by_cases room : selected.length < maxTransactions
      · exact .inr (.inl (Nat.not_lt.1 fun more => full ⟨room, more⟩))
      · exact .inl (Nat.not_lt.1 room)

/-- The selection loop takes distinct positions. -/
theorem selectLoop_picked {mempool selected' : List Tx} {maxTransactions rounds round : Nat} {deadline : UInt64} {ov : Ov}
    {indices' : List Nat} (h : selectLoop d scoring env mempool maxTransactions deadline rounds round ov [] [] =
      .ok (selected', indices')) : Picked mempool selected' indices' := by
  have start : Picked mempool [] [] := ⟨.nil, by simp, rfl⟩
  obtain ⟨-, picked, -⟩ := selectLoop_rule (P := fun _ selected indices => Picked mempool selected indices)
    (fun _ _ _ _ _ _ _ _ _ picked _ best found _ _ => picked.pick (bestOf_some best).1 found) rounds start h
  exact picked

/-- **Building a block** splits the mempool: what is selected and what is left are together the
transactions that were there. -/
theorem buildBlock_perm {mempool selected rest : List Tx} {maxTransactions : UInt16} {deadline : UInt64}
    (h : buildBlock d scoring env mempool maxTransactions deadline = .ok (selected, rest)) :
    (selected ++ rest).Perm mempool := by
  unfold buildBlock at h
  split at h
  · cases h; exact .rfl
  · split at h
    · cases h
    · rename_i selected' indices loop
      cases h
      have picked := selectLoop_picked loop
      have order := sortDescending_perm indices
      have removed := removeAll_perm (sortDescending_sorted picked.nodup) fun i hi =>
        picked.inside i (order.mem_iff.1 hi)
      rw [picked.selected_eq]
      exact ((order.filterMap _).symm.append_right _).trans removed

/-- The rule of the selection loop for a whole block. -/
theorem buildBlock_induction {mempool selected rest : List Tx} {maxTransactions : UInt16} {deadline : UInt64}
    {P : Ov → List Tx → Prop} (start : P d.freshOverride [])
    (pick : ∀ round ov selected taken value i tx ov' result, P ov selected →
      selected.length < maxTransactions.toNat → bestOf scoring env round ov mempool taken = .ok (value, some i) →
      mempool[i]? = some tx → scoring.nonneg value = true →
      d.apply (env.visible round mempool.length) tx ov = (ov', .ok result) → P ov' (selected ++ [tx]))
    (h : buildBlock d scoring env mempool maxTransactions deadline = .ok (selected, rest)) : ∃ ov, P ov selected := by
  unfold buildBlock at h
  split at h
  · cases h; exact ⟨_, start⟩
  · split at h
    · cases h
    · rename_i selected' indices loop
      cases h
      obtain ⟨ov, held, -⟩ := selectLoop_rule (P := fun ov selected _ => P ov selected) pick _ start loop
      exact ⟨ov, held⟩

/-- A builder that selects nothing leaves the mempool as it is. -/
theorem buildBlock_nil {mempool rest : List Tx} {maxTransactions : UInt16} {deadline : UInt64}
    (h : buildBlock d scoring env mempool maxTransactions deadline = .ok ([], rest)) : rest = mempool := by
  unfold buildBlock at h
  split at h
  · cases h; rfl
  · split at h
    · cases h
    · rename_i selected indices loop
      cases h
      have picked := selectLoop_picked loop
      cases indices with
      | nil => rfl
      | cons i more =>
        have found := List.getElem?_eq_getElem (picked.inside i List.mem_cons_self)
        have empty := picked.selected_eq
        rw [List.filterMap_cons, found] at empty
        cases empty

/-- A block has at most as many transactions as the builder was asked for. -/
theorem buildBlock_length {mempool selected rest : List Tx} {maxTransactions : UInt16}
    {deadline : UInt64} (built : buildBlock d scoring env mempool maxTransactions deadline = .ok (selected, rest)) :
    selected.length ≤ maxTransactions.toNat := by
  have pick : ∀ round ov selected taken value i tx ov' result, (selected : List Tx).length ≤ maxTransactions.toNat →
      selected.length < maxTransactions.toNat → bestOf scoring env round ov mempool taken = .ok (value, some i) →
      mempool[i]? = some tx → scoring.nonneg value = true →
      d.apply (env.visible round mempool.length) tx ov = (ov', .ok result) →
      (selected ++ [tx]).length ≤ maxTransactions.toNat := by
    intro _ _ selected _ _ _ tx _ _ _ room _ _ _ _
    rw [List.length_append, List.length_singleton]
    exact room
  obtain ⟨-, le⟩ := buildBlock_induction (P := fun _ selected => selected.length ≤ maxTransactions.toNat)
    (Nat.zero_le _) pick built
  exact le

/-- What is left of the mempool keeps its order. -/
theorem buildBlock_sublist {mempool selected rest : List Tx} {maxTransactions : UInt16} {deadline : UInt64}
    (built : buildBlock d scoring env mempool maxTransactions deadline = .ok (selected, rest)) : rest.Sublist mempool := by
  unfold buildBlock at built
  split at built
  · cases built; exact .refl _
  · split at built
    · cases built
    · rename_i selected' indices loop
      cases built
      have picked := selectLoop_picked loop
      have order := sortDescending_perm indices
      exact removeAll_sublist (sortDescending_sorted picked.nodup) fun i hi => picked.inside i (order.mem_iff.1 hi)

/-- No call the builder makes of the application throws. -/
structure Unthrowing (d : ChainDesign Tx Ov) (scoring : Scoring Tx Ov Val) : Prop where
  values : ∀ visible tx ov, ∃ val, scoring.computeValue visible tx ov = .ok val
  applies : ∀ visible tx ov, ∃ ov' result, d.apply visible tx ov = (ov', .ok result)

theorem Unthrowing.bestOf (h : Unthrowing d scoring) (env : BuildEnv) (round : Nat) (ov : Ov) (mempool : List Tx) (taken : List Nat) :
    ∃ best, bestOf scoring env round ov mempool taken = .ok best := by
  refine foldlM_total (fun best i => ?_) _ _
  split
  · exact ⟨_, rfl⟩
  · split
    · exact ⟨_, rfl⟩
    · rename_i tx _
      obtain ⟨val, scored⟩ := h.values (env.visible round i) tx ov
      rw [scored]
      exact ⟨_, rfl⟩

theorem Unthrowing.selectLoop (h : Unthrowing d scoring) (env : BuildEnv) (mempool : List Tx) (maxTransactions : Nat)
    (deadline : UInt64) :
    ∀ (rounds round : Nat) (ov : Ov) (selected : List Tx) (indices : List Nat), ∃ result,
      selectLoop d scoring env mempool maxTransactions deadline rounds round ov selected indices = .ok result := by
  intro rounds
  induction rounds with
  | zero => exact fun _ _ _ _ => ⟨_, rfl⟩
  | succ rounds ih =>
    intro round ov selected indices
    unfold MagelessChain.selectLoop
    split
    · obtain ⟨⟨value, best⟩, eq⟩ := h.bestOf env round ov mempool indices
      rw [eq]
      cases best with
      | none => exact ⟨_, rfl⟩
      | some i =>
        obtain ⟨-, tx, found, -⟩ := bestOf_some eq
        obtain ⟨ov', result, applied⟩ := h.applies (env.visible round mempool.length) tx ov
        simp only [found, applied]
        split
        · split
          · exact ⟨_, rfl⟩
          · exact ih _ _ _ _
        · exact ⟨_, rfl⟩
    · exact ⟨_, rfl⟩

/-- A builder the application never throws at returns. -/
theorem Unthrowing.buildBlock (h : Unthrowing d scoring) (mempool : List Tx) (maxTransactions : UInt16) (deadline : UInt64) :
    ∃ selected rest, buildBlock d scoring env mempool maxTransactions deadline = .ok (selected, rest) := by
  unfold MagelessChain.buildBlock
  split
  · exact ⟨_, _, rfl⟩
  · obtain ⟨⟨selected, indices⟩, loop⟩ := h.selectLoop env mempool maxTransactions.toNat deadline mempool.length 0
      d.freshOverride [] []
    rw [loop]
    exact ⟨_, _, rfl⟩

/-- **The block builder** partitions the mempool: what it selects, at most as many transactions as
it was asked for, and what it leaves, in the order it had, are together what was there. It returns
unless the application throws. -/
theorem buildBlock_partitions (d : ChainDesign Tx Ov) (scoring : Scoring Tx Ov Val) (env : BuildEnv) (mempool : List Tx)
    (maxTransactions : UInt16) (deadline : UInt64) :
    (∀ selected rest, buildBlock d scoring env mempool maxTransactions deadline = .ok (selected, rest) →
      (selected ++ rest).Perm mempool ∧ rest.Sublist mempool ∧ selected.length ≤ maxTransactions.toNat) ∧
    (Unthrowing d scoring → ∃ selected rest,
      buildBlock d scoring env mempool maxTransactions deadline = .ok (selected, rest)) :=
  ⟨fun _ _ built => ⟨buildBlock_perm built, buildBlock_sublist built, buildBlock_length built⟩,
    fun calm => calm.buildBlock mempool maxTransactions deadline⟩

end Facts

end MagelessChain
