import MagelessChain.Lib.FloatOrder
import MagelessChain.Frontend.Conservation
import MagelessChain.Frontend.Speculative

/-!
# What the builder hands to the backend

The builder selects by value, and the backend admits by `verify` and by size. A selected
transaction has a value from zero on in the state its predecessors leave, which says nothing
about `verify` unless the application makes it so. Its number of transactions is bounded by the
target throughput, narrowed to 16 bits, which is unrelated to what the backend takes.
-/

namespace MagelessChain

open Lib

variable {τ Tx Ov Val : Type}

/-! ## Value and verification -/

/-- The transaction has a value from zero on in the state. -/
def Scoring.Worth (scoring : Scoring Tx Ov Val) (view : Visible) (ov : Ov) (tx : Tx) : Prop :=
  ∃ value, scoring.computeValue view tx ov = .ok value ∧ scoring.nonneg value = true

section Build

variable {d : ChainDesign Tx Ov} {scoring : Scoring Tx Ov Val} {env : BuildEnv}

/-- The simulated state stands behind the selected transactions, each worth something in its place. -/
structure Simulated (d : ChainDesign Tx Ov) (scoring : Scoring Tx Ov Val) (view : Visible) (ov : Ov) (selected : List Tx) :
    Prop where
  state : ov = applyAll d view d.freshOverride selected
  worth : AtEach d view (scoring.Worth view) selected

/-- Every selected transaction is worth something where it stands. -/
theorem buildBlock_worth {view : Visible} {mempool selected rest : List Tx} {maxTransactions : UInt16} {deadline : UInt64}
    (same : ∀ round i, env.visible round i = view)
    (built : buildBlock d scoring env mempool maxTransactions deadline = .ok (selected, rest)) :
    AtEach d view (scoring.Worth view) selected := by
  have start : Simulated d scoring view d.freshOverride [] := ⟨rfl, AtEach.nil d view _⟩
  have pick : ∀ round ov selected taken value i tx ov' result, Simulated d scoring view ov selected →
      selected.length < maxTransactions.toNat → bestOf scoring env round ov mempool taken = .ok (value, some i) →
      mempool[i]? = some tx → scoring.nonneg value = true →
      d.apply (env.visible round mempool.length) tx ov = (ov', .ok result) →
      Simulated d scoring view ov' (selected ++ [tx]) := by
    intro round ov selected taken value i tx ov' result held _ best found worth applied
    obtain ⟨rfl, each⟩ := held
    obtain ⟨-, tx', found', scored⟩ := bestOf_some best
    obtain rfl : tx = tx' := Option.some.inj (found.symm.trans found')
    rw [same] at scored applied
    refine ⟨?_, each.snoc ⟨value, scored, worth⟩⟩
    rw [applyAll_snoc, applied]
  obtain ⟨-, -, each⟩ := buildBlock_induction start pick built
  exact each

end Build

section Verification

variable [OrderedStore τ TimestampEntry TimestampEntry.compare] {d : ChainDesign Tx Ov} {view : Visible}

/-- **What the builder selects**: each transaction is worth something in the state its predecessors
leave. If the application verifies what it values so, each verifies there, and `addBlock` on the
block does not fail verification. -/
theorem selected_verifies (d : ChainDesign Tx Ov) (scoring : Scoring Tx Ov Val) (view : Visible) (env : BuildEnv)
    (mempool : List Tx) (maxTransactions : UInt16) (deadline : UInt64) (selected rest : List Tx)
    (same : ∀ round i, env.visible round i = view)
    (built : buildBlock d scoring env mempool maxTransactions deadline = .ok (selected, rest)) :
    AtEach d view (scoring.Worth view) selected ∧
      ((∀ done, (∀ tx ∈ done, tx ∈ mempool) → ∀ tx ∈ mempool,
          scoring.Worth view (applyAll d view d.freshOverride done) tx →
            d.Verifies view (applyAll d view d.freshOverride done) tx) →
        AtEach d view (d.Verifies view) selected ∧
        ∀ (config : BlockchainConfig) (env' : Nat → Env) (millis : UInt64) (b : Backend τ) (e : Exn),
          (∀ k, (env' k).visible = view) →
          (b.addBlock d config env' selected millis).1 ≠ some (.threw .verification e)) := by
  have worth := buildBlock_worth same built
  have inside : ∀ tx ∈ selected, tx ∈ mempool := fun tx mem =>
    (buildBlock_perm built).mem_iff.1 (List.mem_append_left _ mem)
  refine ⟨worth, fun agrees => ?_⟩
  have each : AtEach d view (d.Verifies view) selected := by
    intro i here
    refine agrees _ (fun tx mem => inside tx (List.mem_of_mem_take mem)) _ (inside _ (List.getElem_mem here)) ?_
    exact worth i here
  exact ⟨each, fun config env' millis b e sees => addBlock_verifies sees each e⟩

/-- With no transaction above 8 in the mempool the application values what it verifies. -/
theorem selected_verifies_picky :
    AtEach pickySetup.design (fun _ => 0) (pickySetup.design.Verifies fun _ => 0) [8, 4] ∧
      ((Backend.fresh : Backend (SortedRecords TimestampEntry TimestampEntry.compare)).addBlock pickySetup.design briskConfig
        (fun _ => Env.calm fun _ => 0) [8, 4] 100).1 ≠
          some (.threw .verification (.runtimeError "Transaction verification failed")) := by
  have built := selected_verifies (τ := SortedRecords TimestampEntry TimestampEntry.compare) pickySetup.design
    pickySetup.scoring (fun _ => 0) ⟨fun _ _ _ => 0, fun _ => 0⟩ [4, 8] 180 0 [8, 4] [] (fun _ _ => rfl) (by rfl)
  have verified := built.2 (by
    intro done _ tx mem _
    have small : tx = 4 ∨ tx = 8 := by simpa using mem
    obtain rfl | rfl := small <;> rfl)
  exact ⟨verified.1, verified.2 briskConfig _ 100 Backend.fresh _ fun _ => rfl⟩

/-- The byte 9 is selected first, does not verify in the committed state, and `addBlock` throws. -/
theorem selected_unverified :
    buildBlock pickySetup.design pickySetup.scoring ⟨fun _ _ _ => 0, fun _ => 0⟩ [4, 9] 180 0 = .ok ([9, 4], []) ∧
    ¬ AtEach pickySetup.design (fun _ => 0) (pickySetup.design.Verifies fun _ => 0) [9, 4] ∧
    ((Backend.fresh : Backend (SortedRecords TimestampEntry TimestampEntry.compare)).addBlock pickySetup.design briskConfig
      (fun _ => Env.calm fun _ => 0) [9, 4] 100).1 =
        some (.threw .verification (.runtimeError "Transaction verification failed")) := by
  refine ⟨by rfl, fun each => ?_, picky_throws⟩
  have first : false = true := each 0 (by decide)
  cases first

end Verification

/-! ## The size of a block -/

/-- The comparisons of the builder on `float` values. -/
def floatScoring (computeValue : Visible → Tx → Ov → Except Exn Float32) : Scoring Tx Ov Float32 :=
  ⟨computeValue, fun a b => decide (a > b), fun a => decide (a ≥ 0), -1.0e30⟩

theorem unpack_floor : (-1.0e30 : Float32).toModel.unpack = .finite .negative 13234890 76 (by decide) := by
  have bits : (-1.0e30 : Float32) = Float32.ofBits 0xF149F2CA := by decide +kernel
  rw [bits]
  rfl

section Size

variable {d : ChainDesign Tx Ov} {computeValue : Visible → Tx → Ov → Except Exn Float32} {env : BuildEnv}

/-- A position that is free and worth something keeps the inner loop from ending with nothing. -/
theorem bestOf_finds {round i : Nat} {ov : Ov} {mempool : List Tx} {taken : List Nat} {tx : Tx} {val : Float32}
    {best : Float32 × Option Nat} (free : i ∉ taken) (found : mempool[i]? = some tx)
    (scored : computeValue (env.visible round i) tx ov = .ok val) (nonneg : 0 ≤ val)
    (h : bestOf (floatScoring computeValue) env round ov mempool taken = .ok best) : 0 ≤ best.1 ∧ best.2.isSome := by
  refine foldlM_reaches (a := i) (P := fun best => IsNumber best.1 ∧ (best.2 = none → best.1 = -1.0e30))
    (Q := fun best => 0 ≤ best.1 ∧ best.2.isSome) ?_ ?_ ?_ _ ?_ ?_ h
  · intro best j best' held turn
    obtain rfl | ⟨tx, val, -, -, -, above, rfl⟩ := bestOf_turn turn
    · exact held
    · exact ⟨isNumber_of_lt (of_decide_eq_true above), nofun⟩
  · intro best best' held turn
    have untaken : ¬ taken.contains i = true := by simpa using free
    simp only [if_neg untaken, found] at turn
    rw [show (floatScoring computeValue).computeValue (env.visible round i) tx ov = .ok val from scored] at turn
    cases turn
    split
    · exact ⟨nonneg, rfl⟩
    · rename_i below
      -- the best value so far is from zero on, so it is not the floor it started from
      have above : ¬ best.1 < val := fun lt => below (decide_eq_true lt)
      have better := nonneg_of_not_lt held.1 nonneg above
      refine ⟨better, Option.isSome_iff_ne_none.2 fun none => ?_⟩
      rw [held.2 none] at above
      exact above (lt_of_negative unpack_floor nonneg)
  · intro best j best' held turn
    obtain rfl | ⟨tx, val, -, -, -, above, rfl⟩ := bestOf_turn turn
    · exact held
    · exact ⟨nonneg_of_lt held.1 (of_decide_eq_true above), rfl⟩
  · exact List.mem_range.2 (List.getElem?_eq_some_iff.1 found).1
  · refine ⟨?_, fun _ => rfl⟩
    intro nan
    rw [show (floatScoring computeValue).floor = -1.0e30 from rfl, unpack_floor] at nan
    cases nan

/-- A builder asked for at least one transaction selects one, if one is worth something to begin
with. -/
theorem buildBlock_nonempty {mempool selected rest : List Tx} {maxTransactions : UInt16} {deadline : UInt64} {i : Nat}
    {tx : Tx} {val : Float32} (asked : 0 < maxTransactions.toNat) (found : mempool[i]? = some tx)
    (scored : computeValue (env.visible 0 i) tx d.freshOverride = .ok val) (nonneg : 0 ≤ val)
    (built : buildBlock d (floatScoring computeValue) env mempool maxTransactions deadline = .ok (selected, rest)) :
    selected ≠ [] := by
  have inside : i < mempool.length := (List.getElem?_eq_some_iff.1 found).1
  obtain ⟨rounds, size⟩ := Nat.exists_eq_succ_of_ne_zero (Nat.ne_of_gt (Nat.lt_of_le_of_lt (Nat.zero_le i) inside))
  rintro rfl
  unfold buildBlock at built
  rw [if_neg (by omega)] at built
  split at built
  · cases built
  · rename_i selected indices loop
    cases built
    rw [size, selectLoop, if_pos ⟨asked, by rw [size]; exact Nat.succ_pos _⟩] at loop
    split at loop
    · cases loop
    · rename_i value best
      have finds := bestOf_finds (List.not_mem_nil) found scored nonneg best
      exact absurd finds.2 (by simp)
    · rename_i value j best
      obtain ⟨-, tx', there, -⟩ := bestOf_some best
      have finds := bestOf_finds (List.not_mem_nil) found scored nonneg best
      have worth : (floatScoring computeValue).nonneg value = true := decide_eq_true finds.1
      simp only [there, if_pos worth] at loop
      split at loop
      · cases loop
      · split at loop
        · cases loop
        · -- what is selected later stands behind the first pick
          obtain ⟨-, more, -⟩ := selectLoop_rule (P := fun _ selected _ => selected ≠ [])
            (fun _ _ _ _ _ _ _ _ _ _ _ _ _ _ _ => by simp) rounds (by simp) loop
          exact more rfl

/-- Some position is left as long as fewer are taken than there are. -/
theorem exists_free {taken : List Nat} {n : Nat} (fewer : taken.length < n) : ∃ i, i < n ∧ i ∉ taken := by
  by_contra all
  have covered : List.range n ⊆ taken := by
    intro i mem
    by_contra free
    exact all ⟨i, List.mem_range.1 mem, free⟩
  have le := (List.nodup_range.subperm covered).length_le
  rw [List.length_range] at le
  omega

/-- A builder that has time, and to which every transaction is worth something, fills the block. -/
theorem selectLoop_fills (d : ChainDesign Tx Ov) (computeValue : Visible → Tx → Ov → Except Exn Float32) (env : BuildEnv)
    (mempool : List Tx) (maxTransactions : Nat) (deadline : UInt64)
    (applies : ∀ visible tx ov, ∃ ov' result, d.apply visible tx ov = (ov', .ok result))
    (worth : ∀ visible tx ov, ∃ val, computeValue visible tx ov = .ok val ∧ 0 ≤ val)
    (time : ∀ round, env.clock round < deadline) :
    ∀ (rounds round : Nat) (ov : Ov) (selected : List Tx) (indices : List Nat), selected.length = indices.length →
      selected.length ≤ min maxTransactions mempool.length → mempool.length ≤ indices.length + rounds →
      ∃ selected' indices', selectLoop d (floatScoring computeValue) env mempool maxTransactions deadline rounds round ov
        selected indices = .ok (selected', indices') ∧ selected'.length = min maxTransactions mempool.length := by
  intro rounds
  induction rounds with
  | zero =>
    intro round ov selected indices same le all
    exact ⟨selected, indices, rfl, by omega⟩
  | succ rounds ih =>
    intro round ov selected indices same le all
    unfold selectLoop
    split
    · rename_i going
      obtain ⟨i, inside, free⟩ := exists_free going.2
      have calm : Unthrowing d (floatScoring computeValue) := ⟨fun visible tx ov => by
        obtain ⟨val, scored, -⟩ := worth visible tx ov
        exact ⟨val, scored⟩, applies⟩
      obtain ⟨⟨value, best⟩, eq⟩ := calm.bestOf env round ov mempool indices
      obtain ⟨val, scored, nonneg⟩ := worth (env.visible round i) mempool[i] ov
      obtain ⟨better, some⟩ := bestOf_finds free (List.getElem?_eq_getElem inside) scored nonneg eq
      obtain ⟨j, rfl⟩ := Option.isSome_iff_exists.1 some
      obtain ⟨-, tx, found, -⟩ := bestOf_some eq
      obtain ⟨ov', result, applied⟩ := applies (env.visible round mempool.length) tx ov
      have early : ¬ (deadline ≠ 0 ∧ env.clock round ≥ deadline) := fun late => UInt64.not_lt.2 late.2 (time round)
      simp only [eq, found, if_pos (show (floatScoring computeValue).nonneg value = true from decide_eq_true better),
        applied, if_neg early]
      apply ih
      · rw [List.length_append, List.length_append, same]
        rfl
      · rw [List.length_append, List.length_singleton]
        omega
      · rw [List.length_append, List.length_singleton]
        omega
    · rename_i full
      exact ⟨selected, indices, rfl, by omega⟩

end Size

/-- Blocks of 1 to 1024 transactions pass the gate at some time after the last block. -/
theorem gate_passes (config : BlockchainConfig) {size : Nat} (some : 0 < size) (few : size ≤ maxTxPerBlock) :
    ∃ duration, gate config size duration = .pass := by
  refine ⟨600000, ?_⟩
  have bound := blockTime_le config size
  unfold gate
  split
  · rfl
  · have time : (600000 : UInt64).toNat = 600000 := by decide
    unfold longTimeMillis
    rw [narrowSize_eq few, if_neg (by omega), if_neg (by omega)]

/-- A larger block never passes. -/
theorem gate_rejects (config : BlockchainConfig) {size : Nat} (many : maxTxPerBlock < size) (divides : narrowSize size ≠ 0)
    (duration : UInt64) : gate config size duration = .reject := by
  unfold gate
  rw [if_neg (by omega), if_neg divides, if_pos (.inr (.inr many))]

/-- A frontend with this configuration hands over blocks of admissible size, whatever the application
and the mempool: at most 1024 transactions, at least one if one of them is worth something in the
committed state, and so a number the gate of any backend passes at some time. -/
def SizesAdmissible (config : BlockchainConfig) : Prop :=
  ∀ (Tx Ov : Type) (d : ChainDesign Tx Ov) (computeValue : Visible → Tx → Ov → Except Exn Float32) (env : BuildEnv)
    (now : UInt64) (mempool selected rest : List Tx),
    buildBlock d (floatScoring computeValue) env mempool config.targetThroughput.toUInt16 (now + 10) =
      .ok (selected, rest) →
    selected.length ≤ maxTxPerBlock ∧
    ((∃ i tx val, mempool[i]? = some tx ∧ computeValue (env.visible 0 i) tx d.freshOverride = .ok val ∧ 0 ≤ val) →
      selected ≠ []) ∧
    (selected ≠ [] → ∀ backendConfig, ∃ duration, gate backendConfig selected.length duration = .pass)

/-- Every transaction is worth one. -/
def worthOne : Visible → UInt8 → Unit → Except Exn Float32 := fun _ _ _ => .ok 1

theorem one_nonneg : (0 : Float32) ≤ 1 := by
  rw [float_le_iff]
  rfl

/-- Transactions of one byte, each worth one, fill the block. -/
theorem buildBlock_worthOne (mempool : List UInt8) (maxTransactions : UInt16) :
    ∃ selected rest, buildBlock byteDesign (floatScoring worthOne) ⟨fun _ _ _ => 0, fun _ => 0⟩ mempool maxTransactions
      (0 + 10) = .ok (selected, rest) ∧ selected.length = min maxTransactions.toNat mempool.length := by
  unfold buildBlock
  split
  · rename_i empty
    exact ⟨_, _, rfl, by rw [empty, Nat.min_zero, List.length_nil]⟩
  · have early : (0 : UInt64) < 0 + 10 := by decide
    obtain ⟨selected, indices, loop, length⟩ := selectLoop_fills byteDesign worthOne ⟨fun _ _ _ => 0, fun _ => 0⟩ mempool
      maxTransactions.toNat (0 + 10) (fun _ _ _ => ⟨_, _, rfl⟩) (fun _ _ _ => ⟨1, rfl, one_nonneg⟩) (fun _ => early)
      mempool.length 0 () [] [] rfl (Nat.zero_le _) (Nat.le_add_left _ _)
    rw [loop]
    exact ⟨selected, _, rfl, length⟩

/-- **The size of a block** is admissible exactly under a target throughput whose low 16 bits are
between 1 and 1024. -/
theorem block_sizes_admissible (config : BlockchainConfig) : SizesAdmissible config ↔
    1 ≤ config.targetThroughput.toNat % 65536 ∧ config.targetThroughput.toNat % 65536 ≤ maxTxPerBlock := by
  have narrow : config.targetThroughput.toUInt16.toNat = config.targetThroughput.toNat % 65536 :=
    UInt32.toNat_toUInt16 _
  constructor
  · intro admissible
    obtain ⟨selected, rest, built, length⟩ := buildBlock_worthOne (List.replicate 1025 0) config.targetThroughput.toUInt16
    obtain ⟨few, some, -⟩ := admissible UInt8 Unit byteDesign worthOne _ 0 _ selected rest built
    rw [List.length_replicate, narrow] at length
    have first : (List.replicate 1025 (0 : UInt8))[0]? = Option.some 0 := by
      rw [List.getElem?_replicate, if_pos (by decide)]
    have nonempty := some ⟨0, 0, 1, first, rfl, one_nonneg⟩
    have positive : 0 < selected.length := List.length_pos_iff.2 nonempty
    unfold maxTxPerBlock at few ⊢
    omega
  · rintro ⟨asked, few⟩ Tx Ov d computeValue env now mempool selected rest built
    have length := buildBlock_length built
    rw [narrow] at length
    refine ⟨Nat.le_trans length few, ?_, ?_⟩
    · rintro ⟨i, tx, val, found, scored, nonneg⟩
      exact buildBlock_nonempty (by omega) found scored nonneg built
    · intro some backendConfig
      exact gate_passes backendConfig (List.length_pos_iff.2 some) (Nat.le_trans length few)

/-- A target of 65536 is narrowed to zero, and nothing is ever selected. A target of 1025 makes a
full block one that no backend takes at any time. -/
theorem block_sizes_inadmissible :
    buildBlock byteDesign (floatScoring worthOne) ⟨fun _ _ _ => 0, fun _ => 0⟩ [7] (65536 : UInt32).toUInt16 (0 + 10) =
      .ok ([], [7]) ∧
    (∃ selected rest, buildBlock byteDesign (floatScoring worthOne) ⟨fun _ _ _ => 0, fun _ => 0⟩ (List.replicate 1025 7)
      (1025 : UInt32).toUInt16 (0 + 10) = .ok (selected, rest) ∧ selected.length = 1025 ∧
      ∀ backendConfig duration, gate backendConfig selected.length duration = .reject) ∧
    ¬ SizesAdmissible ⟨60000, 65536⟩ ∧ ¬ SizesAdmissible ⟨60000, 1025⟩ := by
  have asked : (1025 : UInt32).toUInt16.toNat = 1025 := by decide
  obtain ⟨selected, rest, built, length⟩ := buildBlock_worthOne (List.replicate 1025 7) (1025 : UInt32).toUInt16
  rw [List.length_replicate, asked] at length
  refine ⟨by rfl, ⟨selected, rest, built, length, fun backendConfig duration => ?_⟩, fun admissible => ?_, fun admissible => ?_⟩
  · exact gate_rejects backendConfig (by rw [length]; decide) (by rw [length]; decide) duration
  · obtain ⟨-, some, -⟩ := admissible UInt8 Unit byteDesign worthOne ⟨fun _ _ _ => 0, fun _ => 0⟩ 0 [7] [] [7] (by rfl)
    exact some ⟨0, 7, 1, rfl, rfl, one_nonneg⟩ rfl
  · obtain ⟨few, -, -⟩ := admissible UInt8 Unit byteDesign worthOne _ 0 _ selected rest built
    rw [length] at few
    exact absurd few (by decide)

end MagelessChain
