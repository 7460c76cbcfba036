import MagelessChain.Backend.RoundTrip

/-!
# The overrides of a call

`addBlock` applies a block twice: in the verification loop, to a state that is thrown away, and
in the commit loop, to the override it seals. Neither looks at what `apply` returns. So the sealed
override has every write of every transaction, those of failed ones included, and failed
transactions leave no state only if the application sees to it.
-/

namespace MagelessChain

open Lib

variable {τ Tx Ov : Type}

/-- Apply transactions in order. -/
def applyAll (d : ChainDesign Tx Ov) (visible : Visible) (ov : Ov) (txs : List Tx) : Ov :=
  txs.foldl (fun ov tx => (d.apply visible tx ov).1) ov

theorem applyAll_snoc (d : ChainDesign Tx Ov) (visible : Visible) (ov : Ov) (txs : List Tx) (tx : Tx) :
    applyAll d visible ov (txs ++ [tx]) = (d.apply visible tx (applyAll d visible ov txs)).1 := by
  simp [applyAll]

/-- One more transaction of a list is applied. -/
theorem applied_next {d : ChainDesign Tx Ov} {visible : Visible} {ov ov' : Ov} {txs done todo : List Tx} {tx : Tx}
    {result : Bool} (parts : txs = done ++ tx :: todo)
    (applied : d.apply visible tx (applyAll d visible ov done) = (ov', .ok result)) :
    txs = (done ++ [tx]) ++ todo ∧ ov' = applyAll d visible ov (done ++ [tx]) := by
  constructor
  · rw [List.append_assoc]
    exact parts
  · rw [applyAll_snoc, applied]

/-- `P` holds of every transaction in the state its predecessors leave. -/
def AtEach (d : ChainDesign Tx Ov) (view : Visible) (P : Ov → Tx → Prop) (txs : List Tx) : Prop :=
  ∀ i (inside : i < txs.length), P (applyAll d view d.freshOverride (txs.take i)) txs[i]

section Each

variable {d : ChainDesign Tx Ov} {view : Visible} {P Q : Ov → Tx → Prop} {txs : List Tx} {tx : Tx}

theorem AtEach.nil (d : ChainDesign Tx Ov) (view : Visible) (P : Ov → Tx → Prop) : AtEach d view P [] :=
  fun _ inside => absurd inside (Nat.not_lt_zero _)

theorem AtEach.snoc (h : AtEach d view P txs) (last : P (applyAll d view d.freshOverride txs) tx) :
    AtEach d view P (txs ++ [tx]) := by
  intro i inside
  rw [List.length_append, List.length_singleton] at inside
  obtain lt | rfl := Nat.lt_succ_iff_lt_or_eq.1 inside
  · rw [List.take_append_of_le_length (Nat.le_of_lt lt), List.getElem_append_left lt]
    exact h i lt
  · rw [List.take_append_of_le_length (Nat.le_refl _), List.take_length]
    simpa using last

/-- The transaction behind a prefix. -/
theorem AtEach.at {done todo : List Tx} (h : AtEach d view P (done ++ tx :: todo)) :
    P (applyAll d view d.freshOverride done) tx := by
  have here := h done.length (by simp)
  simpa using here

theorem AtEach.initial {done todo : List Tx} (h : AtEach d view P (done ++ todo)) : AtEach d view P done := by
  intro i inside
  have here := h i (by rw [List.length_append]; omega)
  rw [List.take_append_of_le_length (Nat.le_of_lt inside), List.getElem_append_left inside] at here
  exact here

end Each

/-- The transaction verifies in the state. -/
def ChainDesign.Verifies (d : ChainDesign Tx Ov) (view : Visible) (ov : Ov) (tx : Tx) : Prop := d.verify view ov tx = true

/-- The transaction verifies in the state, and its `apply` returns there. -/
structure ChainDesign.Passes (d : ChainDesign Tx Ov) (view : Visible) (ov : Ov) (tx : Tx) : Prop where
  verifies : d.Verifies view ov tx
  applies : ∃ ov' result, d.apply view tx ov = (ov', .ok result)

/-- The writing of the transaction returns. -/
def ChainDesign.Writes (d : ChainDesign Tx Ov) (tx : Tx) : Prop := (d.write tx).2 = none

/-- A block `addBlock` can accept over a committed state: its size is admissible, every transaction
verifies and applies where it stands, and each is written. -/
structure Acceptable (d : ChainDesign Tx Ov) (view : Visible) (txs : List Tx) : Prop where
  nonempty : 0 < txs.length
  few : txs.length ≤ maxTxPerBlock
  passes : AtEach d view (d.Passes view) txs
  writes : ∀ tx ∈ txs, d.Writes tx

/-- Each transaction of an acceptable block passes where it stands. -/
theorem Acceptable.at {done todo : List Tx} (h : Acceptable d view txs) (parts : txs = done ++ tx :: todo) :
    d.Passes view (applyAll d view d.freshOverride done) tx := by
  have passes := h.passes
  rw [parts] at passes
  exact passes.at

/-- How far a call of `addBlock` has got with its block, under one committed state. -/
def Simulating (d : ChainDesign Tx Ov) (view : Visible) (c : Commit τ Tx Ov) : Prop :=
  match c.pc with
  | .enter | .returned _ | .died _ => True
  | .verify todo ov => (0 < c.txs.length ∧ c.txs.length ≤ maxTxPerBlock) ∧
      ∃ done, c.txs = done ++ todo ∧ ov = applyAll d view d.freshOverride done ∧ AtEach d view (d.Passes view) done
  | .verifyApply tx todo ov => (0 < c.txs.length ∧ c.txs.length ≤ maxTxPerBlock) ∧
      ∃ done, c.txs = done ++ tx :: todo ∧ ov = applyAll d view d.freshOverride done ∧
        AtEach d view (d.Passes view) done ∧ d.Verifies view ov tx
  | .threw .verification _ => ¬ AtEach d view (d.Verifies view) c.txs
  | .threw _ _ => True
  | .takeNumber | .openEpoch _ | .blockHeader _ => (0 < c.txs.length ∧ c.txs.length ≤ maxTxPerBlock) ∧
      AtEach d view (d.Passes view) c.txs
  | .transactions _ todo => (0 < c.txs.length ∧ c.txs.length ≤ maxTxPerBlock) ∧ AtEach d view (d.Passes view) c.txs ∧
      ∃ done, c.txs = done ++ todo ∧ ∀ tx ∈ done, d.Writes tx
  | .nextSlot _ | .setTimestamp _ | .track _ => Acceptable d view c.txs
  | .commitApply _ todo ov => Acceptable d view c.txs ∧
      ∃ done, c.txs = done ++ todo ∧ ov = applyAll d view d.freshOverride done
  | .sealing _ _ ov | .writeSegment _ _ ov _ _ => Acceptable d view c.txs ∧ ov = applyAll d view d.freshOverride c.txs
  | .report _ | .sync _ | .finish _ => True

variable [OrderedStore τ TimestampEntry TimestampEntry.compare]

section Steps

variable {d : ChainDesign Tx Ov} {config : BlockchainConfig} {view : Visible}

theorem Simulating.step {env : Env} {c : Commit τ Tx Ov} (sees : env.visible = view) (h : Simulating d view c) :
    Simulating d view (AddBlock.step d config env c) := by
  obtain ⟨txs, millis, duration, pc, b⟩ := c
  cases pc with
  | enter =>
    simp only [AddBlock.step]
    split
    · rename_i pass
      exact ⟨gate_pass pass, [], rfl, rfl, AtEach.nil d view _⟩
    · trivial
    · trivial
  | verify todo ov =>
    obtain ⟨size, done, parts, rfl, each⟩ := h
    cases todo with
    | nil =>
      obtain rfl : txs = done := parts.trans (List.append_nil done)
      exact ⟨size, each⟩
    | cons tx todo =>
      simp only [AddBlock.step, sees]
      split
      · rename_i verifies
        exact ⟨size, done, parts, rfl, each, verifies⟩
      · rename_i fails
        intro all
        obtain rfl : txs = done ++ tx :: todo := parts
        exact fails all.at
  | verifyApply tx todo ov =>
    obtain ⟨size, done, parts, rfl, each, verifies⟩ := h
    simp only [AddBlock.step, sees]
    split
    · rename_i ov' result applied
      obtain ⟨parts', next⟩ := applied_next parts applied
      exact ⟨size, done ++ [tx], parts', next, each.snoc ⟨verifies, ov', result, applied⟩⟩
    · trivial
  | openEpoch n =>
    simp only [AddBlock.step]
    split
    · exact h
    · trivial
    · trivial
  | blockHeader n => exact ⟨h.1, h.2, [], rfl, by simp⟩
  | transactions n todo =>
    obtain ⟨size, each, done, parts, writes⟩ := h
    cases todo with
    | nil =>
      obtain rfl : txs = done := parts.trans (List.append_nil done)
      simp only [AddBlock.step]
      split <;> exact ⟨size.1, size.2, each, writes⟩
    | cons tx todo =>
      simp only [AddBlock.step]
      split
      · rename_i wrote
        refine ⟨size, each, done ++ [tx], ?_, fun tx' mem => ?_⟩
        · rw [List.append_assoc]
          exact parts
        · obtain mem | mem := List.mem_append.1 mem
          · exact writes tx' mem
          · rw [List.mem_singleton.1 mem]
            exact wrote
      · trivial
  | track n =>
    simp only [AddBlock.step]
    split
    · trivial
    · exact ⟨h, [], rfl, rfl⟩
  | commitApply n todo ov =>
    obtain ⟨accepted, done, parts, rfl⟩ := h
    cases todo with
    | nil =>
      obtain rfl : txs = done := parts.trans (List.append_nil done)
      exact ⟨accepted, rfl⟩
    | cons tx todo =>
      simp only [AddBlock.step, sees]
      split
      · rename_i ov' result applied
        exact ⟨accepted, done ++ [tx], applied_next parts applied⟩
      · trivial
  | sealing n i ov =>
    simp only [AddBlock.step]
    split
    · split
      · trivial
      · split
        · exact h
        · split <;> exact h
    · trivial
  | writeSegment n i ov version payload =>
    simp only [AddBlock.step]
    split
    · trivial
    · exact h
  | report n =>
    simp only [AddBlock.step]
    split <;> trivial
  | threw site e => cases site <;> exact h
  | _ => exact h

/-- A call under one committed state, after any number of steps. -/
theorem Simulating.after {env : Nat → Env} (sees : ∀ k, (env k).visible = view) (config : BlockchainConfig) (txs : List Tx)
    (millis : UInt64) (b : Backend τ) (k : Nat) :
    Simulating d view ((AddBlock.machine d config).after env k (AddBlock.start txs millis b)) :=
  (AddBlock.machine d config).after_induction (P := Simulating d view) (s := AddBlock.start txs millis b) env trivial
    (fun i _ h => h.step (sees i)) k

/-- What a call that seals has accepted, and the override it seals. -/
theorem sealing_override {env : Nat → Env} (sees : ∀ k, (env k).visible = view) {txs : List Tx} {millis n : UInt64}
    {b : Backend τ} {k i : Nat} {ov : Ov}
    (here : ((AddBlock.machine d config).after env k (AddBlock.start txs millis b)).pc = .sealing n i ov) :
    Acceptable d view txs ∧ ov = applyAll d view d.freshOverride txs := by
  have simulating : Simulating d view ((AddBlock.machine d config).after env k (AddBlock.start txs millis b)) :=
    Simulating.after sees config txs millis b k
  unfold Simulating at simulating
  rw [here, (after_args d config env txs millis b k).1] at simulating
  exact simulating

/-- A block every transaction of which verifies where it stands does not fail verification. -/
theorem addBlock_verifies {env : Nat → Env} {txs : List Tx} {millis : UInt64} {b : Backend τ}
    (sees : ∀ k, (env k).visible = view) (each : AtEach d view (d.Verifies view) txs) (e : Exn) :
    (b.addBlock d config env txs millis).1 ≠ some (.threw .verification e) := by
  intro threw
  have simulating : Simulating d view (b.addBlockEnd d config env txs millis) := Simulating.after sees config txs millis b _
  have args : (b.addBlockEnd d config env txs millis).txs = txs := (after_args d config env txs millis b _).1
  unfold Simulating at simulating
  rw [outcome_eq threw, args] at simulating
  exact simulating each

/-- A call on its way to seal an acceptable block, with nothing failing outside the application. -/
def Accepting (d : ChainDesign Tx Ov) (view : Visible) (config : BlockchainConfig) (txs : List Tx) (c : Commit τ Tx Ov) :
    Prop :=
  c.txs = txs ∧
  match c.pc with
  | .enter => gate config txs.length (c.millis - c.backend.metadata.lastBlockTimestamp) = .pass
  | .verify todo ov => ∃ done, txs = done ++ todo ∧ ov = applyAll d view d.freshOverride done
  | .verifyApply tx todo ov => ∃ done, txs = done ++ tx :: todo ∧ ov = applyAll d view d.freshOverride done
  | .transactions _ todo => ∃ done, txs = done ++ todo
  | .commitApply _ todo ov => ∃ done, txs = done ++ todo ∧ ov = applyAll d view d.freshOverride done
  | .takeNumber | .openEpoch _ | .blockHeader _ | .nextSlot _ | .setTimestamp _ | .track _ => True
  | _ => False

theorem Accepting.step {env : Env} {txs : List Tx} {c : Commit τ Tx Ov} (accepted : Acceptable d view txs)
    (sees : env.visible = view) (quiet : env.Quiet) (h : Accepting d view config txs c) :
    Accepting d view config txs (AddBlock.step d config env c) ∨
      ∃ n, (AddBlock.step d config env c).pc = .sealing n 0 (applyAll d view d.freshOverride txs) := by
  obtain ⟨txs', millis, duration, pc, b⟩ := c
  obtain ⟨opens, tracks, routes⟩ := quiet
  obtain ⟨rfl : txs' = txs, h⟩ := h
  cases pc with
  | enter =>
    simp only [AddBlock.step]
    rw [show gate config txs'.length (millis - b.metadata.lastBlockTimestamp) = .pass from h]
    exact .inl ⟨rfl, [], rfl, rfl⟩
  | verify todo ov =>
    obtain ⟨done, parts, rfl⟩ := h
    cases todo with
    | nil => exact .inl ⟨rfl, trivial⟩
    | cons tx todo =>
      have verifies : d.verify view (applyAll d view d.freshOverride done) tx = true := (accepted.at parts).verifies
      simp only [AddBlock.step, sees]
      rw [if_pos verifies]
      exact .inl ⟨rfl, done, parts, rfl⟩
  | verifyApply tx todo ov =>
    obtain ⟨done, parts, rfl⟩ := h
    obtain ⟨ov', result, applied⟩ := (accepted.at parts).applies
    simp only [AddBlock.step, sees, applied]
    exact .inl ⟨rfl, done ++ [tx], applied_next parts applied⟩
  | takeNumber => exact .inl ⟨rfl, trivial⟩
  | openEpoch n =>
    simp only [AddBlock.step, Backend.getEpochFile, opens]
    split
    · exact .inl ⟨rfl, trivial⟩
    · rename_i eq
      split at eq <;> simp at eq
    · rename_i eq
      split at eq <;> simp at eq
  | blockHeader n => exact .inl ⟨rfl, [], rfl⟩
  | transactions n todo =>
    obtain ⟨done, parts⟩ := h
    cases todo with
    | nil =>
      simp only [AddBlock.step]
      split <;> exact .inl ⟨rfl, trivial⟩
    | cons tx todo =>
      have wrote : (d.write tx).2 = none := accepted.writes tx (by rw [parts]; simp)
      simp only [AddBlock.step, wrote]
      exact .inl ⟨rfl, done ++ [tx], by rw [List.append_assoc]; exact parts⟩
  | nextSlot n => exact .inl ⟨rfl, trivial⟩
  | setTimestamp n => exact .inl ⟨rfl, trivial⟩
  | track n =>
    simp only [AddBlock.step, tracks]
    exact .inl ⟨rfl, [], rfl, rfl⟩
  | commitApply n todo ov =>
    obtain ⟨done, parts, rfl⟩ := h
    cases todo with
    | nil =>
      right
      obtain rfl : txs' = done := parts.trans (List.append_nil done)
      exact ⟨n, rfl⟩
    | cons tx todo =>
      obtain ⟨ov', result, applied⟩ := (accepted.at parts).applies
      simp only [AddBlock.step, sees, applied]
      exact .inl ⟨rfl, done ++ [tx], applied_next parts applied⟩
  | _ => exact absurd h id

omit [OrderedStore τ TimestampEntry TimestampEntry.compare] in
/-- Such a call has not ended. -/
theorem Accepting.going {txs : List Tx} {c : Commit τ Tx Ov} (h : Accepting d view config txs c) : ¬ AddBlock.halted c := by
  obtain ⟨txs', millis, duration, pc, b⟩ := c
  intro done
  cases pc with
  | returned | threw | died => exact h.2
  | _ => exact done

/-- An acceptable block gets sealed, once enough time has passed and nothing outside the application
fails. -/
theorem acceptable_seals {txs : List Tx} (env : Nat → Env) {millis : UInt64} (b : Backend τ)
    (accepted : Acceptable d view txs) (sees : ∀ k, (env k).visible = view) (quiet : ∀ k, (env k).Quiet)
    (passes : gate config txs.length (millis - b.metadata.lastBlockTimestamp) = .pass) :
    ∃ k n, ((AddBlock.machine d config).after env k (AddBlock.start txs millis b)).pc =
      .sealing n 0 (applyAll d view d.freshOverride txs) := by
  by_contra never
  have start : Accepting d view config txs (AddBlock.start txs millis b : Commit τ Tx Ov) := ⟨rfl, passes⟩
  have accepting : ∀ k, Accepting d view config txs
      ((AddBlock.machine d config).after env k (AddBlock.start txs millis b)) := by
    intro k
    induction k with
    | zero => exact start
    | succ k ih =>
      obtain on | ⟨n, here⟩ := ih.step accepted (sees k) (quiet k)
      · exact on
      · exact absurd ⟨k + 1, n, here⟩ never
  have ended := (AddBlock.machine d config).halted_run env (AddBlock.start txs millis b)
  exact (accepting _).going ended

end Steps

/-! ## Failed transactions -/

/-- Apply transactions in order, without those whose `apply` does not return true. -/
def applySuccessful (d : ChainDesign Tx Ov) (visible : Visible) (ov : Ov) (txs : List Tx) : Ov :=
  txs.foldl (fun ov tx =>
    match d.apply visible tx ov with
    | (ov', .ok true) => ov'
    | _ => ov) ov

theorem applySuccessful_snoc (d : ChainDesign Tx Ov) (visible : Visible) (ov : Ov) (txs : List Tx) (tx : Tx) :
    applySuccessful d visible ov (txs ++ [tx]) =
      match d.apply visible tx (applySuccessful d visible ov txs) with
      | (ov', .ok true) => ov'
      | _ => applySuccessful d visible ov txs := by
  simp [applySuccessful]

/-- Over this committed state failed transactions contribute no state: whatever call of `addBlock`
comes to seal its block, the override is that of the successful transactions alone, and the
journal has got all of them. -/
def FailedLeaveNoState (τ : Type) [OrderedStore τ TimestampEntry TimestampEntry.compare] (d : ChainDesign Tx Ov)
    (view : Visible) : Prop :=
  ∀ (config : BlockchainConfig) (env : Nat → Env) (txs : List Tx) (millis n : UInt64) (b : Backend τ) (k i : Nat) (ov : Ov),
    (∀ j, (env j).visible = view) →
    ((AddBlock.machine d config).after env k (AddBlock.start txs millis b)).pc = .sealing n i ov →
    ov = applySuccessful d view d.freshOverride txs ∧
    ∀ blocks, Journal d b blocks → blocks.length < maxBlocks → Fits d b (epochBlocks blocks) txs →
      Journal d ((AddBlock.machine d config).after env k (AddBlock.start txs millis b)).backend (blocks ++ [txs])

/-- A transaction that can stand at the end of an acceptable block, and fails there, leaves the
override as it finds it. -/
def FailsClean (d : ChainDesign Tx Ov) (view : Visible) : Prop :=
  ∀ done tx ov', Acceptable d view (done ++ [tx]) →
    d.apply view tx (applyAll d view d.freshOverride done) = (ov', .ok false) →
    ov' = applyAll d view d.freshOverride done

section Failed

variable {d : ChainDesign Tx Ov} {view : Visible}

theorem Acceptable.initial {done todo : List Tx} (h : Acceptable d view (done ++ todo)) (nonempty : 0 < done.length) :
    Acceptable d view done where
  nonempty := nonempty
  few := by
    have few := h.few
    rw [List.length_append] at few
    omega
  passes := h.passes.initial
  writes tx mem := h.writes tx (List.mem_append_left _ mem)

/-- With no target to wait for, 100 ms after the last block any admissible size passes. -/
theorem gate_unhurried {size : Nat} (nonempty : 0 < size) (few : size ≤ maxTxPerBlock) : gate ⟨0, 1⟩ size 100 = .pass := by
  have time : blockTime ⟨0, 1⟩ size = 100 := by
    unfold blockTime
    rw [show (0 : UInt32).toNat = 0 from rfl, Nat.zero_mul, Nat.zero_div]
    rfl
  have hundred : (100 : UInt64).toNat = 100 := rfl
  unfold gate longTimeMillis
  split
  · rfl
  · rw [narrowSize_eq few, if_neg (by omega), if_neg (by omega)]

/-- If failures are clean, leaving them out changes nothing. -/
theorem FailsClean.applyAll_eq (clean : FailsClean d view) (txs : List Tx) (accepted : txs = [] ∨ Acceptable d view txs) :
    applyAll d view d.freshOverride txs = applySuccessful d view d.freshOverride txs := by
  induction txs using List.reverseRecOn with
  | nil => rfl
  | append_singleton done tx ih =>
    obtain empty | accepted := accepted
    · simp at empty
    have before : done = [] ∨ Acceptable d view done := by
      obtain rfl | some := List.eq_nil_or_concat done
      · exact .inl rfl
      · exact .inr (accepted.initial (by obtain ⟨init, last, rfl⟩ := some; simp))
    obtain ⟨ov', result, applied⟩ := accepted.passes.at.applies
    rw [applyAll_snoc, applySuccessful_snoc, ← ih before, applied]
    cases result with
    | true => rfl
    | false => exact clean done tx ov' accepted applied

/-- **Failed transactions** contribute no state, over a committed state, exactly when the application
undoes what a failing `apply` wrote. -/
theorem failed_leave_no_state (τ : Type) [OrderedStore τ TimestampEntry TimestampEntry.compare] (d : ChainDesign Tx Ov)
    (view : Visible) : FailedLeaveNoState τ d view ↔ FailsClean d view := by
  constructor
  · intro holds done tx ov' accepted failed
    -- a call that seals a given acceptable block
    have seals : ∀ txs, Acceptable d view txs →
        applyAll d view d.freshOverride txs = applySuccessful d view d.freshOverride txs := by
      intro txs accepted
      have passes : gate ⟨0, 1⟩ txs.length (100 - (Backend.fresh : Backend τ).metadata.lastBlockTimestamp) = .pass := by
        have later : 100 - (Backend.fresh : Backend τ).metadata.lastBlockTimestamp = 100 := UInt64.sub_zero _
        rw [later]
        exact gate_unhurried accepted.nonempty accepted.few
      obtain ⟨k, n, here⟩ := acceptable_seals (fun _ => Env.calm view) Backend.fresh accepted (fun _ => rfl)
        (fun _ => ⟨rfl, rfl, rfl⟩) passes
      exact (holds _ _ txs _ n _ k 0 _ (fun _ => rfl) here).1
    have whole := seals _ accepted
    have before : applyAll d view d.freshOverride done = applySuccessful d view d.freshOverride done := by
      obtain rfl | some := List.eq_nil_or_concat done
      · rfl
      · exact seals done (accepted.initial (by obtain ⟨init, last, rfl⟩ := some; simp))
    rw [applyAll_snoc, applySuccessful_snoc, ← before, failed] at whole
    exact whole
  · intro clean config env txs millis n b k i ov sees here
    obtain ⟨accepted, rfl⟩ := sealing_override sees here
    refine ⟨clean.applyAll_eq txs (.inr accepted), fun blocks journal reach fits => ?_⟩
    exact (journal.after reach fits config env millis k).2 (by rw [here]; rfl)

/-- Transactions of one byte append themselves to the state, of which one family takes hold; the
byte 9 fails after it has written. -/
def sloppyDesign : ChainDesign UInt8 Bytes where
  freshOverride := []
  verify _ _ _ := true
  apply _ tx ov := (ov ++ [tx], .ok (tx != 9))
  write := byteDesign.write
  getFactory := byteDesign.getFactory
  familySize := 1
  indexCount := 1
  encodingVersion _ := some 1
  sealFamily _ _ ov := .ok ov

/-- The byte 9 is committed alone: what it wrote before it failed is sealed and handed to the
catalog, where the successful transactions left nothing. -/
theorem failed_leave_state :
    ((AddBlock.machine sloppyDesign briskConfig).after (fun _ => Env.calm fun _ => 0) 14
      (AddBlock.start [9] 100 (Backend.fresh : Backend (SortedRecords TimestampEntry TimestampEntry.compare)))).pc =
        .sealing 0 0 [9] ∧
    applySuccessful sloppyDesign (fun _ => 0) sloppyDesign.freshOverride [9] = [] ∧
    ((Backend.fresh : Backend (SortedRecords TimestampEntry TimestampEntry.compare)).addBlock sloppyDesign briskConfig
      (fun _ => Env.calm fun _ => 0) [9] 100).2.submitted = [⟨0, 1, 0, 0, 1, [9]⟩] ∧
    ¬ FailedLeaveNoState (SortedRecords TimestampEntry TimestampEntry.compare) sloppyDesign fun _ => 0 := by
  have here : ((AddBlock.machine sloppyDesign briskConfig).after (fun _ => Env.calm fun _ => 0) 14
      (AddBlock.start [9] 100 (Backend.fresh : Backend (SortedRecords TimestampEntry TimestampEntry.compare)))).pc =
        .sealing 0 0 [9] := by rfl
  refine ⟨here, by rfl, by decide +kernel, fun holds => ?_⟩
  obtain ⟨clean, -⟩ := holds briskConfig (fun _ => Env.calm fun _ => 0) [9] 100 0 Backend.fresh 14 0 [9] (fun _ => rfl) here
  cases clean

end Failed

end MagelessChain
