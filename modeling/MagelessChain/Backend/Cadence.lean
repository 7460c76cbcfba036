import MagelessChain.Backend.TimeWindow
import MagelessChain.Backend.Overrides

/-!
# When a block is admitted

The gate of `addBlock` compares the time since the last block with a block time that falls with the
number of transactions. Lists of 91 to 1023 transactions are refused again once an hour has gone
by, also on a chain without a block. The elapsed time is an unsigned difference, so that a clock
behind the last block is taken for an hour gone by. The sizes that divide by zero are the empty
list, in the gate, and a full block within the millisecond of the last one, in the report.
-/

namespace MagelessChain

open Lib

/-! ## Waiting -/

/-- Waiting does no harm: a list that is let through at a time is let through at every later one,
and there is a time from which it is. -/
def WaitingHelps (config : BlockchainConfig) (lastBlockTimestamp : UInt64) (size : Nat) : Prop :=
  (∀ t t' : UInt64, lastBlockTimestamp ≤ t → t ≤ t' → gate config size (t - lastBlockTimestamp) = .pass →
    gate config size (t' - lastBlockTimestamp) = .pass) ∧
  ∃ start : UInt64, lastBlockTimestamp ≤ start ∧ ∀ t, start ≤ t → gate config size (t - lastBlockTimestamp) = .pass

section Waiting

variable {config : BlockchainConfig} {size : Nat}

/-- When the gate passes a list of admissible size that is not full. -/
theorem gate_pass_iff (some : 0 < size) (few : size < maxTxPerBlock) (duration : UInt64) :
    gate config size duration = .pass ↔
      blockTime config size ≤ duration.toNat ∧ (size ≤ 90 ∨ duration.toNat ≤ 3600000) := by
  unfold gate longTimeMillis wantedTxPerBlock
  rw [if_neg (by omega), narrowSize_eq (by omega), if_neg (by omega)]
  split
  · rename_i refused
    exact iff_of_false (by intro eq; cases eq) (by omega)
  · rename_i passed
    exact iff_of_true rfl (by omega)

theorem gate_divides_iff (config : BlockchainConfig) (size : Nat) (duration : UInt64) :
    gate config size duration = .divideByZero ↔ narrowSize size = 0 := by
  unfold gate
  split
  · rename_i full
    rw [full]
    exact iff_of_false (by intro eq; cases eq) (by decide)
  · split
    · exact iff_of_true rfl ‹_›
    · split <;> exact iff_of_false (by intro eq; cases eq) ‹_›

theorem gate_full (config : BlockchainConfig) (duration : UInt64) : gate config maxTxPerBlock duration = .pass :=
  if_pos rfl

/-- The same in terms of the times the gate takes the difference of. -/
theorem gate_pass_at {t last : UInt64} (some : 0 < size) (few : size < maxTxPerBlock) (later : last ≤ t) :
    gate config size (t - last) = .pass ↔
      last.toNat + blockTime config size ≤ t.toNat ∧ (size ≤ 90 ∨ t.toNat ≤ last.toNat + 3600000) := by
  have order := UInt64.le_iff_toNat_le.1 later
  rw [gate_pass_iff some few, UInt64.toNat_sub_of_le _ _ later]
  omega

/-- **Waiting helps** full blocks and those of at most 90 transactions; in between it does only for a
clock that cannot go an hour past the last block. -/
theorem waitingHelps_iff (config : BlockchainConfig) (lastBlockTimestamp : UInt64) {size : Nat} (some : 0 < size)
    (few : size ≤ maxTxPerBlock) :
    WaitingHelps config lastBlockTimestamp size ↔ size = maxTxPerBlock ∨
      (lastBlockTimestamp.toNat + blockTime config size < 2 ^ 64 ∧
        (size ≤ 90 ∨ 2 ^ 64 - 1 ≤ lastBlockTimestamp.toNat + 3600000)) := by
  obtain rfl | notFull := Nat.eq_or_lt_of_le few
  · exact iff_of_true ⟨fun _ _ _ _ _ => gate_full _ _, lastBlockTimestamp, UInt64.le_refl _, fun _ _ => gate_full _ _⟩
      (.inl rfl)
  · have last := lastBlockTimestamp.toNat_lt
    constructor
    · rintro ⟨-, start, -, passes⟩
      right
      -- the latest reading there is
      have bound : (UInt64.ofNat (2 ^ 64 - 1)).toNat = 2 ^ 64 - 1 := rfl
      have latest : ∀ t : UInt64, t ≤ UInt64.ofNat (2 ^ 64 - 1) := fun t => by
        rw [UInt64.le_iff_toNat_le, bound]
        have := t.toNat_lt
        omega
      have pass := (gate_pass_at some notFull (latest _)).1 (passes _ (latest start))
      rw [bound] at pass
      omega
    · rintro (full | ⟨reaches, never⟩)
      · omega
      · have from_time : (lastBlockTimestamp + UInt64.ofNat (blockTime config size)).toNat =
            lastBlockTimestamp.toNat + blockTime config size := by
          rw [UInt64.toNat_add, UInt64.toNat_ofNat', Nat.mod_eq_of_lt (by omega), Nat.mod_eq_of_lt (by omega)]
        refine ⟨fun t t' since later pass => ?_, lastBlockTimestamp + UInt64.ofNat (blockTime config size), ?_,
          fun t since => ?_⟩
        · rw [gate_pass_at some notFull since] at pass
          rw [gate_pass_at some notFull (UInt64.le_trans since later)]
          have := UInt64.le_iff_toNat_le.1 later
          have := t'.toNat_lt
          omega
        · rw [UInt64.le_iff_toNat_le, from_time]
          omega
        · rw [UInt64.le_iff_toNat_le, from_time] at since
          have since' : lastBlockTimestamp ≤ t := by
            rw [UInt64.le_iff_toNat_le]
            omega
          rw [gate_pass_at some notFull since']
          have := t.toNat_lt
          omega

theorem waitingHelps_ninety : WaitingHelps ⟨60000, 180⟩ 1000 90 :=
  (waitingHelps_iff ⟨60000, 180⟩ 1000 (by decide) (by decide)).2 (.inr ⟨by decide, .inl (by decide)⟩)

/-- Under the default configuration 91 transactions pass two minutes after the last block, and are
refused an hour after it. On a chain without a block, whose last timestamp is zero, they are
refused at every time a clock shows today. -/
theorem waiting_refuses :
    gate ⟨60000, 180⟩ 91 (121000 - 1000) = .pass ∧ gate ⟨60000, 180⟩ 91 (3601001 - 1000) = .reject ∧
    ¬ WaitingHelps ⟨60000, 180⟩ 1000 91 ∧ ¬ WaitingHelps ⟨60000, 180⟩ 0 91 := by
  refine ⟨by decide, by decide, ?_, ?_⟩
  · rw [waitingHelps_iff _ _ (by decide) (by decide)]
    decide
  · rw [waitingHelps_iff _ _ (by decide) (by decide)]
    decide

end Waiting

/-! ## What the gate has decided -/

variable {τ Tx Ov : Type} [OrderedStore τ TimestampEntry TimestampEntry.compare]

/-- Where a call stands agrees with what the gate made of the elapsed time. -/
def Gated (config : BlockchainConfig) (elapsed : UInt64) (c : Commit τ Tx Ov) : Prop :=
  match c.pc with
  | .enter => c.millis - c.backend.metadata.lastBlockTimestamp = elapsed
  | .returned none => gate config c.txs.length elapsed = .reject
  | .died .gateDivision => gate config c.txs.length elapsed = .divideByZero
  | .died .reportDivision => gate config c.txs.length elapsed = .pass ∧ elapsed = 0
  | .sync _ | .finish _ | .returned (some _) => gate config c.txs.length elapsed = .pass ∧ elapsed ≠ 0
  | _ => gate config c.txs.length elapsed = .pass ∧ c.duration = elapsed

section Calls

variable {d : ChainDesign Tx Ov} {config : BlockchainConfig} {elapsed : UInt64}

theorem Gated.step {c : Commit τ Tx Ov} (h : Gated config elapsed c) (env : Env) :
    Gated config elapsed (AddBlock.step d config env c) := by
  obtain ⟨txs, millis, duration, pc, b⟩ := c
  cases pc with
  | enter =>
    obtain rfl : millis - b.metadata.lastBlockTimestamp = elapsed := h
    simp only [AddBlock.step]
    split
    · rename_i pass
      exact ⟨pass, rfl⟩
    · rename_i reject
      exact reject
    · rename_i divide
      exact divide
  | verify todo ov =>
    cases todo with
    | nil => exact h
    | cons tx todo =>
      simp only [AddBlock.step]
      split <;> exact h
  | verifyApply tx todo ov =>
    simp only [AddBlock.step]
    split <;> exact h
  | openEpoch n =>
    simp only [AddBlock.step]
    split <;> exact h
  | transactions n todo =>
    cases todo with
    | nil =>
      simp only [AddBlock.step]
      split <;> exact h
    | cons tx todo =>
      simp only [AddBlock.step]
      split <;> exact h
  | track n =>
    simp only [AddBlock.step]
    split <;> exact h
  | commitApply n todo ov =>
    cases todo with
    | nil => exact h
    | cons tx todo =>
      simp only [AddBlock.step]
      split <;> exact h
  | sealing n i ov =>
    simp only [AddBlock.step]
    split
    · split
      · exact h
      · split
        · exact h
        · split <;> exact h
    · exact h
  | writeSegment n i ov version payload =>
    simp only [AddBlock.step]
    split <;> exact h
  | report n =>
    obtain ⟨pass, rfl⟩ := h
    simp only [AddBlock.step]
    split
    · rename_i zero
      exact ⟨pass, zero⟩
    · rename_i nonzero
      exact ⟨pass, nonzero⟩
  | returned result => cases result <;> exact h
  | died signal => cases signal <;> exact h
  | _ => exact h

/-- The decision of the gate and the call, after any number of steps. -/
theorem Gated.after (d : ChainDesign Tx Ov) (config : BlockchainConfig) (env : Nat → Env) (txs : List Tx) (millis : UInt64)
    (b : Backend τ) (k : Nat) : Gated config (millis - b.metadata.lastBlockTimestamp)
      ((AddBlock.machine d config).after env k (AddBlock.start txs millis b)) := by
  have start : Gated config (millis - b.metadata.lastBlockTimestamp) (AddBlock.start txs millis b : Commit τ Tx Ov) := rfl
  exact (AddBlock.machine d config).after_induction env start (fun _ _ h => h.step _) k

/-- What a call that has ended has made of the last timestamp. -/
theorem Stores.lastBlockTimestamp {b : Backend τ} {c : Commit τ Tx Ov} (h : Stores d b c) (ended : AddBlock.halted c) :
    c.backend.metadata.lastBlockTimestamp =
      if c.pc.stretch = .committed then c.millis else b.metadata.lastBlockTimestamp := by
  obtain ⟨txs, millis, duration, pc, b'⟩ := c
  cases pc with
  | returned result =>
    cases result with
    | none =>
      obtain rfl : b' = b := h
      rfl
    | some n =>
      obtain ⟨ov, segments, -, stored⟩ := h
      exact stored.time
  | threw site e =>
    cases site with
    | verification | verificationApply =>
      obtain rfl : b' = b := h
      rfl
    | epochOpen | transactionWrite | trackerInsert | commitApply =>
      obtain ⟨n, stored⟩ := h
      exact stored.time
    | sealing =>
      obtain ⟨n, i, ov, -, -, segments, -, stored⟩ := h
      exact stored.time
    | segmentWrite =>
      obtain ⟨n, i, ov, -, segments, -, stored⟩ := h
      exact stored.time
  | died signal =>
    cases signal with
    | gateDivision =>
      obtain rfl : b' = b := h
      rfl
    | nullPointer =>
      obtain ⟨n, stored⟩ := h
      exact stored.time
    | reportDivision =>
      obtain ⟨n, ov, segments, -, stored⟩ := h
      exact stored.time
  | _ => exact absurd ended id

end Calls

/-! ## Runs under any clock -/

/-- A block in the journal: the configuration it was committed under, its timestamp and its number
of transactions. -/
structure CommittedBlock where
  config : BlockchainConfig
  millis : UInt64
  size : Nat

/-- A backend with its history: the blocks committed so far, and how each call of `addBlock` ended. -/
structure Chronicle (τ : Type) where
  backend : Backend τ
  blocks : List CommittedBlock
  outcomes : List Outcome

/-- The operations of a backend, with the clock and whatever else the surroundings supply. -/
inductive Operation (Tx : Type) where
  | addBlock (config : BlockchainConfig) (env : Nat → Env) (txs : List Tx) (millis : UInt64)
  | getBlock (n : UInt64) (outcome : OpenOutcome)
  | timeWindow (fuel : Nat) (startMillis endMillis : UInt64) (outcome : UInt64 → OpenOutcome)
  | evict (epoch : UInt32)
  | reopen

namespace Chronicle

/-- A chain without a block. -/
def fresh : Chronicle τ := ⟨Backend.fresh, [], []⟩

/-- One operation; a query that does not end within its fuel has no successor. -/
def step (d : ChainDesign Tx Ov) (s : Chronicle τ) : Operation Tx → Option (Chronicle τ)
  | .addBlock config env txs millis =>
    let c := s.backend.addBlockEnd d config env txs millis
    some {
      backend := c.backend
      blocks := s.blocks ++ if c.pc.stretch = .committed then [⟨config, millis, txs.length⟩] else []
      outcomes := s.outcomes ++ c.outcome.toList }
  | .getBlock n outcome => some { s with backend := (s.backend.getBlock d n outcome).2 }
  | .timeWindow fuel startMillis endMillis outcome =>
    (s.backend.getTransactionsByTimeWindow d fuel startMillis endMillis outcome).map fun (_, backend) => { s with backend }
  | .evict epoch => some { s with backend := s.backend.evict epoch }
  | .reopen => some { s with backend := s.backend.reopen }

/-- An operation is a call of `addBlock`, or leaves the header and the history as they are. -/
theorem step_cases {d : ChainDesign Tx Ov} {s s' : Chronicle τ} {m : Operation Tx} (moved : s.step d m = some s') :
    (∃ config env txs millis, m = .addBlock config env txs millis ∧
      s'.backend = (s.backend.addBlockEnd d config env txs millis).backend ∧
      s'.blocks = s.blocks ++ (if (s.backend.addBlockEnd d config env txs millis).pc.stretch = .committed
        then [⟨config, millis, txs.length⟩] else []) ∧
      s'.outcomes = s.outcomes ++ (s.backend.addBlock d config env txs millis).1.toList) ∨
    (s'.backend.metadata = s.backend.metadata ∧ s'.blocks = s.blocks ∧ s'.outcomes = s.outcomes) := by
  cases m with
  | addBlock config env txs millis =>
    cases moved
    exact .inl ⟨config, env, txs, millis, rfl, rfl, rfl, rfl⟩
  | getBlock n outcome =>
    cases moved
    exact .inr ⟨(getBlock_frame s.backend n outcome).1, rfl, rfl⟩
  | timeWindow fuel startMillis endMillis outcome =>
    obtain ⟨⟨result, backend⟩, returned, rfl⟩ := Option.map_eq_some_iff.1 moved
    exact .inr ⟨(timeWindow_frame returned).1, rfl, rfl⟩
  | evict epoch =>
    cases moved
    exact .inr ⟨rfl, rfl, rfl⟩
  | reopen =>
    cases moved
    exact .inr ⟨rfl, rfl, rfl⟩

end Chronicle

/-! ## Spacing -/

/-- The least time from a block to the next one of this size: none to a full block. -/
def CommittedBlock.spacing (block : CommittedBlock) : Nat :=
  if block.size = maxTxPerBlock then 0 else blockTime block.config block.size

/-- Every block comes at least its spacing after each block before it. -/
def Chronicle.Spaced (s : Chronicle τ) : Prop :=
  s.blocks.Pairwise fun a b => a.millis.toNat + b.spacing ≤ b.millis.toNat

/-- The clock has not gone behind the last block where a call of `addBlock` passes the gate. -/
def ClockHolds (s : Chronicle τ) : Operation Tx → Prop
  | .addBlock config _ txs millis => s.backend.metadata.lastBlockTimestamp ≤ millis ∨
      gate config txs.length (millis - s.backend.metadata.lastBlockTimestamp) ≠ .pass
  | _ => True

/-- The blocks are spaced, and none is after the last timestamp. -/
structure Chronicle.Clocked (s : Chronicle τ) : Prop where
  spaced : s.Spaced
  last : ∀ block ∈ s.blocks, block.millis ≤ s.backend.metadata.lastBlockTimestamp

section Spacing

variable {d : ChainDesign Tx Ov}

omit [OrderedStore τ TimestampEntry TimestampEntry.compare] in
/-- A call that has ended with its block committed has passed the gate. -/
theorem Gated.pass {config : BlockchainConfig} {elapsed : UInt64} {c : Commit τ Tx Ov} (h : Gated config elapsed c)
    (committed : c.pc.stretch = .committed) : gate config c.txs.length elapsed = .pass := by
  obtain ⟨txs, millis, duration, pc, b⟩ := c
  cases pc with
  | enter => cases committed
  | returned result =>
    cases result with
    | none => cases committed
    | some n => exact h.1
  | died signal => cases signal <;> first | exact h.1 | cases committed
  | _ => exact h.1

/-- A block that passes the gate under a clock that has not gone back comes late enough. -/
theorem spacing_of_pass {config : BlockchainConfig} {last millis : UInt64} {size : Nat} (later : last ≤ millis)
    (pass : gate config size (millis - last) = .pass) :
    last.toNat + (CommittedBlock.mk config millis size).spacing ≤ millis.toNat := by
  have admissible := gate_pass pass
  have order := UInt64.le_iff_toNat_le.1 later
  unfold CommittedBlock.spacing
  dsimp only
  split
  · omega
  · rw [gate_pass_at admissible.1 (by omega) later] at pass
    exact pass.1

omit [OrderedStore τ TimestampEntry TimestampEntry.compare] in
/-- Blocks stay spaced where neither they nor the last timestamp change. -/
theorem Chronicle.Clocked.unchanged {s s' : Chronicle τ} (h : s.Clocked) (blocks : s'.blocks = s.blocks)
    (time : s'.backend.metadata.lastBlockTimestamp = s.backend.metadata.lastBlockTimestamp) : s'.Clocked := by
  constructor
  · rw [Chronicle.Spaced, blocks]
    exact h.spaced
  · rw [blocks, time]
    exact h.last

omit [OrderedStore τ TimestampEntry TimestampEntry.compare] in
/-- A block more, its spacing after the last timestamp, which becomes its own. -/
theorem Chronicle.Clocked.commit {s s' : Chronicle τ} {block : CommittedBlock} (h : s.Clocked)
    (blocks : s'.blocks = s.blocks ++ [block]) (time : s'.backend.metadata.lastBlockTimestamp = block.millis)
    (late : s.backend.metadata.lastBlockTimestamp.toNat + block.spacing ≤ block.millis.toNat) : s'.Clocked := by
  have before : ∀ a ∈ s.blocks, a.millis.toNat ≤ s.backend.metadata.lastBlockTimestamp.toNat :=
    fun a mem => UInt64.le_iff_toNat_le.1 (h.last a mem)
  constructor
  · rw [Chronicle.Spaced, blocks, List.pairwise_append]
    refine ⟨h.spaced, List.pairwise_singleton _ _, fun a mem new here => ?_⟩
    rw [List.mem_singleton.1 here]
    exact Nat.le_trans (Nat.add_le_add_right (before a mem) _) late
  · intro a mem
    rw [time]
    rw [blocks, List.mem_append, List.mem_singleton] at mem
    obtain mem | rfl := mem
    · have := before a mem
      rw [UInt64.le_iff_toNat_le]
      omega
    · exact UInt64.le_refl _

theorem Chronicle.Clocked.step {s s' : Chronicle τ} {m : Operation Tx} (h : s.Clocked) (holds : ClockHolds s m)
    (moved : s.step d m = some s') : s'.Clocked := by
  obtain ⟨config, env, txs, millis, rfl, backend, blocks, -⟩ | ⟨header, blocks, -⟩ := Chronicle.step_cases moved
  · have stores : Stores d s.backend (s.backend.addBlockEnd d config env txs millis) :=
      Stores.after d config env txs millis s.backend _
    have time := stores.lastBlockTimestamp ((AddBlock.machine d config).halted_run env _)
    have gated : Gated config _ (s.backend.addBlockEnd d config env txs millis) :=
      Gated.after d config env txs millis s.backend _
    have args : (s.backend.addBlockEnd d config env txs millis).txs = txs ∧
        (s.backend.addBlockEnd d config env txs millis).millis = millis := after_args d config env txs millis s.backend _
    rw [← backend, args.2] at time
    split at blocks
    · rename_i committed
      rw [if_pos committed] at time
      have pass := gated.pass committed
      rw [args.1] at pass
      have later : s.backend.metadata.lastBlockTimestamp ≤ millis := by
        obtain later | refused := holds
        · exact later
        · exact absurd pass refused
      exact h.commit blocks time (spacing_of_pass later pass)
    · rename_i uncommitted
      rw [if_neg uncommitted] at time
      rw [List.append_nil] at blocks
      exact h.unchanged blocks time
  · apply h.unchanged blocks
    rw [header]

/-- **The spacing of blocks**: where no call passes the gate under a clock that has gone behind the
last block, blocks are spaced, and so their timestamps never decrease. -/
theorem blocks_spaced (d : ChainDesign Tx Ov) (s : Chronicle τ)
    (reach : Reach (Chronicle.step d) ClockHolds Chronicle.fresh s) :
    s.Spaced ∧ s.blocks.Pairwise fun a b => a.millis ≤ b.millis := by
  have clocked : s.Clocked := by
    refine reach.invariant ⟨List.Pairwise.nil, fun block mem => by cases mem⟩ ?_
    exact fun _ _ _ h holds moved => h.step holds moved
  refine ⟨clocked.spaced, clocked.spaced.imp fun spaced => ?_⟩
  rw [UInt64.le_iff_toNat_le]
  omega

instance (s : Chronicle τ) : (m : Operation Tx) → Decidable (ClockHolds s m)
  | .addBlock _ _ _ _ => inferInstanceAs (Decidable (_ ∨ _))
  | .getBlock _ _ | .timeWindow _ _ _ _ | .evict _ | .reopen => .isTrue trivial

/-- Two blocks of one byte each, at the given times. -/
def twoBlocks (first second : UInt64) : List (Operation UInt8) :=
  [.addBlock briskConfig (fun _ => Env.calm fun _ => 0) [7] first,
    .addBlock briskConfig (fun _ => Env.calm fun _ => 0) [8] second]

/-- A chronicle over the store of sorted lists. -/
abbrev ListChronicle : Type := Chronicle (SortedRecords TimestampEntry TimestampEntry.compare)

theorem blocks_spaced_steady : ∃ s : ListChronicle,
    moves (fun s m => if ClockHolds s m then s.step byteDesign m else none) (twoBlocks 500 700) Chronicle.fresh = some s ∧
    s.blocks.map (fun block => (block.millis, block.size)) = [(500, 1), (700, 1)] ∧ s.Spaced := by
  have steady : (moves (fun (s : ListChronicle) m => if ClockHolds s m then s.step byteDesign m else none)
      (twoBlocks 500 700) Chronicle.fresh).map (fun s => s.blocks.map fun block => (block.millis, block.size)) =
      some [(500, 1), (700, 1)] := by decide +kernel
  obtain ⟨s, reached, blocks⟩ := Option.map_eq_some_iff.1 steady
  exact ⟨s, reached, blocks, (blocks_spaced byteDesign s (Reach.refl.guarded _ reached)).1⟩

/-- The clock goes back from 500 to 200 ms: the difference wraps around, one transaction passes the
gate, and the second block is stamped before the first. -/
theorem blocks_unspaced : ∃ s : ListChronicle, Reach (Chronicle.step byteDesign) (fun _ _ => True) Chronicle.fresh s ∧
    s.blocks.map (fun block => (block.millis, block.size)) = [(500, 1), (200, 1)] ∧ ¬ s.Spaced := by
  have back : (moves (fun (s : ListChronicle) m => s.step byteDesign m) (twoBlocks 500 200) Chronicle.fresh).map
      (fun s => s.blocks.map fun block => (block.millis, block.size)) = some [(500, 1), (200, 1)] := by decide +kernel
  obtain ⟨s, reached, blocks⟩ := Option.map_eq_some_iff.1 back
  refine ⟨s, Reach.refl.moves _ reached, blocks, fun spaced => ?_⟩
  have order : (s.blocks.map fun block => (block.millis, block.size)).Pairwise fun a b => a.1.toNat ≤ b.1.toNat := by
    refine List.pairwise_map.2 (List.Pairwise.imp ?_ spaced)
    exact fun late => Nat.le_trans (Nat.le_add_right _ _) late
  rw [blocks] at order
  exact absurd order (by decide)

end Spacing

/-! ## Divisions -/

/-- How a call ended was not a division by zero. -/
def Outcome.Divided (outcome : Outcome) : Prop := outcome = .died .gateDivision ∨ outcome = .died .reportDivision

/-- No call with these arguments divides by zero, whatever the application and the storage do. -/
def NeverDivides (b : Backend τ) (config : BlockchainConfig) (txs : List Tx) (millis : UInt64) : Prop :=
  ∀ (Ov : Type) (d : ChainDesign Tx Ov) (env : Nat → Env),
    ∀ outcome ∈ (b.addBlock d config env txs millis).1, ¬ outcome.Divided

/-- The number of transactions is not zero as a `uint32_t`, and a full block does not come within the
millisecond of the last one. -/
def DivisorsNonzero (b : Backend τ) (txs : List Tx) (millis : UInt64) : Prop :=
  narrowSize txs.length ≠ 0 ∧ (txs.length = maxTxPerBlock → millis ≠ b.metadata.lastBlockTimestamp)

section Divisions

/-- With nonzero divisors a call does not divide by zero. -/
theorem DivisorsNonzero.neverDivides {b : Backend τ} {txs : List Tx} {millis : UInt64} (h : DivisorsNonzero b txs millis)
    (config : BlockchainConfig) : NeverDivides b config txs millis := by
  intro Ov d env outcome ended divided
  have gated : Gated config (millis - b.metadata.lastBlockTimestamp) (b.addBlockEnd d config env txs millis) :=
    Gated.after d config env txs millis b _
  have args : (b.addBlockEnd d config env txs millis).txs = txs := (after_args d config env txs millis b _).1
  unfold Gated at gated
  obtain rfl | rfl := divided
  · have here : (b.addBlockEnd d config env txs millis).pc = .died .gateDivision := outcome_eq ended
    rw [here, args] at gated
    exact h.1 ((gate_divides_iff _ _ _).1 gated)
  · have here : (b.addBlockEnd d config env txs millis).pc = .died .reportDivision := outcome_eq ended
    rw [here, args] at gated
    obtain ⟨pass, zero⟩ := gated
    by_cases full : txs.length = maxTxPerBlock
    · exact h.2 full (by rw [UInt64.sub_eq_iff_eq_add.1 zero, UInt64.zero_add])
    · have admissible := gate_pass pass
      rw [gate_pass_iff admissible.1 (by omega), zero] at pass
      have least := le_blockTime config txs.length
      have none : (0 : UInt64).toNat = 0 := rfl
      omega

/-- Nothing is indexed, and no call fails. -/
def plainDesign (Tx : Type) : ChainDesign Tx Unit where
  freshOverride := ()
  verify _ _ _ := true
  apply _ _ ov := (ov, .ok true)
  write _ := ([], none)
  getFactory _ := none
  familySize := 0
  indexCount := 0
  encodingVersion _ := none
  sealFamily _ _ _ := .ok []

/-- A full block is acceptable to an application that accepts everything. -/
theorem plainDesign_accepts {txs : List Tx} (full : txs.length = maxTxPerBlock) (view : Visible) :
    Acceptable (plainDesign Tx) view txs where
  nonempty := by rw [full]; decide
  few := Nat.le_of_eq full
  passes _ _ := ⟨rfl, _, _, rfl⟩
  writes _ _ := rfl

/-- A full block that an application without indexes accepts dies in the report, within the millisecond of
the last block. -/
theorem addBlock_dies {d : ChainDesign Tx Ov} {view : Visible} {b : Backend τ} {txs : List Tx} {millis : UInt64}
    (accepted : Acceptable d view txs) (unpaired : d.pairCount = 0) (full : txs.length = maxTxPerBlock)
    (same : millis = b.metadata.lastBlockTimestamp) (config : BlockchainConfig) :
    (b.addBlock d config (fun _ => Env.calm view) txs millis).1 = some (.died .reportDivision) := by
  have zero : millis - b.metadata.lastBlockTimestamp = 0 := by rw [same, UInt64.sub_self]
  have pass : gate config txs.length (millis - b.metadata.lastBlockTimestamp) = .pass := by
    rw [full]
    exact gate_full _ _
  obtain ⟨k, n, here⟩ := acceptable_seals (fun _ => Env.calm view) b accepted (fun _ => rfl) (fun _ => ⟨rfl, rfl, rfl⟩) pass
  have gated := Gated.after d config (fun _ => Env.calm view) txs millis b k
  -- two steps more: there is no family to seal, and the report divides
  have last : ((AddBlock.machine d config).after (fun _ => Env.calm view) (k + 2) (AddBlock.start txs millis b)).pc =
      .died .reportDivision := by
    rw [Machine.after_succ, Machine.after_succ]
    generalize (AddBlock.machine d config).after (fun _ => Env.calm view) k (AddBlock.start txs millis b) = c at here gated ⊢
    obtain ⟨txs', millis', duration, pc, b'⟩ := c
    obtain rfl : pc = _ := here
    obtain ⟨-, rfl⟩ : _ ∧ duration = _ := gated
    change (AddBlock.step d config _ (AddBlock.step d config _ _)).pc = _
    simp only [AddBlock.step, unpaired, Nat.lt_irrefl, if_false, zero, if_true]
  have ended : AddBlock.halted
      ((AddBlock.machine d config).after (fun _ => Env.calm view) (k + 2) (AddBlock.start txs millis b)) := by
    unfold AddBlock.halted
    rw [last]
    trivial
  have run : b.addBlockEnd d config (fun _ => Env.calm view) txs millis =
      (AddBlock.machine d config).after (fun _ => Env.calm view) (k + 2) (AddBlock.start txs millis b) :=
    (AddBlock.machine d config).run_eq ended
  simp only [Backend.addBlock, Commit.outcome, run, last]

/-- A list whose length is zero as a `uint32_t` dies in the gate. -/
theorem addBlock_dies_at_once (d : ChainDesign Tx Ov) (config : BlockchainConfig) (env : Nat → Env) {txs : List Tx}
    (millis : UInt64) (b : Backend τ) (zero : narrowSize txs.length = 0) :
    (b.addBlock d config env txs millis).1 = some (.died .gateDivision) := by
  have first : ((AddBlock.machine d config).after env 1 (AddBlock.start txs millis b)).pc = .died .gateDivision := by
    change (AddBlock.step d config (env 0) (AddBlock.start txs millis b)).pc = _
    simp only [AddBlock.step, AddBlock.start, (gate_divides_iff _ _ _).2 zero]
  have ended : AddBlock.halted ((AddBlock.machine d config).after env 1 (AddBlock.start txs millis b)) := by
    unfold AddBlock.halted
    rw [first]
    trivial
  have run : b.addBlockEnd d config env txs millis =
      (AddBlock.machine d config).after env 1 (AddBlock.start txs millis b) := (AddBlock.machine d config).run_eq ended
  simp only [Backend.addBlock, Commit.outcome, run, first]

/-- **Division by zero** is what a call with a zero divisor can come to, and no other. -/
theorem neverDivides_iff (b : Backend τ) (config : BlockchainConfig) (txs : List Tx) (millis : UInt64) :
    NeverDivides b config txs millis ↔ DivisorsNonzero b txs millis := by
  constructor
  · intro never
    refine ⟨fun zero => ?_, fun full same => ?_⟩
    · exact never Unit (plainDesign Tx) (fun _ => Env.calm fun _ => 0) _ (addBlock_dies_at_once _ _ _ _ b zero) (.inl rfl)
    · exact never Unit (plainDesign Tx) (fun _ => Env.calm fun _ => 0) _
        (addBlock_dies (plainDesign_accepts full _) rfl full same config) (.inr rfl)
  · exact fun nonzero => nonzero.neverDivides config

/-- A call of `addBlock` is handed nonzero divisors. -/
def DividesWell (s : Chronicle τ) : Operation Tx → Prop
  | .addBlock _ _ txs millis => DivisorsNonzero s.backend txs millis
  | _ => True

/-- **No run divides by zero** all of whose calls have nonzero divisors, and any other call may, in
any state of the backend. -/
theorem runs_never_divide (d : ChainDesign Tx Ov) :
    (∀ s : Chronicle τ, Reach (Chronicle.step d) DividesWell Chronicle.fresh s →
      ∀ outcome ∈ s.outcomes, ¬ outcome.Divided) ∧
    ∀ (b : Backend τ) (config : BlockchainConfig) (txs : List Tx) (millis : UInt64),
      NeverDivides b config txs millis ↔ DivisorsNonzero b txs millis := by
  refine ⟨fun s reach => ?_, neverDivides_iff⟩
  refine reach.invariant (P := fun s => ∀ outcome ∈ s.outcomes, ¬ outcome.Divided) (fun outcome mem => by cases mem) ?_
  intro s m s' sound well moved
  obtain ⟨config, env, txs, millis, rfl, -, -, outcomes⟩ | ⟨-, -, outcomes⟩ := Chronicle.step_cases moved
  · rw [outcomes]
    intro outcome mem
    rcases List.mem_append.1 mem with mem | mem
    · exact sound outcome mem
    · exact DivisorsNonzero.neverDivides well config Ov d env outcome (Option.mem_toList.1 mem)
  · rw [outcomes]
    exact sound

instance (s : Chronicle τ) : (m : Operation Tx) → Decidable (DividesWell s m)
  | .addBlock _ _ _ _ => inferInstanceAs (Decidable (_ ∧ _))
  | .getBlock _ _ | .timeWindow _ _ _ _ | .evict _ | .reopen => .isTrue trivial

theorem runs_never_divide_steady : ∃ s : ListChronicle,
    moves (fun s m => if DividesWell s m then s.step byteDesign m else none) (twoBlocks 500 700) Chronicle.fresh = some s ∧
    s.outcomes = [.returned (some 0), .returned (some 1)] ∧ ∀ outcome ∈ s.outcomes, ¬ outcome.Divided := by
  have steady : (moves (fun (s : ListChronicle) m => if DividesWell s m then s.step byteDesign m else none)
      (twoBlocks 500 700) Chronicle.fresh).map (fun s => s.outcomes) = some [.returned (some 0), .returned (some 1)] := by
    decide +kernel
  obtain ⟨s, reached, outcomes⟩ := Option.map_eq_some_iff.1 steady
  exact ⟨s, reached, outcomes, (runs_never_divide byteDesign).1 s (Reach.refl.guarded _ reached)⟩

/-- The empty list divides by zero in the gate. A full block does in the report, when its clock
still reads what it read for the block before; that block and its number are in the journal by then. -/
theorem runs_divide :
    ((Backend.fresh : Backend (SortedRecords TimestampEntry TimestampEntry.compare)).addBlock byteDesign briskConfig
      (fun _ => Env.calm fun _ => 0) [] 500).1 = some (.died .gateDivision) ∧
    (setBackBackend.addBlock byteDesign briskConfig (fun _ => Env.calm fun _ => 0) (List.replicate 1024 7) 200).1 =
      some (.died .reportDivision) := by
  refine ⟨by decide +kernel, ?_⟩
  have full : (List.replicate 1024 (7 : UInt8)).length = maxTxPerBlock := List.length_replicate
  have accepted : Acceptable byteDesign (fun _ => 0) (List.replicate 1024 7) :=
    ⟨by rw [full]; decide, Nat.le_of_eq full, fun _ _ => ⟨rfl, _, _, rfl⟩, fun _ _ => rfl⟩
  exact addBlock_dies accepted rfl full (by decide +kernel) _

end Divisions

end MagelessChain
