import MagelessChain.Backend.Interrupt

/-!
# Power loss

Each file has a durable image beside the one its mappings show, and only `msync` or `fsync`
copies bytes into it. `addBlock` syncs the metadata header and nothing else, so an epoch file is
never durable: after a power loss the header counts blocks that `getBlock` cannot return.
-/

namespace MagelessChain

open Lib

variable {τ Tx Ov : Type}

/-- A power loss and a reopen: the header and every epoch file fall back to their durable images.
An epoch file that was never synced may be gone altogether; `left` says how long what is left of
each file is. -/
def Backend.powerLoss (b : Backend τ) (left : UInt32 → Option Nat) : Backend τ :=
  { b with
    metadata := b.durableMetadata
    epochs := fun e => match b.epochs e, left e with
      | some disk, some length => some ⟨disk.durable, disk.durable, length⟩
      | _, _ => none
    openEpochs := fun _ => none
    lastBlockTime := 0 }

/-- No epoch file has a durable byte. -/
def Unsynced (b : Backend τ) : Prop := ∀ e disk, b.epochs e = some disk → disk.durable = Image.zero

theorem Unsynced.openEpoch {b : Backend τ} (h : Unsynced b) (e : UInt32) : Unsynced (b.openEpoch e).2 := by
  intro e' disk onDisk
  by_cases same : e' = e
  · subst same
    simp only [Backend.openEpoch, EpochFile.construct, Function.update_self, Option.some.injEq] at onDisk
    subst onDisk
    cases old : b.epochs e' with
    | none => rfl
    | some disk => exact h e' disk old
  · simp only [Backend.openEpoch, Function.update_of_ne same] at onDisk
    exact h e' disk onDisk

theorem Unsynced.getEpochFile {b : Backend τ} (h : Unsynced b) (n : UInt64) (outcome : OpenOutcome) :
    Unsynced (b.getEpochFile n outcome).2 := by
  unfold Backend.getEpochFile
  split
  · exact h
  · split
    · exact h
    · exact h
    · exact h.openEpoch _

theorem Unsynced.withEpoch {b : Backend τ} (h : Unsynced b) (e : UInt32)
    (use : EpochFile → Image → EpochFile × Image) : Unsynced (b.withEpoch e use) := by
  unfold Backend.withEpoch
  split
  · rename_i file disk opened onDisk
    intro e' disk' eq
    by_cases same : e' = e
    · subst same
      simp only [Function.update_self, Option.some.injEq] at eq
      rw [← eq]
      exact h e' disk onDisk
    · simp only [Function.update_of_ne same] at eq
      exact h e' disk' eq
  · exact h

/-- Behind its header fields and its first slot, a new file is zero. -/
theorem readWord_initHeader {off n : Nat} (above : 20 ≤ off) : (initHeader Image.zero).readWord off n = 0 := by
  have apart : ∀ i, i ≤ 16 → Image.Apart off n i 4 := fun i hi => .inr (by omega)
  simp only [initHeader, setBlockOffset]
  rw [Image.readWord_writeWord_apart (apart _ (by omega)), Image.readWord_writeWord_apart (apart _ (by omega)),
    Image.readWord_writeWord_apart (apart _ (by omega)), Image.readWord_writeWord_apart (apart _ (by omega)),
    Image.readWord_writeWord_apart (apart _ (by omega)), Image.readWord_zero]

/-- A file of zeros has no block. -/
theorem readBlock_zero (d : ChainDesign Tx Ov) (file : EpochFile) (n : UInt64) :
    (file.readBlock d Image.zero n).1 = .error (.runtimeError "Block offset is zero") := by
  simp [EpochFile.readBlock, blockOffset]

/-- A new file has at most an empty block. -/
theorem readBlock_created (d : ChainDesign Tx Ov) (file : EpochFile) (n : UInt64) {txs : List Tx} (some : txs ≠ []) :
    (file.readBlock d (initHeader Image.zero) n).1 ≠ .ok txs := by
  by_cases first : slotOf n = 0
  · have off : blockOffset (initHeader Image.zero) (slotOf n) = 266240 := by
      rw [first]
      exact (blockOffset_setBlockOffset _ _ _).trans (by rw [firstBlockOffset_eq]; rfl)
    have count : (initHeader Image.zero).readWord (266240 + 8) 2 = 0 := readWord_initHeader (by omega)
    simp only [EpochFile.readBlock, off, count, readTransactions]
    intro eq
    simp only [Nat.reduceEqDiff, if_false, Except.ok.injEq] at eq
    exact some eq.symm
  · have off : blockOffset (initHeader Image.zero) (slotOf n) = 0 := readWord_initHeader (by omega)
    simp [EpochFile.readBlock, off]

/-- After a power loss, no block with a transaction in it is read from an unsynced epoch file. -/
theorem Unsynced.getBlock_powerLoss {b : Backend τ} (h : Unsynced b) (d : ChainDesign Tx Ov) (left : UInt32 → Option Nat)
    (n : UInt64) (outcome : OpenOutcome) {txs : List Tx} (some : txs ≠ []) :
    ((b.powerLoss left).getBlock d n outcome).1 ≠ .ok txs := by
  unfold Backend.getBlock
  split
  · simp
  · cases outcome with
    | throws e => simp [Backend.getEpochFile, Backend.powerLoss]
    | null => simp [Backend.getEpochFile, Backend.powerLoss]
    | opens =>
      have closed : (b.powerLoss left).openEpochs (epochOf n) = none := rfl
      simp only [Backend.getEpochFile, closed, Backend.openEpoch, EpochFile.construct, Function.update_self,
        Option.getD_some]
      cases onDisk : (b.powerLoss left).epochs (epochOf n) with
      | none => exact readBlock_created d _ n some
      | some disk =>
        have zero : disk.image = Image.zero := by
          simp only [Backend.powerLoss] at onDisk
          split at onDisk
          · rename_i old length eq _
            cases onDisk
            exact h _ old eq
          · cases onDisk
        simp [zero, readBlock_zero]

variable [OrderedStore τ TimestampEntry TimestampEntry.compare] {d : ChainDesign Tx Ov}

theorem Unsynced.step {config : BlockchainConfig} {env : Env} {c : Commit τ Tx Ov} (h : Unsynced c.backend) :
    Unsynced (AddBlock.step d config env c).backend := by
  obtain ⟨txs, millis, duration, pc, b⟩ := c
  cases pc with
  | openEpoch n =>
    have files := h.getEpochFile n env.epochOpen
    simp only [AddBlock.step]
    split <;> (rename_i eq; rw [eq] at files; exact files)
  | blockHeader n =>
    simp only [AddBlock.step]
    apply h.withEpoch
  | transactions n todo =>
    cases todo with
    | nil => exact h
    | cons tx todo =>
      simp only [AddBlock.step]
      apply h.withEpoch
  | nextSlot n =>
    simp only [AddBlock.step]
    apply h.withEpoch
  | verify todo ov =>
    cases todo with
    | nil => exact h
    | cons tx todo =>
      simp only [AddBlock.step]
      split <;> exact h
  | commitApply n todo ov =>
    cases todo with
    | nil => exact h
    | cons tx todo =>
      simp only [AddBlock.step]
      split <;> exact h
  | _ =>
    unfold AddBlock.step
    dsimp only
    repeat' first | split | exact h

/-- No event syncs an epoch file. -/
theorem Unsynced.run {events : List (Event Tx)} {t : Trace τ Tx} (h : Unsynced t.backend) :
    Unsynced (t.run d events).backend := by
  induction events generalizing t with
  | nil => exact h
  | cons e events ih =>
    apply ih
    cases e with
    | attempt a =>
      exact (AddBlock.machine d a.config).after_induction (P := fun c => Unsynced c.backend)
        (s := AddBlock.start a.txs a.millis t.backend) a.env h (fun _ _ h => Unsynced.step h) a.stop
    | restart => exact h
    | evict epoch => exact h
    | getBlock n outcome =>
      have files := h.getEpochFile n outcome
      simp only [Trace.step, Backend.getBlock]
      split
      · exact h
      · split <;> (rename_i eq; rw [eq] at files)
        · exact files
        · exact files
        · exact files.withEpoch _ _

/-- A call past its gate has a transaction. -/
def PastGate (c : Commit τ Tx Ov) : Prop :=
  c.pc = .enter ∨ c.pc = .returned none ∨ c.pc = .died .gateDivision ∨ 0 < c.txs.length

theorem PastGate.step {config : BlockchainConfig} {env : Env} {c : Commit τ Tx Ov} (h : PastGate c) :
    PastGate (AddBlock.step d config env c) := by
  have args := (step_args d config env c).1
  rcases h with enter | none | died | some
  · simp only [AddBlock.step, enter]
    split
    · rename_i pass
      exact .inr (.inr (.inr (gate_pass pass).1))
    · exact .inr (.inl rfl)
    · exact .inr (.inr (.inl rfl))
  · exact .inr (.inl (by simp only [AddBlock.step, none]))
  · exact .inr (.inr (.inl (by simp only [AddBlock.step, died])))
  · exact .inr (.inr (.inr (by rw [args]; exact some)))

/-- A call that returned a number was handed a transaction. -/
theorem Attempt.nonempty {a : Attempt Tx} {b : Backend τ} {n : UInt64} (h : (a.cut d b).number = some n) :
    a.txs ≠ [] := by
  have past : PastGate (a.cut d b) :=
    (AddBlock.machine d a.config).after_induction (s := AddBlock.start a.txs a.millis b) a.env (.inl rfl)
      (fun _ _ h => h.step) a.stop
  have args : (a.cut d b).txs = a.txs := (after_args d a.config a.env a.txs a.millis b a.stop).1
  unfold Commit.number at h
  rcases past with pc | pc | pc | some
  · simp [pc] at h
  · simp [pc] at h
  · simp [pc] at h
  · rw [args] at some
    exact List.ne_nil_of_length_pos some

/-- No list whose call returned is empty. -/
theorem Trace.returned_nonempty {events : List (Event Tx)} {t : Trace τ Tx} (h : ∀ entry ∈ t.returned, entry.2 ≠ []) :
    ∀ entry ∈ (t.run d events).returned, entry.2 ≠ [] := by
  induction events generalizing t with
  | nil => exact h
  | cons e events ih =>
    apply ih
    cases e with
    | attempt a =>
      intro entry mem
      rcases List.mem_append.1 mem with mem | mem
      · exact h entry mem
      · obtain ⟨n, number, rfl⟩ := List.mem_map.1 mem
        exact Attempt.nonempty (Option.mem_toList.1 number)
    | restart => exact h
    | evict epoch => exact h
    | getBlock n outcome => exact h

/-- After a power loss and a reopen the height covers every block that was returned, and every
one of them is read back. -/
def SurvivesPowerLoss (d : ChainDesign Tx Ov) (t : Trace τ Tx) (left : UInt32 → Option Nat) : Prop :=
  ∀ n txs, (n, txs) ∈ t.returned → n < (t.backend.powerLoss left).metadata.currentBlockHeight ∧
    ((t.backend.powerLoss left).getBlock d n .opens).1 = .ok txs

/-- **No committed block survives a power loss**, whatever came before it and whatever is left of
the files. -/
theorem committed_blocks_lost (d : ChainDesign Tx Ov) (events : List (Event Tx)) (left : UInt32 → Option Nat)
    (committed : ((Trace.fresh : Trace τ Tx).run d events).returned ≠ []) :
    ¬ SurvivesPowerLoss d ((Trace.fresh : Trace τ Tx).run d events) left := by
  intro survives
  obtain ⟨⟨n, txs⟩, mem⟩ := List.exists_mem_of_ne_nil _ committed
  have unsynced : Unsynced ((Trace.fresh : Trace τ Tx).run d events).backend :=
    Unsynced.run fun e disk onDisk => by simp [Trace.fresh, Backend.fresh] at onDisk
  have some : txs ≠ [] := Trace.returned_nonempty (by simp [Trace.fresh]) _ mem
  exact unsynced.getBlock_powerLoss d left n .opens some (survives n txs mem).2

/-- A chain of one committed block. -/
def oneBlockTrace : Trace (SortedRecords TimestampEntry TimestampEntry.compare) UInt8 :=
  Trace.fresh.run byteDesign [byteAttempt 7 100 18]

theorem committed_blocks_lost_one :
    oneBlockTrace.returned ≠ [] ∧ ¬ SurvivesPowerLoss byteDesign oneBlockTrace fun _ => some 0 :=
  ⟨by decide +kernel, committed_blocks_lost byteDesign [byteAttempt 7 100 18] _ (by decide +kernel)⟩

/-- The header of a chain of one block still counts it after a power loss; the block is gone. -/
theorem one_block_lost : oneBlockTrace.returned = [(0, [7])] ∧
    (oneBlockTrace.backend.powerLoss fun _ => none).metadata.currentBlockHeight = 1 ∧
    ((oneBlockTrace.backend.powerLoss fun _ => none).getBlock byteDesign 0 .opens).1 = .ok [] ∧
    ¬ SurvivesPowerLoss byteDesign oneBlockTrace fun _ => none := by
  have lost : ((oneBlockTrace.backend.powerLoss fun _ => none).getBlock byteDesign 0 .opens).1 = .ok [] := by rfl
  refine ⟨by decide +kernel, by decide +kernel, lost, fun survives => ?_⟩
  have read := (survives 0 [7] (by decide +kernel)).2
  rw [lost] at read
  simp at read

end MagelessChain
