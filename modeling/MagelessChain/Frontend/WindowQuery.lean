import MagelessChain.Backend.TimeWindow
import MagelessChain.Frontend.Conservation

/-!
# Queries by time, with the mempool

The frontend's `getTransactionsByTimeWindow` compares the time of the last block with the end of
the window, scans the mempool under the lock if the window reaches further, and then queries the
backend without the lock. A window that ends before the last block leaves the mempool out,
although what is pending may be older than that block. And as the builder moves transactions from
the mempool into the journal between the two phases, a transaction in flight is found by neither,
and one committed in between by both.
-/

namespace MagelessChain

open Lib OrderedStore

variable {τ Tx Ov Val : Type}

/-- A transaction's own time lies in the window. -/
def InWindow (getTimestamp : Tx → UInt64) (startMillis endMillis : UInt64) (tx : Tx) : Prop :=
  startMillis ≤ getTimestamp tx ∧ getTimestamp tx ≤ endMillis

instance (getTimestamp : Tx → UInt64) (startMillis endMillis : UInt64) :
    DecidablePred (InWindow getTimestamp startMillis endMillis) :=
  fun _ => inferInstanceAs (Decidable (_ ∧ _))

/-- The scan of the mempool. -/
def Frontend.pendingIn (getTimestamp : Tx → UInt64) (startMillis endMillis : UInt64) (s : Frontend τ Tx Ov) : List Tx :=
  s.mempool.filter fun tx => InWindow getTimestamp startMillis endMillis tx

variable [OrderedStore τ TimestampEntry TimestampEntry.compare]

/-- `BlockchainFrontend::getTransactionsByTimeWindow`, over the frontend as the comparison with
the last block, the scan and the query of the backend find it. Other threads move in between. -/
def Frontend.getTransactionsByTimeWindow (d : ChainDesign Tx Ov) (getTimestamp : Tx → UInt64) (fuel : Nat)
    (startMillis endMillis : UInt64) (outcome : UInt64 → OpenOutcome) (checked scanned queried : Frontend τ Tx Ov) :
    Option (Except Exn (List Tx) × Backend τ) :=
  let results := if checked.backend.metadata.lastBlockTimestamp < endMillis
    then scanned.pendingIn getTimestamp startMillis endMillis else []
  match queried.backend.getTransactionsByTimeWindow d fuel startMillis endMillis outcome with
  | none => none
  | some (.error e, b) => some (.error e, b)
  | some (.ok committed, b) => some (.ok (results ++ committed), b)

/-! ## The tail of the mempool -/

/-- **The mempool tail**: in every state of the frontend, once the backend's query returns, the
frontend's returns what is pending in the window together with it exactly when the window reaches
past the last block or nothing is pending in it. -/
theorem window_tail_exact (d : ChainDesign Tx Ov) (getTimestamp : Tx → UInt64) (s : Frontend τ Tx Ov)
    (startMillis endMillis : UInt64) (fuel : Nat) (outcome : UInt64 → OpenOutcome) (committed : List Tx) (b : Backend τ)
    (returned : s.backend.getTransactionsByTimeWindow d fuel startMillis endMillis outcome = some (.ok committed, b)) :
    ∃ result, s.getTransactionsByTimeWindow d getTimestamp fuel startMillis endMillis outcome s s =
        some (.ok result, b) ∧
      ((result : Multiset Tx) = ↑(s.pendingIn getTimestamp startMillis endMillis) + ↑committed ↔
        s.backend.metadata.lastBlockTimestamp < endMillis ∨
          ∀ tx ∈ s.mempool, ¬ InWindow getTimestamp startMillis endMillis tx) := by
  simp only [Frontend.getTransactionsByTimeWindow, returned]
  refine ⟨_, rfl, ?_⟩
  split
  · rename_i past
    rw [← Multiset.coe_add]
    exact iff_of_true rfl (.inl past)
  · rename_i before
    rw [List.nil_append]
    constructor
    · intro same
      right
      have nothing : (s.pendingIn getTimestamp startMillis endMillis : Multiset Tx) = 0 :=
        add_eq_right.1 same.symm
      have empty := List.filter_eq_nil_iff.1 ((Multiset.coe_eq_zero _).1 nothing)
      exact fun tx mem inside => empty tx mem (decide_eq_true inside)
    · rintro (past | none)
      · exact absurd past before
      · have empty : s.pendingIn getTimestamp startMillis endMillis = [] :=
          List.filter_eq_nil_iff.2 fun tx mem inside => none tx mem (of_decide_eq_true inside)
        rw [empty, Multiset.coe_nil, zero_add]

/-- Transactions of one byte that carry their value as their time, taken one to a block. -/
def singlySetup : Setup UInt8 Unit Int where
  design := byteDesign
  scoring := ⟨fun _ tx _ => .ok tx.toNat, fun a b => decide (a > b), fun a => decide (a ≥ 0), -(10 ^ 30)⟩
  backendConfig := briskConfig
  config := { targetThroughput := 1 }

/-- 4 and 5 are sent, and 5 is committed at 100 ms. -/
def leftBehindMoves : List (Move UInt8) :=
  [.sendTransaction (fun _ => 0) 4, .sendTransaction (fun _ => 0) 5, .select ⟨fun _ _ _ => 0, fun _ => 0⟩ 40,
    .addBlock (fun _ => Env.calm fun _ => 0) 100, .rebuild fun _ _ => 0]

/-- The frontend in which 4 is left behind. -/
def leftBehind : Frontend (SortedRecords TimestampEntry TimestampEntry.compare) UInt8 Unit :=
  ⟨(Backend.fresh.addBlock byteDesign briskConfig (fun _ => Env.calm fun _ => 0) [5] 100).2, [4], (), .idle, [4, 5],
    [(0, [5])]⟩

theorem leftBehind_reach : Reach (Frontend.step singlySetup) (fun _ _ => True) emptyFrontend leftBehind :=
  Reach.moves leftBehindMoves .refl (by rfl)

/-- A window that reaches past the block at 100 ms has both transactions. -/
theorem window_tail_exact_past : ∃ result b,
    leftBehind.getTransactionsByTimeWindow byteDesign UInt8.toUInt64 10 0 200 (fun _ => .opens) leftBehind leftBehind =
        some (.ok result, b) ∧
      (result : Multiset UInt8) = ↑(leftBehind.pendingIn UInt8.toUInt64 0 200) + ↑[(5 : UInt8)] := by
  have query : ∃ b, leftBehind.backend.getTransactionsByTimeWindow byteDesign 10 0 200 (fun _ => .opens) =
      some (.ok [5], b) := ⟨_, by rfl⟩
  obtain ⟨b, returned⟩ := query
  obtain ⟨result, eq, exact⟩ := window_tail_exact byteDesign UInt8.toUInt64 leftBehind 0 200 10 (fun _ => .opens) [5] b returned
  exact ⟨result, b, eq, exact.2 (.inl (by decide +kernel))⟩

/-- A window that ends before that block leaves 4 out, which is pending and has its time in the
window. -/
theorem window_tail_missed : Reach (Frontend.step singlySetup) (fun _ _ => True) emptyFrontend leftBehind ∧
    leftBehind.builder = .idle ∧ (4 : UInt8) ∈ leftBehind.mempool ∧ InWindow UInt8.toUInt64 0 60 4 ∧
    ∃ b, leftBehind.getTransactionsByTimeWindow byteDesign UInt8.toUInt64 10 0 60 (fun _ => .opens) leftBehind leftBehind =
      some (.ok [], b) := by
  refine ⟨leftBehind_reach, rfl, List.mem_singleton_self _, by decide, _, by rfl⟩

/-! ## The blocks of a window -/

namespace TimedBlocks

/-- The entries of all recorded blocks, in the order of their numbers. -/
def entries (log : TimedBlocks Tx) : List TimestampEntry :=
  log.mapIdx fun i block => ⟨block.1, UInt64.ofNat i⟩

theorem toNat_index {log : TimedBlocks Tx} (room : log.length < 2 ^ 64) {i : Nat} (inside : i < log.length) :
    (UInt64.ofNat i).toNat = i :=
  UInt64.toNat_ofNat_of_lt' (by simp only [UInt64.size]; omega)

theorem mem_entries {log : TimedBlocks Tx} (room : log.length < 2 ^ 64) (e : TimestampEntry) :
    e ∈ log.entries ↔ log.Records e := by
  unfold entries Records
  rw [List.mem_mapIdx]
  constructor
  · rintro ⟨i, inside, rfl⟩
    refine ⟨log[i].2, ?_⟩
    rw [toNat_index room inside, List.getElem?_eq_getElem inside]
  · rintro ⟨txs, found⟩
    obtain ⟨inside, block⟩ := List.getElem?_eq_some_iff.1 found
    refine ⟨_, inside, ?_⟩
    rw [block, UInt64.ofNat_toNat]

theorem nodup_entries {log : TimedBlocks Tx} (room : log.length < 2 ^ 64) : log.entries.Nodup := by
  rw [List.nodup_iff_injective_getElem]
  intro i j same
  have bound : log.entries.length = log.length := by rw [entries, List.length_mapIdx]
  have first : i.val < log.length := by omega
  have second : j.val < log.length := by omega
  simp only [entries, List.getElem_mapIdx, TimestampEntry.mk.injEq] at same
  have number := congrArg UInt64.toNat same.2
  rw [toNat_index room first, toNat_index room second] at number
  exact Fin.ext number

/-- The blocks of all entries are all the blocks. -/
theorem flatMap_entries {log : TimedBlocks Tx} (room : log.length < 2 ^ 64) :
    (log.entries.flatMap fun e => log.block e.blockNumber) = log.blocks.flatten := by
  rw [List.flatMap_def]
  congr 1
  refine List.ext_getElem (by simp [entries, blocks]) fun i _ inside => ?_
  have inside' : i < log.length := by simpa [blocks] using inside
  simp only [entries, List.getElem_map, List.getElem_mapIdx, block]
  rw [toNat_index room inside', List.getElem?_eq_getElem inside, Option.getD_some]

end TimedBlocks

/-- Leaving out lists that do not have `a` does not change how often it occurs. -/
theorem count_flatMap_filter {α β : Type} [DecidableEq β] {p : α → Bool} {f : α → List β} {a : β} :
    ∀ (l : List α), (∀ x ∈ l, a ∈ f x → p x) → ((l.filter p).flatMap f).count a = (l.flatMap f).count a := by
  intro l
  induction l with
  | nil => intro _; rfl
  | cons x rest ih =>
    intro kept
    have more := ih fun y mem => kept y (List.mem_cons_of_mem _ mem)
    rw [List.flatMap_cons, List.count_append, ← more]
    by_cases here : p x
    · rw [List.filter_cons_of_pos here, List.flatMap_cons, List.count_append]
    · have none : (f x).count a = 0 := List.count_eq_zero.2 fun mem => here (kept x List.mem_cons_self mem)
      rw [List.filter_cons_of_neg here, none, Nat.zero_add]

/-- A transaction all of whose blocks lie in the window is found there as often as in the journal. -/
theorem WindowExact.count [DecidableEq Tx] {log : TimedBlocks Tx} {startMillis endMillis : UInt64}
    {entries : List TimestampEntry} (h : WindowExact log startMillis endMillis entries) (room : log.length < 2 ^ 64)
    {tx : Tx} (inside : ∀ e, log.Records e → tx ∈ log.block e.blockNumber →
      startMillis ≤ e.timestamp ∧ e.timestamp ≤ endMillis) :
    (entries.flatMap fun e => log.block e.blockNumber).count tx = log.blocks.flatten.count tx := by
  have same : entries.Perm (log.entries.filter fun e => startMillis ≤ e.timestamp ∧ e.timestamp ≤ endMillis) := by
    rw [List.perm_ext_iff_of_nodup (nodup_of_sorted h.sorted) ((TimedBlocks.nodup_entries room).filter _)]
    intro e
    rw [h.exact e, List.mem_filter, TimedBlocks.mem_entries room, decide_eq_true_iff]
  rw [(same.flatMap_right _).count_eq, count_flatMap_filter _ fun e mem has => ?_, TimedBlocks.flatMap_entries room]
  exact decide_eq_true (inside e ((TimedBlocks.mem_entries room e).1 mem) has)

/-! ## The query between the builder's moves -/

section Snapshot

variable {w : Setup Tx Ov Val}

/-- The backend of a running frontend has the blocks of its run, each at the time of its commit. -/
theorem timedRun_of_reach {blocks : List (List Tx)} {start s : Frontend τ Tx Ov}
    (init : ∃ log, TimedRun w.design start.backend log ∧ log.blocks = blocks ++ start.committed.blocks)
    (reach : Reach (Frontend.step w) (BlockFits w blocks) start s) (alive : s.builder ≠ .terminated) :
    ∃ log, TimedRun w.design s.backend log ∧ log.blocks = blocks ++ s.committed.blocks := by
  refine reach.invariant (P := fun s => s.builder ≠ .terminated →
    ∃ log, TimedRun w.design s.backend log ∧ log.blocks = blocks ++ s.committed.blocks) (fun _ => init) ?_ alive
  intro s m s' held fits moved alive
  have held := held fun dead => by simp [step_terminated dead m] at moved
  cases step_change moved with
  | @committed env millis n before toBuild flight returned =>
    obtain ⟨log, run, same⟩ := held
    obtain ⟨-, fits⟩ := fits before toBuild flight
    rw [← same] at fits
    refine ⟨_, run.recorded fits (recorded_of_returned returned), ?_⟩
    simp only [TimedBlocks.blocks, History.blocks, List.map_append, List.map_cons, List.map_nil] at same ⊢
    rw [same, List.append_assoc]
  | addBlockThrew => exact absurd rfl alive
  | _ => exact held

/-- What was sent stays sent. -/
theorem sent_sublist {allowed : Frontend τ Tx Ov → Move Tx → Prop} {s s' : Frontend τ Tx Ov}
    (reach : Reach (Frontend.step w) allowed s s') : s.sent.Sublist s'.sent := by
  refine reach.invariant (P := fun s' => s.sent.Sublist s'.sent) (.refl _) ?_
  intro t m t' before _ moved
  cases step_change moved with
  | sent => exact before.trans (List.sublist_append_left _ _)
  | _ => exact before

/-- The blocks committed stay committed. -/
theorem inJournal_sublist {allowed : Frontend τ Tx Ov → Move Tx → Prop} {s s' : Frontend τ Tx Ov}
    (reach : Reach (Frontend.step w) allowed s s') : s.inJournal.Sublist s'.inJournal := by
  refine reach.invariant (P := fun s' => s.inJournal.Sublist s'.inJournal) (.refl _) ?_
  intro t m t' before _ moved
  cases step_change moved with
  | committed =>
    refine before.trans ?_
    simp only [Frontend.inJournal, History.blocks, List.map_append, List.flatten_append]
    exact List.sublist_append_left _ _
  | _ => exact before

/-- The times of the blocks that have a transaction lie in the window. -/
def CommittedIn (blocks : List (List Tx)) (startMillis endMillis : UInt64) (tx : Tx) (b : Backend τ) : Prop :=
  ∀ e ∈ records b.timestamps, ∀ txs, blocks[e.blockNumber.toNat]? = some txs → tx ∈ txs →
    startMillis ≤ e.timestamp ∧ e.timestamp ≤ endMillis

/-- How often a transaction is in the result, if the window reaches past the last block: as often
as in the mempool at the scan and in the journal at the query of the backend. -/
theorem window_count [DecidableEq Tx] (getTimestamp : Tx → UInt64) {log : TimedBlocks Tx}
    (checked scanned : Frontend τ Tx Ov) {queried : Frontend τ Tx Ov} {startMillis endMillis : UInt64} {tx : Tx}
    (run : TimedRun w.design queried.backend log) (reach : log.length ≤ maxBlocks)
    (reads : ∀ block ∈ log, ∀ tx ∈ block.2, w.design.ReadsBack tx)
    (past : checked.backend.metadata.lastBlockTimestamp < endMillis)
    (own : InWindow getTimestamp startMillis endMillis tx)
    (committed : CommittedIn log.blocks startMillis endMillis tx queried.backend) :
    ∃ enough, ∀ fuel, enough ≤ fuel → ∃ result b,
      checked.getTransactionsByTimeWindow w.design getTimestamp fuel startMillis endMillis (fun _ => .opens) scanned queried =
        some (.ok result, b) ∧ result.count tx = scanned.mempool.count tx + log.blocks.flatten.count tx := by
  have room : log.length < 2 ^ 64 := by unfold maxBlocks at reach; omega
  have ordered : startMillis ≤ endMillis := UInt64.le_trans own.1 own.2
  obtain ⟨entries, enough, exact, -, returns⟩ := run.windowReads reach reads ordered
  have inside : ∀ e, log.Records e → tx ∈ log.block e.blockNumber → startMillis ≤ e.timestamp ∧ e.timestamp ≤ endMillis := by
    rintro e ⟨txs, found⟩ has
    have block : log.blocks[e.blockNumber.toNat]? = some txs := by rw [TimedBlocks.blocks, List.getElem?_map, found]; rfl
    rw [TimedBlocks.block, block] at has
    exact committed e (((run.tracked room).entries e).2 ⟨txs, found⟩) txs block has
  refine ⟨enough, fun fuel le => ?_⟩
  obtain ⟨b, query⟩ := returns fuel le
  simp only [Frontend.getTransactionsByTimeWindow, query, if_pos past]
  have kept : (scanned.pendingIn getTimestamp startMillis endMillis).count tx = scanned.mempool.count tx := by
    unfold Frontend.pendingIn
    apply List.count_filter
    exact decide_eq_true own
  refine ⟨_, b, rfl, ?_⟩
  rw [List.count_append, kept, exact.count room inside]

/-- **A query between the builder's moves**: whatever the frontend does between the comparison, the
scan and the query of the backend, a transaction sent before them, with its own time and those of
its blocks in the window, is in the result as often as it was sent exactly when as many copies of
it have been committed since the scan as were in flight then. One sent once is in the result once
exactly when it was not in flight at the scan without being committed before the query, nor in
the mempool at the scan and committed before the query. -/
theorem window_snapshot [DecidableEq Tx] (w : Setup Tx Ov Val) (getTimestamp : Tx → UInt64) (visible : Nat → Visible)
    (file : Option (Image × Nat)) (backend : Backend τ) (earlier : TimedBlocks Tx)
    (start checked scanned queried : Frontend τ Tx Ov) (run : TimedRun w.design backend earlier)
    (room : earlier.length ≤ maxBlocks) (constructed : Frontend.construct w.design visible file backend = .ok start)
    (opened : Reach (Frontend.step w) (BlockFits w earlier.blocks) start checked)
    (toScan : Reach (Frontend.step w) (BlockFits w earlier.blocks) checked scanned)
    (toQuery : Reach (Frontend.step w) (BlockFits w earlier.blocks) scanned queried)
    (alive : queried.builder ≠ .terminated)
    (reads : ∀ tx, tx ∈ earlier.blocks.flatten ∨ tx ∈ queried.sent → w.design.ReadsBack tx)
    (startMillis endMillis : UInt64) (past : checked.backend.metadata.lastBlockTimestamp < endMillis) (tx : Tx)
    (own : InWindow getTimestamp startMillis endMillis tx) (before : queried.sent.count tx = checked.sent.count tx)
    (committed : CommittedIn (earlier.blocks ++ queried.committed.blocks) startMillis endMillis tx queried.backend) :
    ∃ enough, ∀ fuel, enough ≤ fuel → ∃ result b,
      checked.getTransactionsByTimeWindow w.design getTimestamp fuel startMillis endMillis (fun _ => .opens) scanned queried =
        some (.ok result, b) ∧
      (result.count tx = earlier.blocks.flatten.count tx + checked.sent.count tx ↔
        queried.inJournal.count tx = scanned.builder.inFlight.count tx + scanned.inJournal.count tx) ∧
      (earlier.blocks.flatten.count tx + checked.sent.count tx = 1 → (result.count tx = 1 ↔
        (tx ∈ scanned.builder.inFlight → tx ∈ queried.inJournal) ∧ (tx ∈ scanned.mempool → tx ∉ queried.inJournal))) := by
  obtain ⟨same, -, -, none⟩ := construct_start constructed
  have reach := (opened.trans toScan).trans toQuery
  have start_blocks : earlier.blocks ++ start.committed.blocks = earlier.blocks := by
    rw [none]
    exact List.append_nil _
  obtain ⟨log, run', blocks⟩ := timedRun_of_reach
    ⟨earlier, by rw [same]; exact run, start_blocks.symm⟩ reach alive
  have journal : Journal w.design queried.backend (earlier.blocks ++ queried.committed.blocks) :=
    committed_in_journal (by rw [start_blocks, same]; exact run.journal room) reach alive
  have short : log.length ≤ maxBlocks := by
    have bound := journal.bound
    rwa [← blocks, TimedBlocks.blocks, List.length_map] at bound
  have whole := conserved_of_reach constructed reach
  have reads' : ∀ block ∈ log, ∀ tx ∈ block.2, w.design.ReadsBack tx := by
    intro block mem tx inside
    apply reads
    have found : tx ∈ log.blocks.flatten := List.mem_flatten.2 ⟨_, List.mem_map_of_mem mem, inside⟩
    rw [blocks, List.flatten_append, List.mem_append] at found
    refine found.imp_right fun found => ?_
    have counted := whole.count alive tx
    have there : 0 < queried.inJournal.count tx := List.count_pos_iff.2 found
    exact List.count_pos_iff.1 (by omega)
  obtain ⟨enough, returns⟩ := window_count getTimestamp checked scanned run' short reads' past own
    (by rw [blocks]; exact committed)
  have at_scan := (conserved_of_reach constructed (opened.trans toScan)).count (alive_of_reach toQuery alive) tx
  have at_query := whole.count alive tx
  have sent_scan : checked.sent.count tx ≤ scanned.sent.count tx := (sent_sublist toScan).count_le tx
  have sent_query : scanned.sent.count tx ≤ queried.sent.count tx := (sent_sublist toQuery).count_le tx
  have kept : scanned.inJournal.count tx ≤ queried.inJournal.count tx := (inJournal_sublist toQuery).count_le tx
  refine ⟨enough, fun fuel le => ?_⟩
  obtain ⟨result, b, query, count⟩ := returns fuel le
  rw [blocks, List.flatten_append, List.count_append] at count
  change _ = _ + (_ + queried.inJournal.count tx) at count
  refine ⟨result, b, query, by omega, fun once => ?_⟩
  rw [← List.count_pos_iff, ← List.count_pos_iff, ← List.count_pos_iff]
  omega

/-- The frontend with 4 pending. -/
def pendingFour : Frontend (SortedRecords TimestampEntry TimestampEntry.compare) UInt8 Unit :=
  ⟨Backend.fresh, [4], (), .idle, [4], []⟩

/-- The frontend with 4 in flight. -/
def flyingFour : Frontend (SortedRecords TimestampEntry TimestampEntry.compare) UInt8 Unit :=
  ⟨Backend.fresh, [], (), .selected [4] [4], [4], []⟩

/-- The frontend with 4 committed at 100 ms. -/
def committedFour : Frontend (SortedRecords TimestampEntry TimestampEntry.compare) UInt8 Unit :=
  ⟨(Backend.fresh.addBlock byteDesign briskConfig (fun _ => Env.calm fun _ => 0) [4] 100).2, [], (), .committed, [4],
    [(0, [4])]⟩

theorem pendingFour_reach : Reach (Frontend.step singlySetup) (BlockFits singlySetup []) emptyFrontend pendingFour :=
  Reach.refl.tail (m := .sendTransaction (fun _ => 0) 4) trivial (by rfl)

theorem flyingFour_reach : Reach (Frontend.step singlySetup) (BlockFits singlySetup []) pendingFour flyingFour :=
  Reach.refl.tail (m := .select ⟨fun _ _ _ => 0, fun _ => 0⟩ 40) trivial (by rfl)

theorem committedFour_reach : Reach (Frontend.step singlySetup) (BlockFits singlySetup []) flyingFour committedFour := by
  refine Reach.refl.tail (m := .addBlock (fun _ => Env.calm fun _ => 0) 100) ?_ (by rfl)
  intro before toBuild flight
  cases flight
  exact ⟨by decide +kernel, by decide +kernel, by decide +kernel⟩

theorem committedFour_window : CommittedIn (committedFour.committed.blocks) 0 1000 4 committedFour.backend := by
  have tracked : records committedFour.backend.timestamps = [⟨100, 0⟩] := by decide +kernel
  intro e mem _ _ _
  rw [tracked, List.mem_singleton] at mem
  rw [mem]
  decide

/-- Found in flight by the scan and committed before the query, 4 is in the result once. -/
theorem window_snapshot_caught : ∃ enough, ∀ fuel, enough ≤ fuel → ∃ result b,
    flyingFour.getTransactionsByTimeWindow byteDesign UInt8.toUInt64 fuel 0 1000 (fun _ => .opens) flyingFour committedFour =
      some (.ok result, b) ∧ result.count 4 = 1 := by
  obtain ⟨enough, returns⟩ := window_snapshot singlySetup UInt8.toUInt64 (fun _ _ => 0) none Backend.fresh [] emptyFrontend
    flyingFour flyingFour committedFour .start (by decide) rfl (pendingFour_reach.trans flyingFour_reach) .refl
    committedFour_reach nofun (fun tx _ => byteDesign_readsBack tx) 0 1000 (by decide) 4 (by decide) (by decide)
    committedFour_window
  refine ⟨enough, fun fuel le => ?_⟩
  obtain ⟨result, b, query, -, once⟩ := returns fuel le
  exact ⟨result, b, query, (once (by decide)).2 ⟨fun _ => by decide, fun pending => absurd pending (by decide)⟩⟩

/-- 4 is sent, and then a query runs. With 4 in flight at both phases the result is empty; with 4
pending at the scan and committed before the query it has 4 twice. -/
theorem window_snapshot_torn :
    Reach (Frontend.step singlySetup) (BlockFits singlySetup []) emptyFrontend pendingFour ∧
    Reach (Frontend.step singlySetup) (BlockFits singlySetup []) pendingFour flyingFour ∧
    Reach (Frontend.step singlySetup) (BlockFits singlySetup []) flyingFour committedFour ∧
    InWindow UInt8.toUInt64 0 1000 4 ∧ CommittedIn (committedFour.committed.blocks) 0 1000 4 committedFour.backend ∧
    (∃ b, flyingFour.getTransactionsByTimeWindow byteDesign UInt8.toUInt64 10 0 1000 (fun _ => .opens) flyingFour flyingFour =
      some (.ok [], b)) ∧
    ∃ b, pendingFour.getTransactionsByTimeWindow byteDesign UInt8.toUInt64 10 0 1000 (fun _ => .opens) pendingFour
      committedFour = some (.ok [4, 4], b) :=
  ⟨pendingFour_reach, flyingFour_reach, committedFour_reach, by decide, committedFour_window, ⟨_, by rfl⟩, _, by rfl⟩

end Snapshot

end MagelessChain
