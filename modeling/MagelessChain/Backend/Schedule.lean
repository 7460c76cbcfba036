import MagelessChain.Backend.CommittedReads

/-!
# Commits and background writes

A caller works through its calls of `addBlock` while the executor runs the segment writes of
earlier blocks. `verify`, `apply` and `seal` read committed state through the catalog, so what a
block seals may depend on which of those writes are through. It does not where every read finds
the segments of all earlier blocks; `addBlock` does not wait for them.
-/

namespace MagelessChain

open Lib OrderedStore

/-- A payload that `seal` returned, with its index and block. -/
structure Sealed where
  index : UInt16
  block : UInt64
  payload : Bytes
  deriving DecidableEq, Repr

/-- The caller of `addBlock`: the calls to come, the call under way or the last one, and what was
sealed so far. -/
structure Driver (τ Tx Ov : Type) where
  calls : List (List Tx × UInt64)
  commit : Commit τ Tx Ov
  sealed : List Sealed

section Driver

variable {τ Tx Ov : Type} [OrderedStore τ TimestampEntry TimestampEntry.compare]

/-- Before the first call, over an empty data directory. -/
def Driver.start (calls : List (List Tx × UInt64)) : Driver τ Tx Ov := ⟨calls, ⟨[], 0, 0, .returned none, Backend.fresh⟩, []⟩

/-- What a step of `addBlock` seals. -/
def sealedAt (d : ChainDesign Tx Ov) (visible : Visible) (c : Commit τ Tx Ov) : List Sealed :=
  match c.pc with
  | .sealing n i ov =>
    if i < d.pairCount then
      match d.sealFamily i (visible (UInt16.ofNat i)) ov with
      | .ok payload => [⟨UInt16.ofNat i, n, payload⟩]
      | .error _ => []
    else []
  | _ => []

/-- One step of the call under way, or the next call. No call is made once the process died. -/
def Driver.step (d : ChainDesign Tx Ov) (config : BlockchainConfig) (env : Env) (s : Driver τ Tx Ov) :
    Option (Driver τ Tx Ov) :=
  match s.commit.outcome with
  | none => some { s with
      commit := AddBlock.step d config env s.commit
      sealed := s.sealed ++ sealedAt d env.visible s.commit }
  | some (.died _) => none
  | some _ =>
    match s.calls with
    | [] => none
    | (txs, millis) :: rest => some { s with calls := rest, commit := AddBlock.start txs millis s.commit.backend }

/-- All calls have ended, or the process has. -/
def Driver.finished (s : Driver τ Tx Ov) : Bool :=
  match s.commit.outcome with
  | none => false
  | some (.died _) => true
  | some _ => s.calls.isEmpty

end Driver

/-! ## The whole node -/

/-- The caller, the catalog, and the job of the `writeSegment` the caller is in. -/
structure Node (κ σ τ Tx Ov : Type) where
  driver : Driver τ Tx Ov
  catalog : Catalog κ σ
  writing : Option Nat

/-- Whose turn it is: the caller's, with the clock reading its catalog calls get, or a job's. -/
inductive Turn where
  | commit (now : UInt64)
  | job (j : Nat) (a : Act)

section Node

variable {κ σ τ Tx Ov : Type} [OrderedStore κ ContentsEntry ContentsEntry.compare]
  [OrderedStore σ SegmentMetadata SegmentMetadata.compare] [OrderedStore τ TimestampEntry TimestampEntry.compare]
  {d : ChainDesign Tx Ov}

/-- A node over an empty data directory. -/
def Node.start (calls : List (List Tx × UInt64)) : Node κ σ τ Tx Ov := ⟨Driver.start calls, Catalog.empty, none⟩

omit [OrderedStore κ ContentsEntry ContentsEntry.compare] [OrderedStore σ SegmentMetadata SegmentMetadata.compare]
  [OrderedStore τ TimestampEntry TimestampEntry.compare] in
/-- The call under way and the catalog, in their one process. -/
def Node.life (s : Node κ σ τ Tx Ov) : NodeLife κ σ τ Tx Ov := ⟨s.driver.commit, ⟨s.catalog, 0⟩, s.writing⟩

omit [OrderedStore κ ContentsEntry ContentsEntry.compare] [OrderedStore σ SegmentMetadata SegmentMetadata.compare]
  [OrderedStore τ TimestampEntry TimestampEntry.compare] in
/-- A node with calls to come and what was sealed so far. -/
def NodeLife.node (life : NodeLife κ σ τ Tx Ov) (calls : List (List Tx × UInt64)) (sealed : List Sealed) :
    Node κ σ τ Tx Ov :=
  ⟨⟨calls, life.commit, sealed⟩, life.catalog.catalog, life.writing⟩

/-- One turn. A step of `addBlock` sees what the catalog shows at that moment; no call is made once the
process died. -/
def Node.step (d : ChainDesign Tx Ov) (config : BlockchainConfig) (lib : CatalogLibrary) (s : Node κ σ τ Tx Ov) :
    Turn → Option (Node κ σ τ Tx Ov)
  | .job j a => (s.life.jobTurn lib j a).map fun life => life.node s.driver.calls s.driver.sealed
  | .commit now =>
    match s.driver.commit.outcome with
    | none => (s.life.commitTurn d config lib (s.catalog.visible now) .opens none now).map fun life =>
        life.node s.driver.calls (s.driver.sealed ++ sealedAt d (s.catalog.visible now) s.driver.commit)
    | some (.died _) => none
    | some _ =>
      match s.driver.calls with
      | [] => none
      | (txs, millis) :: rest => (s.life.step d config lib (.call txs millis)).map fun life => life.node rest s.driver.sealed

/-! ## Reads that find every earlier segment -/

/-- A step that reads committed state finds the segments of all earlier blocks. -/
def Settled (d : ChainDesign Tx Ov) (s : Node κ σ τ Tx Ov) (now : UInt64) : Prop :=
  ∀ n ∈ s.driver.commit.pc.reads d, s.catalog.Caught n now

/-- A turn that does not let the schedule into the chain. -/
def Undisturbed (d : ChainDesign Tx Ov) (s : Node κ σ τ Tx Ov) : Turn → Prop
  | .commit now => Settled d s now ∧ s.catalog.Unrefused
  | .job j a => BackendMove s.catalog (.act j a)

instance (s : Node κ σ τ Tx Ov) (now : UInt64) : Decidable (Settled d s now) :=
  Option.decidableForallMem _

instance (s : Node κ σ τ Tx Ov) : (t : Turn) → Decidable (Undisturbed d s t)
  | .commit now => inferInstanceAs (Decidable (Settled d s now ∧ ∀ job ∈ s.catalog.jobs, job.stage.returned.join = none))
  | .job j a => inferInstanceAs (Decidable (BackendMove s.catalog (.act j a)))

end Node

/-! ## What a driver seals -/

section Seals

variable {τ Tx Ov : Type} [OrderedStore τ TimestampEntry TimestampEntry.compare] {d : ChainDesign Tx Ov}
  {config : BlockchainConfig}

omit [OrderedStore τ TimestampEntry TimestampEntry.compare] in
/-- What is sealed depends on no more of the committed state than is read. -/
theorem sealedAt_congr {c : Commit τ Tx Ov} {view view' : Visible} (same : ReadsSame d c.pc view view') :
    sealedAt d view c = sealedAt d view' c := by
  obtain ⟨txs, millis, duration, pc, b⟩ := c
  cases pc with
  | sealing n i ov =>
    by_cases lt : i < d.pairCount
    · have same : view (UInt16.ofNat i) = view' (UInt16.ofNat i) := same lt
      simp only [sealedAt, if_pos lt, same]
    · simp only [sealedAt, if_neg lt]
  | _ => rfl

/-- A step seals the next slot of its block or none. -/
theorem sealedAt_cases (config : BlockchainConfig) {b : Backend τ} {c : Commit τ Tx Ov} (stores : Stores d b c)
    (env : Env) : sealedAt d env.visible c = [] ∨
    ∃ payload, sealedAt d env.visible c = [⟨UInt16.ofNat c.pc.upto, b.metadata.currentBlockHeight, payload⟩] ∧
      c.pc.upto < d.pairCount ∧ (AddBlock.step d config env c).pc.upto = c.pc.upto + 1 := by
  obtain ⟨txs, millis, duration, pc, b'⟩ := c
  cases pc with
  | sealing n i ov =>
    obtain ⟨le, segments, routed, stored⟩ := stores
    simp only [AddBlock.step, sealedAt]
    split
    · rename_i lt
      cases d.sealFamily i (env.visible (UInt16.ofNat i)) ov with
      | error e => exact .inl rfl
      | ok payload =>
        refine .inr ⟨payload, by rw [← stored.number]; rfl, lt, ?_⟩
        dsimp only
        split
        · rfl
        · split <;> rfl
    · exact .inl rfl
  | _ => exact .inl rfl

/-- A driver whose call under way started from `b`: what it has sealed is in order. -/
structure Driver.Steady (d : ChainDesign Tx Ov) (s : Driver τ Tx Ov) (b : Backend τ) : Prop where
  room : b.metadata.currentBlockHeight.toNat + 1 + s.calls.length < 2 ^ 64
  stores : Stores d b s.commit
  logged : ∀ e ∈ s.sealed, e.block.toNat < b.metadata.currentBlockHeight.toNat ∨
    (e.block = b.metadata.currentBlockHeight ∧ e.index.toNat < s.commit.pc.upto)
  distinct : (s.sealed.map fun e => (e.index, e.block)).Nodup

theorem Driver.Steady.start {calls : List (List Tx × UInt64)} (few : calls.length + 1 < 2 ^ 64) :
    (Driver.start calls : Driver τ Tx Ov).Steady d Backend.fresh where
  room := by change 0 + 1 + calls.length < 2 ^ 64; omega
  stores := rfl
  logged := fun _ mem => absurd mem List.not_mem_nil
  distinct := List.nodup_nil

/-- The height a call leaves: it is one more once the call may have sealed something. -/
theorem Driver.Steady.height {s : Driver τ Tx Ov} {b : Backend τ} (h : s.Steady d b) :
    s.commit.backend.metadata.currentBlockHeight.toNat = b.metadata.currentBlockHeight.toNat ∧ s.commit.pc.upto = 0 ∨
      s.commit.backend.metadata.currentBlockHeight.toNat = b.metadata.currentBlockHeight.toNat + 1 := by
  have room := h.room
  have next : s.commit.backend.metadata.currentBlockHeight = b.metadata.currentBlockHeight + 1 →
      s.commit.backend.metadata.currentBlockHeight.toNat = b.metadata.currentBlockHeight.toNat + 1 := by
    intro height
    rw [height, UInt64.toNat_add]
    exact Nat.mod_eq_of_lt (by simp; omega)
  rcases h.stores.tracker_cases with ⟨-, none, same | height⟩ | ⟨-, height⟩
  · exact .inl ⟨by rw [same], none⟩
  · exact .inr (next height)
  · exact .inr (next height)

/-- The next call. -/
theorem Driver.Steady.next {s : Driver τ Tx Ov} {b : Backend τ} (h : s.Steady d b)
    {txs : List Tx} {millis : UInt64} {rest : List (List Tx × UInt64)} (calls : s.calls = (txs, millis) :: rest) :
    Driver.Steady d { s with calls := rest, commit := AddBlock.start txs millis s.commit.backend } s.commit.backend := by
  have room := h.room
  rw [calls, List.length_cons] at room
  have height := h.height
  refine ⟨?_, rfl, fun e mem => .inl ?_, h.distinct⟩
  · change s.commit.backend.metadata.currentBlockHeight.toNat + 1 + rest.length < 2 ^ 64
    omega
  · rcases h.logged e mem with lt | ⟨block, index⟩
    · omega
    · rw [block]
      omega

/-- One step of the call under way. -/
theorem Driver.Steady.advance {config : BlockchainConfig} {s : Driver τ Tx Ov} {b : Backend τ} (h : s.Steady d b)
    (few : d.pairCount ≤ 65536) (env : Env) :
    Driver.Steady d { s with
      commit := AddBlock.step d config env s.commit
      sealed := s.sealed ++ sealedAt d env.visible s.commit } b := by
  obtain ⟨room, stores, logged, distinct⟩ := h
  rcases sealedAt_cases config stores env with none | ⟨payload, one, lt, next⟩
  · have le := @Stores.upto_step τ Tx Ov _ d config b s.commit stores few env
    refine ⟨room, stores.step env, fun e mem => ?_, ?_⟩
    · rw [none, List.append_nil] at mem
      exact (logged e mem).imp_right fun here => ⟨here.1, Nat.lt_of_lt_of_le here.2 le⟩
    · rw [none, List.append_nil]
      exact distinct
  · have index : (UInt16.ofNat s.commit.pc.upto).toNat = s.commit.pc.upto := by
      rw [UInt16.toNat_ofNat']
      exact Nat.mod_eq_of_lt (by omega)
    refine ⟨room, stores.step env, fun e mem => ?_, ?_⟩
    · rw [one, List.mem_append, List.mem_singleton] at mem
      change _ ∨ (_ ∧ _ < (AddBlock.step d config env s.commit).pc.upto)
      rw [next]
      rcases mem with mem | rfl
      · exact (logged e mem).imp_right fun here => ⟨here.1, Nat.lt_succ_of_lt here.2⟩
      · exact .inr ⟨rfl, by rw [index]; exact Nat.lt_succ_self _⟩
    · rw [one, List.map_append, List.map_singleton, List.nodup_append]
      refine ⟨distinct, List.nodup_singleton _, fun key mem other eq same => ?_⟩
      obtain ⟨e, here, rfl⟩ := List.mem_map.1 mem
      rw [List.mem_singleton.1 eq] at same
      have block : e.block = b.metadata.currentBlockHeight := congrArg Prod.snd same
      have slot : e.index = UInt16.ofNat s.commit.pc.upto := congrArg Prod.fst same
      rcases logged e here with below | ⟨-, below⟩
      · rw [block] at below
        omega
      · rw [slot, index] at below
        omega

/-- **Every step of a driver** keeps it in order. -/
theorem Driver.Steady.step {config : BlockchainConfig} {s s' : Driver τ Tx Ov} {b : Backend τ} (h : s.Steady d b)
    (few : d.pairCount ≤ 65536) {env : Env} (moved : s.step d config env = some s') : ∃ b', s'.Steady d b' := by
  unfold Driver.step at moved
  split at moved
  · cases moved
    exact ⟨b, h.advance few env⟩
  · cases moved
  · split at moved
    · cases moved
    · rename_i calls
      cases moved
      exact ⟨_, h.next calls⟩

end Seals

/-! ## Undisturbed runs -/

section Runs

variable {κ σ τ Tx Ov : Type} [OrderedStore κ ContentsEntry ContentsEntry.compare]
  [OrderedStore σ SegmentMetadata SegmentMetadata.compare] [OrderedStore τ TimestampEntry TimestampEntry.compare]
  {d : ChainDesign Tx Ov} {config : BlockchainConfig} {lib : CatalogLibrary} {calls : List (List Tx × UInt64)}

/-- The driver without a schedule: whatever it reads, it finds all that was routed. -/
def Driver.ideal (d : ChainDesign Tx Ov) (config : BlockchainConfig) (s : Driver τ Tx Ov) : Option (Driver τ Tx Ov) :=
  s.step d config (Env.calm (routedView s.commit.backend))

/-- The drivers a run without a schedule comes to. -/
abbrev Driver.Ideal (d : ChainDesign Tx Ov) (config : BlockchainConfig) (s s' : Driver τ Tx Ov) : Prop :=
  Reach (fun (t : Driver τ Tx Ov) (_ : Unit) => t.ideal d config) (fun _ _ => True) s s'

/-- A node whose driver has gone as without a schedule, and whose jobs are of what it routed. -/
structure Node.OnTrack (d : ChainDesign Tx Ov) (config : BlockchainConfig) (lib : CatalogLibrary)
    (calls : List (List Tx × UInt64)) (s : Node κ σ τ Tx Ov) : Prop where
  driver : Driver.Ideal d config (Driver.start calls) s.driver
  life : ∃ b, s.life.InStep d lib b

theorem Driver.Ideal.steady {s : Driver τ Tx Ov} (ideal : Driver.Ideal d config (Driver.start calls) s)
    (few : d.pairCount ≤ 65536) (bound : calls.length + 1 < 2 ^ 64) : ∃ b, s.Steady d b :=
  ideal.invariant (P := fun s => ∃ b, s.Steady d b) ⟨_, .start bound⟩ fun _ _ _ ⟨_, h⟩ _ moved => h.step few moved

omit [OrderedStore κ ContentsEntry ContentsEntry.compare] [OrderedStore σ SegmentMetadata SegmentMetadata.compare]
  [OrderedStore τ TimestampEntry TimestampEntry.compare] in
theorem NodeLife.life_node {life : NodeLife κ σ τ Tx Ov} (first : life.catalog.earlier = 0) {sealed : List Sealed} :
    (life.node calls sealed).life = life := by
  obtain ⟨commit, ⟨catalog, earlier⟩, writing⟩ := life
  cases first
  rfl

/-- A turn of the caller, inside a call. -/
theorem Node.OnTrack.inside {s : Node κ σ τ Tx Ov} (h : s.OnTrack d config lib calls) (few : d.pairCount ≤ 65536)
    {now : UInt64} (settled : Settled d s now) (unrefused : s.catalog.Unrefused) {life : NodeLife κ σ τ Tx Ov}
    (moved : s.life.commitTurn d config lib (s.catalog.visible now) .opens none now = some life) :
    (life.node s.driver.calls (s.driver.sealed ++ sealedAt d (s.catalog.visible now) s.driver.commit)).OnTrack
      d config lib calls := by
  obtain ⟨b, inStep⟩ := h.life
  have same := inStep.readsSame few (inStep.order.kept.visible_shows now) settled
  have first : life.catalog.earlier = 0 := by
    cases NodeLife.commitTurn_cases moved with
    | submits _ _ called => exact (CatalogLife.step_move called).2
    | returns | steps => rfl
  obtain ⟨next, went⟩ := inStep.commit few same unrefused moved
  refine ⟨?_, b, by rw [NodeLife.life_node first]; exact next⟩
  rcases went with ⟨waits, n, i, ov, version, payload, pc⟩ | ⟨going, advanced⟩
  · have none : sealedAt d (s.catalog.visible now) s.driver.commit = [] := by
      have pc : s.driver.commit.pc = .writeSegment n i ov version payload := pc
      rw [sealedAt, pc]
    have stays : (life.node s.driver.calls (s.driver.sealed ++ [])).driver = s.driver := by
      rw [List.append_nil]
      exact congrArg (fun c => (⟨s.driver.calls, c, s.driver.sealed⟩ : Driver τ Tx Ov)) waits
    rw [none, stays]
    exact h.driver
  · have seals : sealedAt d (s.catalog.visible now) s.driver.commit =
        sealedAt d (routedView s.driver.commit.backend) s.driver.commit := sealedAt_congr same
    apply h.driver.tail (m := ()) trivial
    have going : s.driver.commit.outcome = none := going
    simp only [Driver.ideal, Driver.step, going, NodeLife.node, advanced, seals]
    rfl

/-- The next call. -/
theorem Node.OnTrack.next {s : Node κ σ τ Tx Ov} (h : s.OnTrack d config lib calls) (few : d.pairCount ≤ 65536)
    (bound : calls.length + 1 < 2 ^ 64) {txs : List Tx} {millis : UInt64} {rest : List (List Tx × UInt64)}
    (more : s.driver.calls = (txs, millis) :: rest) (went : s.driver.ideal d config = some
      { s.driver with calls := rest, commit := AddBlock.start txs millis s.driver.commit.backend })
    {life : NodeLife κ σ τ Tx Ov} (moved : s.life.step d config lib (.call txs millis) = some life) :
    (life.node rest s.driver.sealed).OnTrack d config lib calls := by
  obtain ⟨b, inStep⟩ := h.life
  obtain ⟨b', steady⟩ := h.driver.steady few bound
  have room := steady.room
  have height := steady.height
  rw [more, List.length_cons] at room
  have next := inStep.call (show s.driver.commit.backend.metadata.currentBlockHeight.toNat + 1 < 2 ^ 64 by omega) moved
  obtain ⟨-, rfl⟩ := NodeLife.step_call moved
  exact ⟨h.driver.tail (m := ()) trivial went, s.driver.commit.backend, next⟩

/-- **One undisturbed turn** keeps a node on track. -/
theorem Node.OnTrack.step {s s' : Node κ σ τ Tx Ov} (h : s.OnTrack d config lib calls) (few : d.pairCount ≤ 65536)
    (bound : calls.length + 1 < 2 ^ 64) {t : Turn} (undisturbed : Undisturbed d s t)
    (moved : s.step d config lib t = some s') : s'.OnTrack d config lib calls := by
  cases t with
  | job j a =>
    obtain ⟨b, inStep⟩ := h.life
    obtain ⟨life, acted, rfl⟩ := Option.map_eq_some_iff.1 moved
    have next := inStep.job undisturbed acted
    obtain ⟨catalog, stepped, rfl⟩ := Option.map_eq_some_iff.1 acted
    refine ⟨h.driver, b, ?_⟩
    rw [NodeLife.life_node (CatalogLife.step_move stepped).2]
    exact next
  | commit now =>
    obtain ⟨settled, unrefused⟩ := undisturbed
    simp only [Node.step] at moved
    split at moved
    · obtain ⟨life, went, rfl⟩ := Option.map_eq_some_iff.1 moved
      exact h.inside few settled unrefused went
    · cases moved
    · rename_i outcome alive ended
      split at moved
      · cases moved
      · rename_i txs millis rest more
        obtain ⟨life, called, rfl⟩ := Option.map_eq_some_iff.1 moved
        apply h.next few bound more ?_ called
        simp only [Driver.ideal, Driver.step, ended, more]

theorem Node.OnTrack.start : (Node.start calls : Node κ σ τ Tx Ov).OnTrack d config lib calls :=
  ⟨.refl, _, .start lib⟩

/-! ## Two schedules -/

/-- The driver only adds to what it has sealed. -/
theorem Driver.Ideal.sealed {s s' : Driver τ Tx Ov} (ideal : Driver.Ideal d config s s') : s.sealed <+: s'.sealed := by
  refine ideal.invariant (P := fun t => s.sealed <+: t.sealed) (List.prefix_refl _) ?_
  rintro t - t' longer - moved
  unfold Driver.ideal Driver.step at moved
  split at moved
  · cases moved
    exact longer.trans (List.prefix_append _ _)
  · cases moved
  · split at moved <;> cases moved
    exact longer

theorem Driver.ideal_finished {s : Driver τ Tx Ov} (finished : s.finished = true) : s.ideal d config = none := by
  unfold Driver.finished at finished
  unfold Driver.ideal Driver.step
  split at finished
  · cases finished
  · rfl
  · rw [List.isEmpty_iff] at finished
    simp only [finished]

/-- No index and block was sealed with two payloads. -/
def SamePayloads (sealed sealed' : List Sealed) : Prop :=
  ∀ e ∈ sealed, ∀ e' ∈ sealed', e.index = e'.index → e.block = e'.block → e.payload = e'.payload

theorem SamePayloads.of_extends {sealed sealed' : List Sealed} (longer : sealed <+: sealed')
    (distinct : (sealed'.map fun e => (e.index, e.block)).Nodup) : SamePayloads sealed sealed' := by
  intro e mem e' mem' index block
  exact congrArg Sealed.payload (List.inj_on_of_nodup_map distinct (longer.subset mem) mem' (Prod.ext index block))

/-- **The schedule does not matter** between runs whose reads find every earlier segment: whatever
the executor does otherwise, an index and block get the same payload, and runs that end have
sealed the same. -/
theorem schedules_agree (d : ChainDesign Tx Ov) (config : BlockchainConfig) (lib : CatalogLibrary)
    (calls : List (List Tx × UInt64)) (few : d.pairCount ≤ 65536) (bound : calls.length + 1 < 2 ^ 64)
    (s s' : Node κ σ τ Tx Ov) (run : Reach (Node.step d config lib) (Undisturbed d) (Node.start calls) s)
    (run' : Reach (Node.step d config lib) (Undisturbed d) (Node.start calls) s') :
    SamePayloads s.driver.sealed s'.driver.sealed ∧
      (s.driver.finished = true → s'.driver.finished = true → s.driver.sealed = s'.driver.sealed) := by
  have track := run.invariant Node.OnTrack.start fun _ _ _ h ok moved => h.step few bound ok moved
  have track' := run'.invariant Node.OnTrack.start fun _ _ _ h ok moved => h.step few bound ok moved
  obtain ⟨b, steady⟩ := track.driver.steady few bound
  obtain ⟨b', steady'⟩ := track'.driver.steady few bound
  have stuck : ∀ {t u : Driver τ Tx Ov}, Driver.Ideal d config t u → t.finished = true → t = u := by
    intro t u on finished
    rcases on.head_cases with same | ⟨-, v, moved, -⟩
    · exact same
    · rw [Driver.ideal_finished finished] at moved
      cases moved
  rcases track.driver.total track'.driver with on | on
  · refine ⟨.of_extends (Driver.Ideal.sealed on) steady'.distinct, fun finished _ => ?_⟩
    rw [stuck on finished]
  · refine ⟨fun e mem e' mem' index block => ?_, fun _ finished => ?_⟩
    · exact (SamePayloads.of_extends (Driver.Ideal.sealed on) steady.distinct e' mem' e mem index.symm block.symm).symm
    · rw [stuck on finished]

end Runs

section Schedules

abbrev ListNode := Node (SortedRecords ContentsEntry ContentsEntry.compare)
  (SortedRecords SegmentMetadata SegmentMetadata.compare) (SortedRecords TimestampEntry TimestampEntry.compare) UInt8 Unit

/-- Turns of the caller. -/
def commits (k : Nat) (now : UInt64) : List Turn := List.replicate k (.commit now)

/-- The task of job `j`. -/
def taskTurns (j : Nat) (offset : UInt64) : List Turn :=
  [.job j (.allocate (some offset)), .job j (.store (some 1)), .job j (.insert false), .job j (.update 0),
    .job j .unregister]

/-- The first block, up to the return of its `writeSegment`. -/
def firstTurns : List Turn :=
  commits 17 50 ++ [.job 0 .walk, .job 0 (.number 50), .job 0 (.openNew true), .job 0 .register, .commit 50]

/-- The second block, after the first one's task: its segment goes to the same file. -/
def secondTurns : List Turn :=
  commits 17 60 ++ [.job 1 .walk, .job 1 .walk, .job 1 (.pick true), .job 1 .register, .commit 60] ++ taskTurns 1 200 ++
    commits 4 60

/-- Each task runs as soon as it is submitted. -/
def promptTurns : List Turn := firstTurns ++ taskTurns 0 100 ++ commits 4 60 ++ secondTurns

/-- The first task runs when its block has returned. -/
def patientTurns : List Turn := firstTurns ++ commits 4 60 ++ taskTurns 0 100 ++ secondTurns

/-- The first task runs when the second block is sealed. -/
def lateTurns : List Turn :=
  firstTurns ++ commits 4 60 ++ commits 17 60 ++
    [.job 1 .walk, .job 1 (.number 60), .job 1 (.openNew true), .job 1 .register, .commit 60] ++ taskTurns 0 100 ++
    taskTurns 1 200 ++ commits 4 60

def twoCalls : List (List UInt8 × UInt64) := [([7], 100), ([9], 200)]

/-- Turns, none if one of them lets the schedule in. -/
def undisturbedTurns (s : ListNode) (t : Turn) : Option ListNode :=
  if Undisturbed countDesign s t then Node.step countDesign briskConfig plainLibrary s t else none

theorem schedules_agree_patient : ∃ s s' : ListNode,
    moves undisturbedTurns promptTurns (Node.start twoCalls) = some s ∧
    moves undisturbedTurns patientTurns (Node.start twoCalls) = some s' ∧
    SamePayloads s.driver.sealed s'.driver.sealed ∧ s.driver.sealed = s'.driver.sealed := by
  have prompt : (moves undisturbedTurns promptTurns (Node.start twoCalls)).map (fun s => s.driver.finished) =
      some true := by decide +kernel
  have patient : (moves undisturbedTurns patientTurns (Node.start twoCalls)).map (fun s => s.driver.finished) =
      some true := by decide +kernel
  obtain ⟨s, reached, finished⟩ := Option.map_eq_some_iff.1 prompt
  obtain ⟨s', reached', finished'⟩ := Option.map_eq_some_iff.1 patient
  obtain ⟨same, ended⟩ := schedules_agree countDesign briskConfig plainLibrary twoCalls (by decide) (by decide) s s'
    (Reach.refl.guarded _ reached) (Reach.refl.guarded _ reached')
  exact ⟨s, s', reached, reached', same, ended finished finished'⟩

/-- The same two calls at the same clock readings: the second block counts the first one's segment
in one schedule and not in the other. -/
theorem schedules_differ : ∃ s s' : ListNode,
    moves (Node.step countDesign briskConfig plainLibrary) promptTurns (Node.start twoCalls) = some s ∧
    moves (Node.step countDesign briskConfig plainLibrary) lateTurns (Node.start twoCalls) = some s' ∧
    s.driver.sealed = [⟨0, 0, [1]⟩, ⟨0, 1, [2]⟩] ∧ s'.driver.sealed = [⟨0, 0, [1]⟩, ⟨0, 1, [1]⟩] ∧
    s.driver.finished = true ∧ s'.driver.finished = true ∧ ¬ SamePayloads s.driver.sealed s'.driver.sealed := by
  have prompt : (moves (Node.step countDesign briskConfig plainLibrary) promptTurns (Node.start twoCalls : ListNode)).map
      (fun s => (s.driver.sealed, s.driver.finished)) = some ([⟨0, 0, [1]⟩, ⟨0, 1, [2]⟩], true) := by decide +kernel
  have late : (moves (Node.step countDesign briskConfig plainLibrary) lateTurns (Node.start twoCalls : ListNode)).map
      (fun s => (s.driver.sealed, s.driver.finished)) = some ([⟨0, 0, [1]⟩, ⟨0, 1, [1]⟩], true) := by decide +kernel
  obtain ⟨s, reached, facts⟩ := Option.map_eq_some_iff.1 prompt
  obtain ⟨s', reached', facts'⟩ := Option.map_eq_some_iff.1 late
  obtain ⟨sealed, finished⟩ := Prod.mk.inj facts
  obtain ⟨sealed', finished'⟩ := Prod.mk.inj facts'
  refine ⟨s, s', reached, reached', sealed, sealed', finished, finished', fun same => ?_⟩
  rw [sealed, sealed'] at same
  exact absurd (same ⟨0, 1, [2]⟩ (by simp) ⟨0, 1, [1]⟩ (by simp) rfl rfl) (by decide)

end Schedules

end MagelessChain
