import MagelessChain.Chain.Registry
import MagelessChain.Backend.Effects

/-!
# Indexes and families from registration to disk

Three loops of `BlockchainBackend` go through the registrations by position: the one that attaches
each index to the catalog, the one that attaches each family to its index, and the one that seals
each family into a segment. Positions, per-type ids and the tables keyed by type agree in all of
them, so the state of a family goes to the lineage of the index in the same position.
-/

namespace MagelessChain

open Lib

/-- What an application registers, in order, and the virtual functions of its classes. -/
structure Registrations (K Ix Fam : Type) where
  /-- the calls of `registerIndex<T>`, a type and an instance each -/
  indexes : List (K × Option Ix)
  /-- the calls of `registerOverride<T>` -/
  overrides : List K
  /-- the default constructor of an override family -/
  create : K → Fam
  /-- `BlockchainIndex::encodingVersion` -/
  encodingVersion : Ix → UInt16
  /-- `IndexOverrideFamilyBase::attach` -/
  attach : Ix → Fam → Fam
  /-- `IndexOverrideFamilyBase::seal`, reading the committed segments of the index -/
  sealFamily : Multiset Segment → Fam → Except Exn Bytes

/-- The virtual functions of `Transaction`, over override contents `Ov`, and the type registry. -/
structure TransactionClasses (Tx Ov : Type) where
  verify : Visible → Ov → Tx → Bool
  apply : Visible → Tx → Ov → Ov × Except Exn Bool
  write : Tx → Bytes × Option Exn
  getFactory : UInt8 → Option (FactoryFunc Tx)

namespace Registrations

variable {K Ix Fam Tx : Type} [DecidableEq K] (r : Registrations K Ix Fam)

/-- The index registered in a position, `none` for a null instance and past the last. -/
def indexAt (i : Nat) : Option Ix := (r.indexes[i]?).bind (·.2)

def indexRegistry : BackendRegistry K Ix := .ofCalls r.indexes

def overrideRegistry : StateOverrideRegistry K Fam := .ofCalls r.create r.overrides

/-- `attachIndexesToStorage`: the calls of `BlockchainIndex::attach`, in order. -/
def attachIndexesToStorage : List (Ix × UInt16) :=
  (List.range r.indexRegistry.entries.length).filterMap fun i =>
    match r.indexRegistry.getIndexAt (UInt16.ofNat i) with
    | none => none
    | some ix => some (ix, UInt16.ofNat i)

/-- `attachedIndexId` of the index objects after calls of `attach`. -/
def attachedIndexId [DecidableEq Ix] (calls : List (Ix × UInt16)) : Ix → Option UInt16 :=
  calls.foldl (fun attached call => Function.update attached call.1 (some call.2)) fun _ => none

/-- One round of `attachOverrideFamilies`. -/
def attachFamily (state : StateOverride K Fam) (i : Nat) : StateOverride K Fam :=
  match r.indexRegistry.getIndexAt (UInt16.ofNat i) with
  | none => state
  | some ix => state.mutFamilyAt i (r.attach ix)

/-- `attachOverrideFamilies`. -/
def attachOverrideFamilies (state : StateOverride K Fam) : StateOverride K Fam :=
  let n := state.familySize
  let pairCount := if n < r.indexRegistry.entries.length then n else r.indexRegistry.entries.length
  (List.range pairCount).foldl r.attachFamily state

theorem order_attachFamilies (state : StateOverride K Fam) (slots : List Nat) :
    (slots.foldl r.attachFamily state).order = state.order := by
  induction slots generalizing state with
  | nil => rfl
  | cons i slots ih =>
    rw [List.foldl_cons, ih, attachFamily]
    split
    · rfl
    · exact StateOverride.order_mutFamilyAt _ _ _

/-- A `StateOverride` of this chain: transactions change its families, never its slots. -/
def Override : Type := { s : StateOverride K Fam // s.order = StateOverride.slots r.overrideRegistry }

/-- `newStateOverride`. -/
def newStateOverride : r.Override :=
  ⟨r.attachOverrideFamilies (.construct r.overrideRegistry), r.order_attachFamilies _ _⟩

/-- The application's side of the library, for these registrations. -/
def design (t : TransactionClasses Tx r.Override) : ChainDesign Tx r.Override where
  freshOverride := r.newStateOverride
  verify := t.verify
  apply := t.apply
  write := t.write
  getFactory := t.getFactory
  familySize := (StateOverride.slots r.overrideRegistry).length
  indexCount := r.indexRegistry.entries.length
  encodingVersion id := (r.indexRegistry.getIndexAt id).map r.encodingVersion
  -- the loop that seals stays below `familySize`
  sealFamily i committed ov :=
    match ov.1.familyAt i with
    | none => .ok []
    | some family => r.sealFamily committed family

section Positions

variable {r}

theorem length_indexRegistry : r.indexRegistry.entries.length = r.indexes.length :=
  (BackendRegistry.registers_ofCalls r.indexes).length

theorem keys_overrideRegistry : r.overrideRegistry.entries.map (·.key) = r.overrides :=
  StateOverrideRegistry.keys_ofCalls r.create r.overrides

theorem length_slots : (StateOverride.slots r.overrideRegistry).length = r.overrides.length := by
  have keys := congrArg List.length (keys_overrideRegistry (r := r))
  rw [List.length_map] at keys
  rw [StateOverride.slots, List.length_map, keys]

theorem pairCount_design (t : TransactionClasses Tx r.Override) :
    (r.design t).pairCount = min r.overrides.length r.indexes.length := by
  rw [ChainDesign.pairCount]
  simp only [design, length_slots, length_indexRegistry]
  split <;> omega

/-- In every position of the registrations, the backend finds the index registered there. -/
theorem getIndexAt_position (few : WithinIds (r.indexes.map (·.1))) {i : Nat} (inside : i < r.indexes.length) :
    r.indexRegistry.getIndexAt (UInt16.ofNat i) = r.indexAt i := by
  rw [indexRegistry, (BackendRegistry.registers_ofCalls r.indexes).getIndexAt few inside, indexAt,
    List.getElem?_eq_getElem inside]
  rfl

/-- **Attached indexes**: the index in each position is attached with that position. -/
theorem attachIndexesToStorage_eq (few : WithinIds (r.indexes.map (·.1))) : r.attachIndexesToStorage =
    (List.range r.indexes.length).filterMap fun i => (r.indexAt i).map fun ix => (ix, UInt16.ofNat i) := by
  rw [attachIndexesToStorage, length_indexRegistry]
  refine List.filterMap_congr fun i mem => ?_
  rw [getIndexAt_position few (List.mem_range.1 mem)]
  cases r.indexAt i <;> rfl

theorem attachedIndexId_snoc [DecidableEq Ix] (calls : List (Ix × UInt16)) (ix : Ix) (id : UInt16) :
    attachedIndexId (calls ++ [(ix, id)]) = Function.update (attachedIndexId calls) ix (some id) := by
  rw [attachedIndexId, List.foldl_append]
  rfl

/-- An index object has the id of the last position it was registered in. -/
theorem attachedIndexId_eq [DecidableEq Ix] (few : WithinIds (r.indexes.map (·.1))) {i : Nat} {ix : Ix}
    (here : r.indexAt i = some ix) (last : ∀ j, r.indexAt j = some ix → j ≤ i) :
    attachedIndexId r.attachIndexesToStorage ix = some (UInt16.ofNat i) := by
  have inside : i < r.indexes.length := by
    obtain ⟨call, found, -⟩ := Option.bind_eq_some_iff.1 here
    exact (List.getElem?_eq_some_iff.1 found).1
  have upTo : ∀ m, i < m → attachedIndexId ((List.range m).filterMap fun i =>
      (r.indexAt i).map fun ix => (ix, UInt16.ofNat i)) ix = some (UInt16.ofNat i) := by
    intro m
    induction m with
    | zero => exact fun lt => absurd lt (Nat.not_lt_zero _)
    | succ m ih =>
      intro lt
      rw [List.range_succ, List.filterMap_append]
      obtain before | rfl := Nat.lt_succ_iff_lt_or_eq.1 lt
      · cases other : r.indexAt m with
        | none => simpa [other] using ih before
        | some ix' =>
          have apart : ix ≠ ix' := by
            rintro rfl
            exact absurd (last m other) (Nat.not_le.2 before)
          simpa [other, attachedIndexId_snoc, Function.update_of_ne apart] using ih before
      · simp [here, attachedIndexId_snoc]
  rw [attachIndexesToStorage_eq few]
  exact upTo r.indexes.length inside

/-- What `attachOverrideFamilies` makes of a family in a position. -/
def attachedAt (r : Registrations K Ix Fam) (i : Nat) (family : Fam) : Fam :=
  match r.indexAt i with
  | none => family
  | some ix => r.attach ix family

/-- One round attaches the family in its position and no other. -/
theorem familyAt_attachFamily (few : WithinIds (r.indexes.map (·.1))) {state : StateOverride K Fam}
    (nodup : state.order.Nodup) {i j : Nat} (known : i < r.indexes.length) (inside : j < state.order.length) :
    (r.attachFamily state i).familyAt j =
      if j = i then (state.familyAt j).map (r.attachedAt i) else state.familyAt j := by
  rw [attachFamily, getIndexAt_position few known]
  unfold attachedAt
  cases r.indexAt i with
  | none => simp
  | some ix =>
    rw [StateOverride.familyAt_mutFamilyAt]
    by_cases same : j = i
    · rw [same, if_pos rfl, if_pos rfl]
    · rw [if_neg same, if_neg fun eq => same ((List.getElem?_inj inside nodup).1 eq)]

/-- The families of the first positions are attached. -/
theorem familyAt_attachFamilies (few : WithinIds (r.indexes.map (·.1))) {state : StateOverride K Fam}
    (nodup : state.order.Nodup) {j : Nat} (inside : j < state.order.length) {m : Nat} (le : m ≤ r.indexes.length) :
    ((List.range m).foldl r.attachFamily state).familyAt j =
      if j < m then (state.familyAt j).map (r.attachedAt j) else state.familyAt j := by
  induction m with
  | zero => rfl
  | succ m ih =>
    have order := r.order_attachFamilies state (List.range m)
    rw [List.range_succ, List.foldl_append, List.foldl_cons, List.foldl_nil,
      familyAt_attachFamily few (order ▸ nodup) le (order ▸ inside), ih (by omega)]
    obtain lt | rfl | gt := Nat.lt_trichotomy j m
    · rw [if_neg (by omega), if_pos lt, if_pos (by omega)]
    · rw [if_pos rfl, if_neg (Nat.lt_irrefl _), if_pos (Nat.lt_succ_self _)]
    · rw [if_neg (by omega), if_neg (by omega), if_neg (by omega)]

/-- **Attached families**: in every override `newStateOverride` returns, each family is a new one,
attached once to the index in its position, where there is one, and to no other. -/
theorem familyAt_newStateOverride (few : WithinIds (r.indexes.map (·.1))) (few' : WithinIds r.overrides) {i : Nat}
    (inside : i < r.overrides.length) :
    r.newStateOverride.1.familyAt i = some (r.attachedAt i (r.create r.overrides[i])) := by
  have keys : WithinIds (r.overrideRegistry.entries.map (·.key)) := by rwa [keys_overrideRegistry]
  have slots : (StateOverride.construct r.overrideRegistry).order.length = r.overrides.length := length_slots
  have nodup : (StateOverride.construct r.overrideRegistry).order.Nodup := StateOverride.nodup_slots keys
  have listed : (r.overrideRegistry.entries.map fun e => (e.key, e.factory ()))[i]? =
      some (r.overrides[i], r.create r.overrides[i]) := by
    rw [overrideRegistry, StateOverrideRegistry.entries_ofCalls, List.getElem?_map, List.getElem?_eq_getElem inside]
    rfl
  rw [List.getElem?_map, Option.map_eq_some_iff] at listed
  obtain ⟨e, entry, made⟩ := listed
  change (r.attachOverrideFamilies _).familyAt i = _
  rw [attachOverrideFamilies, StateOverride.familySize, slots, length_indexRegistry,
    familyAt_attachFamilies few nodup (slots ▸ inside) (by split <;> omega), StateOverride.familyAt_construct keys entry,
    (Prod.mk.inj made).2]
  by_cases known : i < r.indexes.length
  · rw [if_pos (by split <;> omega)]
    rfl
  · have none : r.indexAt i = none := by rw [indexAt, List.getElem?_eq_none (Nat.not_lt.1 known)]; rfl
    rw [if_neg (by split <;> omega), attachedAt, none]

end Positions

end Registrations

/-! ## What a block submits -/

section Commits

variable {τ Tx Ov : Type} {d : ChainDesign Tx Ov} {env : Nat → Env}

/-- `ov` is what a fresh override becomes when the transactions are applied to it in order, each
reading the committed state of some step of the call. -/
inductive BlockApplied (d : ChainDesign Tx Ov) (env : Nat → Env) : List Tx → Ov → Prop where
  | start : BlockApplied d env [] d.freshOverride
  | next {done : List Tx} {ov ov' : Ov} {tx : Tx} {result : Bool} (k : Nat) : BlockApplied d env done ov →
      d.apply (env k).visible tx ov = (ov', .ok result) → BlockApplied d env (done ++ [tx]) ov'

/-- The segment a payload gives in a slot: none if it is empty, or the index is null. -/
def slotSegment (d : ChainDesign Tx Ov) (n : UInt64) (i : Nat) (payload : Bytes) : Option Segment :=
  if payload.length = 0 then none
  else (d.encodingVersion (UInt16.ofNat i)).map fun version => AddBlock.segmentOf n i version payload

/-- `segments` are what the first `i` families of `ov` are sealed into for block `n`. -/
inductive SealedInto (d : ChainDesign Tx Ov) (env : Nat → Env) (n : UInt64) (ov : Ov) : Nat → List Segment → Prop where
  | start : SealedInto d env n ov 0 []
  | next {i : Nat} {segments : List Segment} {payload : Bytes} (k : Nat) : SealedInto d env n ov i segments →
      d.sealFamily i ((env k).visible (UInt16.ofNat i)) ov = .ok payload →
      SealedInto d env n ov (i + 1) (segments ++ (slotSegment d n i payload).toList)

theorem indexId_of_slotSegment {n : UInt64} {i : Nat} {payload : Bytes} {segment : Segment}
    (mem : segment ∈ (slotSegment d n i payload).toList) : segment.indexId = UInt16.ofNat i := by
  rw [Option.mem_toList, slotSegment] at mem
  split at mem
  · cases mem
  · obtain ⟨version, -, rfl⟩ := Option.map_eq_some_iff.1 mem
    rfl

/-- Every segment is for one of the slots sealed. -/
theorem SealedInto.within {n : UInt64} {ov : Ov} {i : Nat} {segments : List Segment} (h : SealedInto d env n ov i segments)
    (few : i ≤ 65536) : ∀ segment ∈ segments, segment.indexId.toNat < i := by
  induction h with
  | start => exact fun segment mem => absurd mem List.not_mem_nil
  | @next i segments payload k _ _ ih =>
    intro segment mem
    obtain before | here := List.mem_append.1 mem
    · exact Nat.lt_succ_of_lt (ih (by omega) segment before)
    · rw [indexId_of_slotSegment here, UInt16.toNat_ofNat', Nat.mod_eq_of_lt (by omega)]
      exact Nat.lt_succ_self i

/-- **The segments of one slot** are what its family was sealed into. -/
theorem SealedInto.slot {n : UInt64} {ov : Ov} {i : Nat} {segments : List Segment} (h : SealedInto d env n ov i segments)
    (few : i ≤ 65536) {j : Nat} (inside : j < i) :
    ∃ k payload, d.sealFamily j ((env k).visible (UInt16.ofNat j)) ov = .ok payload ∧
      segments.filter (fun segment => segment.indexId = UInt16.ofNat j) = (slotSegment d n j payload).toList := by
  induction h with
  | start => exact absurd inside (Nat.not_lt_zero _)
  | @next i segments payload k before sealed ih =>
    obtain earlier | rfl := Nat.lt_succ_iff_lt_or_eq.1 inside
    · obtain ⟨k', payload', sealed', own⟩ := ih (by omega) earlier
      have others : (slotSegment d n i payload).toList.filter (fun segment => segment.indexId = UInt16.ofNat j) = [] := by
        refine List.filter_eq_nil_iff.2 fun segment mem same => ?_
        have ids := congrArg UInt16.toNat ((indexId_of_slotSegment mem).symm.trans (of_decide_eq_true same))
        rw [UInt16.toNat_ofNat', UInt16.toNat_ofNat', Nat.mod_eq_of_lt (by omega), Nat.mod_eq_of_lt (by omega)] at ids
        omega
      exact ⟨k', payload', sealed', by rw [List.filter_append, own, others, List.append_nil]⟩
    · have others : segments.filter (fun segment => segment.indexId = UInt16.ofNat j) = [] := by
        refine List.filter_eq_nil_iff.2 fun segment mem same => ?_
        have lt := before.within (by omega) segment mem
        rw [of_decide_eq_true same, UInt16.toNat_ofNat', Nat.mod_eq_of_lt (by omega)] at lt
        exact Nat.lt_irrefl _ lt
      have own : (slotSegment d n j payload).toList.filter (fun segment => segment.indexId = UInt16.ofNat j) =
          (slotSegment d n j payload).toList :=
        List.filter_eq_self.2 fun segment mem => decide_eq_true (indexId_of_slotSegment mem)
      exact ⟨k, payload, sealed, by rw [List.filter_append, others, own, List.nil_append]⟩

variable [OrderedStore τ TimestampEntry TimestampEntry.compare] {b : Backend τ} {config : BlockchainConfig}

/-- The first `i` families of the block's override have been sealed, and their segments submitted. -/
def SubmittedSlots (d : ChainDesign Tx Ov) (env : Nat → Env) (b : Backend τ) (c : Commit τ Tx Ov) (n : UInt64) (ov : Ov)
    (i : Nat) : Prop :=
  BlockApplied d env c.txs ov ∧ ∃ segments, SealedInto d env n ov i segments ∧
    c.backend.submitted = b.submitted ++ segments

/-- How far a call that started from `b` has got with sealing its block. -/
def Committing (d : ChainDesign Tx Ov) (env : Nat → Env) (b : Backend τ) (c : Commit τ Tx Ov) : Prop :=
  match c.pc with
  | .commitApply _ todo ov => c.backend.submitted = b.submitted ∧
      ∃ done, c.txs = done ++ todo ∧ BlockApplied d env done ov
  | .sealing n i ov => i ≤ d.pairCount ∧ SubmittedSlots d env b c n ov i
  | .writeSegment n i ov version payload => i < d.pairCount ∧ SubmittedSlots d env b c n ov i ∧
      (∃ k, d.sealFamily i ((env k).visible (UInt16.ofNat i)) ov = .ok payload) ∧
      slotSegment d n i payload = some (AddBlock.segmentOf n i version payload)
  | .report n | .sync n | .finish n | .returned (some n) => ∃ ov, SubmittedSlots d env b c n ov d.pairCount
  | .returned none | .threw _ _ | .died _ => True
  | _ => c.backend.submitted = b.submitted

theorem Committing.step {c : Commit τ Tx Ov} (h : Committing d env b c) (k : Nat) :
    Committing d env b (AddBlock.step d config (env k) c) := by
  have same : (∀ n i ov version payload, c.pc ≠ .writeSegment n i ov version payload) →
      (AddBlock.step d config (env k) c).backend.submitted = c.backend.submitted := AddBlock.step_submitted
  obtain ⟨txs, millis, duration, pc, b'⟩ := c
  cases pc with
  | enter =>
    simp only [AddBlock.step]
    split
    · exact h
    · trivial
    · trivial
  | verify todo ov =>
    cases todo with
    | nil => exact h
    | cons tx todo =>
      simp only [AddBlock.step]
      split
      · exact h
      · trivial
  | verifyApply tx todo ov =>
    simp only [AddBlock.step]
    split
    · exact h
    · trivial
  | takeNumber => exact h
  | openEpoch n =>
    replace same := same (by simp)
    simp only [AddBlock.step] at same ⊢
    split <;> (rename_i eq; rw [eq] at same)
    · exact same.trans h
    · trivial
    · trivial
  | blockHeader n => exact (same (by simp)).trans h
  | transactions n todo =>
    replace same := same (by simp)
    cases todo with
    | nil =>
      simp only [AddBlock.step]
      split <;> exact h
    | cons tx todo =>
      simp only [AddBlock.step] at same ⊢
      split
      · exact same.trans h
      · trivial
  | nextSlot n => exact (same (by simp)).trans h
  | setTimestamp n => exact h
  | track n =>
    simp only [AddBlock.step]
    split
    · trivial
    · exact ⟨h, [], rfl, .start⟩
  | commitApply n todo ov =>
    obtain ⟨submitted, done, rfl, applied⟩ := h
    cases todo with
    | nil => exact ⟨Nat.zero_le _, by rwa [List.append_nil], [], .start, submitted.trans (List.append_nil _).symm⟩
    | cons tx todo =>
      simp only [AddBlock.step]
      split
      · rename_i result here
        exact ⟨submitted, done ++ [tx], by rw [List.append_assoc]; rfl, applied.next k here⟩
      · trivial
  | sealing n i ov =>
    obtain ⟨le, applied, segments, before, submitted⟩ := h
    simp only [AddBlock.step]
    split
    · rename_i lt
      split
      · trivial
      · rename_i payload sealed
        have next := before.next k sealed
        split
        · rename_i empty
          rw [slotSegment, if_pos empty, Option.toList_none, List.append_nil] at next
          exact ⟨lt, applied, segments, next, submitted⟩
        · rename_i nonempty
          split
          · rename_i null
            rw [slotSegment, if_neg nonempty, null, Option.map_none, Option.toList_none, List.append_nil] at next
            exact ⟨lt, applied, segments, next, submitted⟩
          · rename_i version registered
            refine ⟨lt, ⟨applied, segments, before, submitted⟩, ⟨k, sealed⟩, ?_⟩
            rw [slotSegment, if_neg nonempty, registered]
            rfl
    · rename_i ge
      obtain rfl : i = d.pairCount := by omega
      exact ⟨ov, applied, segments, before, submitted⟩
  | writeSegment n i ov version payload =>
    obtain ⟨lt, ⟨applied, segments, before, submitted⟩, ⟨k', sealed⟩, own⟩ := h
    simp only [AddBlock.step]
    split
    · trivial
    · have next := before.next k' sealed
      rw [own] at next
      refine ⟨lt, applied, _, next, ?_⟩
      change b'.submitted ++ [_] = _
      rw [show b'.submitted = _ from submitted, List.append_assoc]
      rfl
  | report n =>
    simp only [AddBlock.step]
    split
    · trivial
    · exact h
  | sync n => exact h
  | finish n => exact h
  | returned result => cases result <;> exact h
  | threw site e => trivial
  | died signal => trivial

/-- **What a block submits**: a call that returned a number has applied its transactions to a fresh
override and submitted what its families were sealed into. -/
theorem addBlock_submits {txs : List Tx} {millis n : UInt64}
    (h : (b.addBlock d config env txs millis).1 = some (.returned (some n))) :
    ∃ ov segments, BlockApplied d env txs ov ∧ SealedInto d env n ov d.pairCount segments ∧
      (b.addBlock d config env txs millis).2.submitted = b.submitted ++ segments := by
  have start : Committing d env b (AddBlock.start txs millis b : Commit τ Tx Ov) := rfl
  have committing := (AddBlock.machine d config).after_induction env start (fun k _ h => h.step k)
    ((AddBlock.machine d config).rank (AddBlock.start txs millis b))
  have args := (after_args d config env txs millis b ((AddBlock.machine d config).rank (AddBlock.start txs millis b))).1
  change Committing d env b (b.addBlockEnd d config env txs millis) at committing
  change (b.addBlockEnd d config env txs millis).txs = txs at args
  unfold Committing SubmittedSlots at committing
  rw [outcome_eq h, args] at committing
  obtain ⟨ov, applied, segments, into, submitted⟩ := committing
  exact ⟨ov, segments, applied, into, submitted⟩

end Commits

/-! ## From registration to disk -/

/-- The segments a block submits for its override: one for each position below both counts whose
payload is not empty, under the position as index id. -/
structure Registrations.Paired {K Ix Fam : Type} [DecidableEq K] (r : Registrations K Ix Fam) (env : Nat → Env) (n : UInt64)
    (ov : r.Override) (segments : List Segment) : Prop where
  within : ∀ segment ∈ segments, segment.indexId.toNat < min r.overrides.length r.indexes.length
  each : ∀ i, i < r.overrides.length → i < r.indexes.length → ∃ family k payload, ov.1.familyAt i = some family ∧
    r.sealFamily ((env k).visible (UInt16.ofNat i)) family = .ok payload ∧
    segments.filter (fun segment => segment.indexId = UInt16.ofNat i) =
      match r.indexAt i with
      | none => []
      | some ix => if payload = [] then [] else [⟨UInt16.ofNat i, r.encodingVersion ix, 0, n, n + 1, payload⟩]

section ToDisk

variable {K Ix Fam τ Tx : Type} [DecidableEq K] [DecidableEq Ix] [OrderedStore τ TimestampEntry TimestampEntry.compare]

/-- **Indexes and families pair up from registration to disk**: within the range of the ids, the
index in each position is attached under it, the family in it is attached to that index and no
other, and a committed block submits for it the segment its family was sealed into. -/
theorem pairing_to_disk (r : Registrations K Ix Fam) (few : WithinIds (r.indexes.map (·.1))) (few' : WithinIds r.overrides)
    (t : TransactionClasses Tx r.Override) :
    (r.attachIndexesToStorage =
        (List.range r.indexes.length).filterMap fun i => (r.indexAt i).map fun ix => (ix, UInt16.ofNat i)) ∧
      (∀ i ix, r.indexAt i = some ix → (∀ j, r.indexAt j = some ix → j ≤ i) →
        Registrations.attachedIndexId r.attachIndexesToStorage ix = some (UInt16.ofNat i)) ∧
      (∀ i (inside : i < r.overrides.length),
        r.newStateOverride.1.familyAt i = some (match r.indexAt i with
          | none => r.create r.overrides[i]
          | some ix => r.attach ix (r.create r.overrides[i]))) ∧
      ∀ config env txs millis (b : Backend τ) n,
        (b.addBlock (r.design t) config env txs millis).1 = some (.returned (some n)) →
        ∃ ov segments, BlockApplied (r.design t) env txs ov ∧ r.Paired env n ov segments ∧
          (b.addBlock (r.design t) config env txs millis).2.submitted = b.submitted ++ segments := by
  refine ⟨Registrations.attachIndexesToStorage_eq few, fun i ix here last => Registrations.attachedIndexId_eq few here last,
    fun i inside => Registrations.familyAt_newStateOverride few few' inside, ?_⟩
  intro config env txs millis b n returned
  obtain ⟨ov, segments, applied, into, submitted⟩ := addBlock_submits returned
  have count := Registrations.pairCount_design t
  have bound : (r.design t).pairCount ≤ 65536 := by
    have := few'.total
    omega
  refine ⟨ov, segments, applied, ⟨fun segment mem => count ▸ into.within bound segment mem, fun i inside known => ?_⟩, submitted⟩
  obtain ⟨k, payload, sealed, own⟩ := into.slot bound (j := i) (by omega)
  obtain ⟨family, found⟩ : ∃ family, ov.1.familyAt i = some family := by
    refine Option.isSome_iff_exists.1 (ov.1.familyAt_isSome ?_)
    rw [StateOverride.familySize, ov.2, Registrations.length_slots]
    exact inside
  refine ⟨family, k, payload, found, ?_, ?_⟩
  · simpa only [Registrations.design, found] using sealed
  · have version : (r.design t).encodingVersion (UInt16.ofNat i) = (r.indexAt i).map r.encodingVersion := by
      rw [← Registrations.getIndexAt_position few known]
      rfl
    rw [own, slotSegment, version]
    cases r.indexAt i with
    | none => simp
    | some ix => by_cases empty : payload = [] <;> simp [empty, AddBlock.segmentOf]

end ToDisk

/-- Three indexes and three families, of two types each that come in turns. A family lists the
indexes it was attached to and what was written to it; a transaction writes itself to the family of
its number. -/
def interleaved : Registrations Nat Nat (List Nat × Bytes) where
  indexes := [(0, some 10), (1, some 11), (0, some 12)]
  overrides := [5, 6, 5]
  create _ := ([], [])
  encodingVersion ix := UInt16.ofNat ix
  attach ix family := (family.1 ++ [ix], family.2)
  sealFamily _ family := .ok family.2

def interleavedTransactions : TransactionClasses UInt8 interleaved.Override where
  verify _ _ _ := true
  apply _ tx ov := (⟨ov.1.mutFamilyAt tx.toNat fun family => (family.1, family.2 ++ [tx]),
    (StateOverride.order_mutFamilyAt _ _ _).trans ov.2⟩, .ok true)
  write := byteDesign.write
  getFactory := byteDesign.getFactory

/-- A first block that writes to the first and the third family. -/
def interleavedBlock : Option Outcome × Backend (SortedRecords TimestampEntry TimestampEntry.compare) :=
  Backend.fresh.addBlock (interleaved.design interleavedTransactions) ⟨0, 1⟩ (fun _ => Env.calm fun _ => 0) [0, 2] 100

/-- The third family is attached to the third index, and a block that writes to the first and the
third submits a segment for each. -/
theorem pairing_to_disk_interleaved :
    interleaved.newStateOverride.1.familyAt 2 = some ([12], []) ∧
    ∃ ov segments, BlockApplied (interleaved.design interleavedTransactions) (fun _ => Env.calm fun _ => 0) [0, 2] ov ∧
      interleaved.Paired (fun _ => Env.calm fun _ => 0) 0 ov segments ∧
      segments = [⟨0, 10, 0, 0, 1, [0]⟩, ⟨2, 12, 0, 0, 1, [2]⟩] := by
  have few : WithinIds (interleaved.indexes.map (·.1)) :=
    ⟨fun k => Nat.le_trans List.count_le_length (by decide), by decide⟩
  have few' : WithinIds interleaved.overrides := ⟨fun k => Nat.le_trans List.count_le_length (by decide), by decide⟩
  obtain ⟨-, -, families, commits⟩ := pairing_to_disk (τ := SortedRecords TimestampEntry TimestampEntry.compare) interleaved
    few few' interleavedTransactions
  have returned : interleavedBlock.1 = some (.returned (some 0)) := by decide +kernel
  have left : interleavedBlock.2.submitted = [⟨0, 10, 0, 0, 1, [0]⟩, ⟨2, 12, 0, 0, 1, [2]⟩] := by decide +kernel
  obtain ⟨ov, segments, applied, paired, submitted⟩ := commits ⟨0, 1⟩ (fun _ => Env.calm fun _ => 0) [0, 2] 100 .fresh 0 returned
  exact ⟨families 2 (by decide), ov, segments, applied, paired, submitted.symm.trans left⟩

end MagelessChain
