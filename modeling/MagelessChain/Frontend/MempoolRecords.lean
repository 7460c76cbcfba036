import MagelessChain.Frontend.MempoolFile
import MagelessChain.Frontend.Speculative

/-!
# The records of `mempool.bin`

Behind a count of 32 bits the file has the records of the transactions one after the other, without
lengths. The loop of `loadMempool` makes as many reads as the count says. A registry that knows every
type in the file takes one record with each of them. At a type it does not know the loop goes on with
the next byte, so that it reads the body of that record as types, as far as its count reaches.
-/

namespace MagelessChain

open Lib

variable {Tx Ov : Type}

/-! ## The round trip -/

/-- **The round trip**: what was saved is loaded, in its order, into a fresh state to which it is
applied in that order. -/
theorem mempool_round_trip (d : ChainDesign Tx Ov) (size : Tx → Nat) (mempool : List Tx) (file : Option (Image × Nat))
    (visible : Nat → Visible) (effects : Nat) (persists : ∀ tx ∈ mempool, Persists d size tx) (few : mempool.length < 2 ^ 32)
    (complete : mempool.length + 3 ≤ effects) :
    loadMempool d visible (saveMempool d size mempool file effects) =
        (reapply d visible 0 mempool d.freshOverride).map (fun ov => (mempool, ov)) ∧
      ∀ view, (∀ i, visible i = view) → ∀ loaded ov,
        loadMempool d visible (saveMempool d size mempool file effects) = .ok (loaded, ov) →
          loaded = mempool ∧ ov = applyAll d view d.freshOverride mempool := by
  have held := saveMempool_complete persists few file complete
  have load : loadMempool d visible (saveMempool d size mempool file effects) =
      (reapply d visible 0 mempool d.freshOverride).map (fun ov => (mempool, ov)) :=
    loadMempool_held (fun tx mem => (persists tx mem).reads) held
  refine ⟨load, fun view same loaded ov returned => ?_⟩
  rw [load] at returned
  cases applied : reapply d visible 0 mempool d.freshOverride with
  | error e => simp [applied, Except.map] at returned
  | ok state =>
    simp only [applied, Except.map] at returned
    cases returned
    exact ⟨rfl, reapply_eq same mempool 0 applied⟩

theorem byteDesign_persists (tx : UInt8) : Persists byteDesign (fun _ => 2) tx :=
  ⟨byteDesign_readsBack tx, rfl, rfl⟩

theorem mempool_round_trip_bytes :
    loadMempool byteDesign (fun _ _ => 0) (saveMempool byteDesign (fun _ => 2) [7, 8, 7] none 6) = .ok ([7, 8, 7], ()) :=
  (mempool_round_trip byteDesign (fun _ => 2) [7, 8, 7] none (fun _ _ => 0) 6 (fun tx _ => byteDesign_persists tx)
    (by decide) (by decide)).1

/-- A count that is a multiple of 2^32 is written as zero, and nothing is loaded. -/
theorem loadMempool_wraps {d : ChainDesign Tx Ov} {size : Tx → Nat} {mempool : List Tx} (file : Option (Image × Nat))
    (visible : Nat → Visible) {effects : Nat} (persists : ∀ tx ∈ mempool, Persists d size tx) (nonempty : mempool ≠ [])
    (wraps : mempool.length % 2 ^ 32 = 0) (complete : mempool.length + 3 ≤ effects) :
    loadMempool d visible (saveMempool d size mempool file effects) = .ok ([], d.freshOverride) := by
  obtain ⟨img, written, count, -⟩ := saveMempool_written persists nonempty file complete
  rw [wraps] at count
  rw [written, loadMempool]
  simp only [count, true_or, if_true, ite_self]

/-- A mempool of 2^32 transactions comes back empty. -/
theorem mempool_too_long :
    (∀ tx ∈ List.replicate (2 ^ 32) 7, Persists byteDesign (fun _ => 2) tx) ∧
    loadMempool byteDesign (fun _ _ => 0) (saveMempool byteDesign (fun _ => 2) (List.replicate (2 ^ 32) 7) none (2 ^ 32 + 3)) =
      .ok ([], ()) ∧
    List.replicate (2 ^ 32) (7 : UInt8) ≠ [] := by
  have persists : ∀ tx ∈ List.replicate (2 ^ 32) 7, Persists byteDesign (fun _ => 2) tx := fun tx _ => byteDesign_persists tx
  have nonempty : List.replicate (2 ^ 32) (7 : UInt8) ≠ [] := by
    rw [Ne, List.replicate_eq_nil_iff]
    omega
  refine ⟨persists, loadMempool_wraps none _ persists nonempty ?_ ?_, nonempty⟩
  · rw [List.length_replicate, Nat.mod_self]
  · rw [List.length_replicate]

/-! ## A registry that knows fewer types -/

/-- The application with a registry of some of its types. -/
def ChainDesign.knowing (d : ChainDesign Tx Ov) (known : UInt8 → Bool) : ChainDesign Tx Ov :=
  { d with getFactory := fun typeId => if known typeId then d.getFactory typeId else none }

/-- What the loop of `loadMempool` decodes, each transaction with the offset of its type byte. -/
def decodes (d : ChainDesign Tx Ov) (visible : Nat → Visible) (img : Image) (fileSize : Nat) :
    Nat → Nat → Nat → Ov → List (Nat × Tx)
  | 0, _, _, _ => []
  | count + 1, i, cursor, ov =>
    match d.read img fileSize cursor with
    | .error _ => []
    | .ok (none, cursor) => decodes d visible img fileSize count (i + 1) cursor ov
    | .ok (some tx, next) => (cursor, tx) ::
      match d.apply (visible i) tx ov with
      | (_, .error _) => []
      | (ov, .ok _) => decodes d visible img fileSize count (i + 1) next ov

/-- What `loadMempool` decodes of a file. -/
def decodedRecords (d : ChainDesign Tx Ov) (visible : Nat → Visible) : Option (Image × Nat) → List (Nat × Tx)
  | none => []
  | some (img, fileSize) =>
    if img.readWord 0 4 = 0 ∨ fileSize ≤ 4 then []
    else decodes d visible img fileSize (img.readWord 0 4) 0 4 d.freshOverride

/-- Where the records of the transactions stand. -/
def placed (d : ChainDesign Tx Ov) : Nat → List Tx → List (Nat × Tx)
  | _, [] => []
  | off, tx :: rest => (off, tx) :: placed d (off + (d.write tx).1.length) rest

/-- Loading with the registry of `d'` a file saved with that of `d` invents nothing: what it decodes are
records of the file, in their order, each as the transaction it was written for, and what it puts into
the mempool is part of what was saved. -/
structure InventsNothing (d d' : ChainDesign Tx Ov) (saved : List Tx) (file : Option (Image × Nat)) : Prop where
  decoded : ∀ visible, (decodedRecords d' visible file).Sublist (placed d 4 saved)
  loaded : ∀ visible mempool ov, loadMempool d' visible file = .ok (mempool, ov) → mempool.Sublist saved

/-- As many reads as are left pass over the bodies of unknown records without meeting a known type. A
record of a known type takes one read, another one for each of its bytes. -/
def Skipped (d : ChainDesign Tx Ov) (known : UInt8 → Bool) : List Tx → Nat → Prop
  | [], _ => True
  | _ :: _, 0 => True
  | tx :: rest, reads + 1 =>
    match (d.write tx).1 with
    | [] => True
    | typeId :: body =>
      if known typeId then Skipped d known rest reads
      else (∀ byte ∈ body.take reads, (d.knowing known).getFactory byte = none) ∧ Skipped d known rest (reads - body.length)

section Reads

variable {d : ChainDesign Tx Ov} {visible : Nat → Visible} {img : Image} {fileSize : Nat}

/-- The mempool is what was decoded. -/
theorem loadLoop_decodes (d : ChainDesign Tx Ov) (visible : Nat → Visible) (img : Image) (fileSize : Nat) :
    ∀ (count i cursor : Nat) (mempool : List Tx) (ov : Ov) {loaded : List Tx} {ov' : Ov},
      loadLoop d visible img fileSize count i cursor mempool ov = .ok (loaded, ov') →
        loaded = mempool ++ (decodes d visible img fileSize count i cursor ov).map Prod.snd := by
  intro count
  induction count with
  | zero =>
    intro i cursor mempool ov loaded ov' h
    cases h
    exact (List.append_nil mempool).symm
  | succ count ih =>
    intro i cursor mempool ov loaded ov' h
    cases read : d.read img fileSize cursor with
    | error e =>
      simp only [loadLoop, read] at h
      cases h
    | ok found =>
      obtain ⟨_ | tx, next⟩ := found
      · simp only [loadLoop, read] at h
        simp only [decodes, read]
        exact ih _ _ _ _ h
      · cases applied : d.apply (visible i) tx ov with
        | mk state result =>
          cases result with
          | error e =>
            simp only [loadLoop, read, applied] at h
            cases h
          | ok result =>
            simp only [loadLoop, read, applied] at h
            simp only [decodes, read, applied, List.map_cons]
            rw [ih _ _ _ _ h, List.append_assoc, List.singleton_append]

theorem loadMempool_decodes {file : Option (Image × Nat)} {mempool : List Tx} {ov : Ov}
    (loaded : loadMempool d visible file = .ok (mempool, ov)) : mempool = (decodedRecords d visible file).map Prod.snd := by
  unfold loadMempool at loaded
  split at loaded
  · cases loaded
    rfl
  · unfold decodedRecords
    split at loaded
    · cases loaded
      dsimp only
      rw [if_pos (.inr (by omega))]
      rfl
    · split at loaded
      · rename_i none
        cases loaded
        dsimp only
        rw [if_pos none]
        rfl
      · rename_i some
        dsimp only
        rw [if_neg some]
        exact loadLoop_decodes d visible _ _ _ _ _ _ _ loaded

/-- A byte that is no known type is passed over. -/
theorem decodes_unknown {count i cursor : Nat} {ov : Ov} (inside : cursor < fileSize) (unknown : d.getFactory (img cursor) = none) :
    decodes d visible img fileSize (count + 1) i cursor ov = decodes d visible img fileSize count (i + 1) (cursor + 1) ov := by
  rw [decodes, ChainDesign.read, if_pos inside, unknown]

/-- Bytes that are no known types are passed over, as far as the reads reach. -/
theorem decodes_skip (visible : Nat → Visible) (body : List UInt8) :
    ∀ (count i cursor : Nat) (ov : Ov), img.Holds cursor body → cursor + body.length ≤ fileSize →
      (∀ byte ∈ body.take count, d.getFactory byte = none) →
      decodes d visible img fileSize count i cursor ov =
        decodes d visible img fileSize (count - body.length) (i + body.length) (cursor + body.length) ov := by
  induction body with
  | nil => exact fun _ _ _ _ _ _ _ => rfl
  | cons byte body ih =>
    intro count i cursor ov held bound unknown
    obtain _ | count := count
    · rw [Nat.zero_sub]
      rfl
    · obtain ⟨first, held⟩ := Image.holds_cons.1 held
      rw [List.length_cons] at bound ⊢
      rw [List.take_succ_cons] at unknown
      rw [decodes_unknown (by omega) (by rw [first]; exact unknown byte List.mem_cons_self),
        ih count (i + 1) (cursor + 1) ov held (by omega) fun b mem => unknown b (List.mem_cons_of_mem _ mem),
        Nat.add_sub_add_right, Nat.add_right_comm i 1, Nat.add_right_comm cursor 1]
      rfl

/-- A record of a known type is decoded. -/
theorem decodes_known {count i cursor : Nat} {ov : Ov} {tx : Tx} (reads : d.ReadsBack tx)
    (held : img.Holds cursor (d.write tx).1) (bound : cursor + (d.write tx).1.length ≤ fileSize) :
    decodes d visible img fileSize (count + 1) i cursor ov = (cursor, tx) ::
      match d.apply (visible i) tx ov with
      | (_, .error _) => []
      | (ov, .ok _) => decodes d visible img fileSize count (i + 1) (cursor + (d.write tx).1.length) ov := by
  rw [decodes, reads.read held bound]

/-- Factories that return a transaction leave nothing decoded before the cursor. -/
theorem decodes_head (returns : ∀ typeId f, d.getFactory typeId = some f → ∀ img off, (f img off).1.isSome)
    {p : Nat} {tx : Tx} {more : List (Nat × Tx)} :
    ∀ (count i cursor : Nat) (ov : Ov), decodes d visible img fileSize count i cursor ov = (p, tx) :: more → cursor ≤ p := by
  intro count
  induction count with
  | zero => exact fun _ _ _ h => by cases h
  | succ count ih =>
    intro i cursor ov h
    unfold decodes ChainDesign.read at h
    split at h
    · cases h
    · rename_i read
      split at read
      · split at read
        · cases read
          exact Nat.le_of_succ_le (ih _ _ _ h)
        · rename_i f registered
          have some := returns _ _ registered img (cursor + 1)
          rw [show f img (cursor + 1) = _ from Except.ok.inj read] at some
          cases some
      · cases read
    · cases h
      exact Nat.le_refl _

/-- A known type among bytes that are read as types is decoded there. -/
theorem decodes_body (returns : ∀ typeId f, d.getFactory typeId = some f → ∀ img off, (f img off).1.isSome)
    (visible : Nat → Visible) (body : List UInt8) :
    ∀ (count i cursor : Nat) (ov : Ov), img.Holds cursor body → cursor + body.length ≤ fileSize →
      ¬ (∀ byte ∈ body.take count, d.getFactory byte = none) →
      ∃ p tx more, decodes d visible img fileSize count i cursor ov = (p, tx) :: more ∧ cursor ≤ p ∧ p < cursor + body.length := by
  induction body with
  | nil =>
    intro count i cursor ov _ _ known
    rw [List.take_nil] at known
    exact absurd (fun _ mem => by cases mem) known
  | cons byte body ih =>
    intro count i cursor ov held bound known
    obtain _ | count := count
    · exact absurd (fun _ mem => by cases mem) known
    · obtain ⟨first, held⟩ := Image.holds_cons.1 held
      rw [List.length_cons] at bound ⊢
      cases here : d.getFactory byte with
      | none =>
        rw [decodes_unknown (by omega) (by rw [first]; exact here)]
        obtain ⟨p, tx, more, eq, le, lt⟩ := ih count (i + 1) (cursor + 1) ov held (by omega) fun unknown => known (by
          rw [List.take_succ_cons, List.forall_mem_cons]
          exact ⟨here, unknown⟩)
        exact ⟨p, tx, more, eq, by omega, by omega⟩
      | some f =>
        obtain ⟨tx, found⟩ := Option.isSome_iff_exists.1 (returns byte f here img (cursor + 1))
        have read : d.read img fileSize cursor = .ok (some tx, (f img (cursor + 1)).2) := by
          rw [ChainDesign.read, if_pos (by omega), first, here, ← found]
        rw [decodes, read]
        exact ⟨cursor, tx, _, rfl, Nat.le_refl _, by omega⟩

theorem placed_ge {off p : Nat} {tx : Tx} {txs : List Tx} (mem : (p, tx) ∈ placed d off txs) : off ≤ p := by
  induction txs generalizing off with
  | nil => cases mem
  | cons first rest ih =>
    obtain eq | mem := List.mem_cons.1 mem
    · cases eq
      exact Nat.le_refl _
    · exact Nat.le_trans (Nat.le_add_right _ _) (ih mem)

theorem placed_snd (d : ChainDesign Tx Ov) (off : Nat) (txs : List Tx) : (placed d off txs).map Prod.snd = txs := by
  induction txs generalizing off with
  | nil => rfl
  | cons first rest ih => rw [placed, List.map_cons, ih]

end Reads

section Skip

variable {d : ChainDesign Tx Ov} {known : UInt8 → Bool} {visible : Nat → Visible} {img : Image} {fileSize : Nat}

/-- A type that is known is registered as it was. -/
theorem knowing_factory {typeId : UInt8} (is : known typeId = true) :
    (d.knowing known).getFactory typeId = d.getFactory typeId := if_pos is

theorem knowing_unknown {typeId : UInt8} (is : ¬ known typeId = true) : (d.knowing known).getFactory typeId = none := if_neg is

theorem knowing_registered {typeId : UInt8} {f : FactoryFunc Tx} (registered : (d.knowing known).getFactory typeId = some f) :
    d.getFactory typeId = some f := by
  by_cases is : known typeId = true
  · rw [← knowing_factory is]
    exact registered
  · rw [knowing_unknown is] at registered
    cases registered

/-- A record of a known type is read back by the smaller registry. -/
theorem ChainDesign.ReadsBack.knowing {tx : Tx} {typeId : UInt8} {body : Bytes} (reads : d.ReadsBack tx)
    (bytes : (d.write tx).1 = typeId :: body) (is : known typeId = true) : (d.knowing known).ReadsBack tx := by
  obtain ⟨typeId', body', f, bytes', registered, back⟩ := reads.wrote
  obtain ⟨rfl, rfl⟩ := List.cons.inj (bytes.symm.trans bytes')
  exact ⟨typeId, body, f, bytes, by rw [knowing_factory is]; exact registered, back⟩

theorem decodes_knowing {count i cursor : Nat} {ov : Ov} {tx : Tx} {typeId : UInt8} {body : Bytes} (reads : d.ReadsBack tx)
    (bytes : (d.write tx).1 = typeId :: body) (is : known typeId = true) (held : img.Holds cursor (d.write tx).1)
    (bound : cursor + (d.write tx).1.length ≤ fileSize) :
    decodes (d.knowing known) visible img fileSize (count + 1) i cursor ov = (cursor, tx) ::
      match d.apply (visible i) tx ov with
      | (_, .error _) => []
      | (ov, .ok _) => decodes (d.knowing known) visible img fileSize count (i + 1) (cursor + (d.write tx).1.length) ov :=
  decodes_known (reads.knowing bytes is) held bound

/-- Of a record of an unknown type the type byte is passed over, and the body is read as types. -/
theorem decodes_unknown_record {tx : Tx} {typeId : UInt8} {body : Bytes} {cursor : Nat} (visible : Nat → Visible)
    (bytes : (d.write tx).1 = typeId :: body) (is : ¬ known typeId = true) (held : img.Holds cursor (d.write tx).1)
    (bound : cursor + (d.write tx).1.length ≤ fileSize) :
    (∀ count i ov, decodes (d.knowing known) visible img fileSize (count + 1) i cursor ov =
      decodes (d.knowing known) visible img fileSize count (i + 1) (cursor + 1) ov) ∧
    img.Holds (cursor + 1) body ∧ cursor + 1 + body.length = cursor + (d.write tx).1.length := by
  have length : (d.write tx).1.length = body.length + 1 := by rw [bytes, List.length_cons]
  obtain ⟨first, here⟩ := Image.holds_cons.1 (bytes ▸ held)
  refine ⟨fun count i ov => decodes_unknown (by omega) ?_, here, by omega⟩
  rw [first]
  exact knowing_unknown is

/-- Where the reads pass over the bodies of unknown records, records are decoded and nothing else. -/
theorem Skipped.sublist :
    ∀ (saved : List Tx) (count i cursor : Nat) (ov : Ov), (∀ tx ∈ saved, d.ReadsBack tx) → count ≤ saved.length →
      img.Holds cursor (d.blockBytes saved) → cursor + (d.blockBytes saved).length ≤ fileSize → Skipped d known saved count →
      (decodes (d.knowing known) visible img fileSize count i cursor ov).Sublist (placed d cursor saved) := by
  intro saved
  induction saved with
  | nil =>
    intro count i cursor ov _ few _ _ _
    obtain rfl : count = 0 := Nat.le_zero.1 few
    exact List.nil_sublist _
  | cons tx rest ih =>
    intro count i cursor ov reads few held bound skipped
    obtain _ | count := count
    · exact List.nil_sublist _
    · have later : ∀ tx ∈ rest, d.ReadsBack tx := fun tx mem => reads tx (List.mem_cons_of_mem _ mem)
      rw [List.length_cons] at few
      rw [ChainDesign.blockBytes_cons, Image.holds_append] at held
      rw [ChainDesign.blockBytes_cons, List.length_append] at bound
      obtain ⟨typeId, body, f, bytes, registered, back⟩ := (reads tx List.mem_cons_self).wrote
      rw [Skipped, bytes] at skipped
      dsimp only at skipped
      rw [placed]
      by_cases is : known typeId = true
      · rw [if_pos is] at skipped
        rw [decodes_knowing (reads tx List.mem_cons_self) bytes is held.1 (by omega)]
        refine List.Sublist.cons_cons _ ?_
        split
        · exact List.nil_sublist _
        · exact ih count _ _ _ later (by omega) held.2 (by omega) skipped
      · rw [if_neg is] at skipped
        obtain ⟨unknown, skipped⟩ := skipped
        have inside : cursor + (d.write tx).1.length ≤ fileSize := by omega
        obtain ⟨passed, here, behind⟩ := decodes_unknown_record visible bytes is held.1 inside
        rw [passed, decodes_skip visible body count _ _ _ here (by omega) unknown, behind]
        exact (ih _ _ _ _ later (by omega) held.2 (by omega) skipped).cons _

/-- Where records are decoded and nothing else, the reads pass over the bodies of unknown records. -/
theorem Skipped.of_sublist (returns : ∀ typeId f, d.getFactory typeId = some f → ∀ img off, (f img off).1.isSome)
    (applies : ∀ visible tx ov, ∃ ov' result, d.apply visible tx ov = (ov', .ok result)) :
    ∀ (saved : List Tx) (count i cursor : Nat) (ov : Ov), (∀ tx ∈ saved, d.ReadsBack tx) →
      img.Holds cursor (d.blockBytes saved) → cursor + (d.blockBytes saved).length ≤ fileSize →
      (decodes (d.knowing known) visible img fileSize count i cursor ov).Sublist (placed d cursor saved) →
      Skipped d known saved count := by
  have returns' : ∀ typeId f, (d.knowing known).getFactory typeId = some f → ∀ img off, (f img off).1.isSome :=
    fun typeId f registered => returns typeId f (knowing_registered registered)
  intro saved
  induction saved with
  | nil => exact fun _ _ _ _ _ _ _ _ => trivial
  | cons tx rest ih =>
    intro count i cursor ov reads held bound sublist
    obtain _ | count := count
    · exact trivial
    · have later : ∀ tx ∈ rest, d.ReadsBack tx := fun tx mem => reads tx (List.mem_cons_of_mem _ mem)
      rw [ChainDesign.blockBytes_cons, Image.holds_append] at held
      rw [ChainDesign.blockBytes_cons, List.length_append] at bound
      obtain ⟨typeId, body, f, bytes, registered, back⟩ := (reads tx List.mem_cons_self).wrote
      rw [Skipped, bytes]
      dsimp only
      rw [placed] at sublist
      by_cases is : known typeId = true
      · rw [if_pos is]
        rw [decodes_knowing (reads tx List.mem_cons_self) bytes is held.1 (by omega)] at sublist
        obtain ⟨ov', result, applied⟩ := applies (visible i) tx ov
        rw [applied] at sublist
        exact ih count _ _ _ later held.2 (by omega) (List.cons_sublist_cons.1 sublist)
      · rw [if_neg is]
        have inside : cursor + (d.write tx).1.length ≤ fileSize := by omega
        obtain ⟨passed, here, behind⟩ := decodes_unknown_record visible bytes is held.1 inside
        rw [passed] at sublist
        have within : cursor + 1 + body.length ≤ fileSize := by omega
        have unknown : ∀ byte ∈ body.take count, (d.knowing known).getFactory byte = none := by
          by_contra meets
          -- a known byte of the body would be decoded, where no record starts
          obtain ⟨p, tx', more, eq, le, lt⟩ := decodes_body returns' visible body count (i + 1) _ ov here within meets
          rw [eq] at sublist
          obtain start | mem := List.mem_cons.1 (sublist.subset List.mem_cons_self)
          · cases start
            omega
          · have := placed_ge mem
            omega
        rw [decodes_skip visible body count _ _ _ here (by omega) unknown, behind] at sublist
        obtain rest' | ⟨more, eq, -⟩ := List.sublist_cons_iff.1 sublist
        · exact ⟨unknown, ih _ _ _ _ later held.2 (by omega) rest'⟩
        · have := decodes_head returns' _ _ _ _ eq
          omega

end Skip

/-- **Loading with a smaller registry** invents nothing where the reads pass over the bodies of unknown
records without meeting a known type; and, where factories return a transaction for whatever they read and
applying returns, only there. -/
theorem load_invents_nothing (d : ChainDesign Tx Ov) (size : Tx → Nat) (known : UInt8 → Bool) (saved : List Tx)
    (file : Option (Image × Nat)) (effects : Nat) (persists : ∀ tx ∈ saved, Persists d size tx)
    (complete : saved.length + 3 ≤ effects) :
    (Skipped d known saved (saved.length % 2 ^ 32) →
      InventsNothing d (d.knowing known) saved (saveMempool d size saved file effects)) ∧
    ((∀ typeId f, d.getFactory typeId = some f → ∀ img off, (f img off).1.isSome) →
      (∀ visible tx ov, ∃ ov' result, d.apply visible tx ov = (ov', .ok result)) →
      InventsNothing d (d.knowing known) saved (saveMempool d size saved file effects) →
        Skipped d known saved (saved.length % 2 ^ 32)) := by
  have reads : ∀ tx ∈ saved, d.ReadsBack tx := fun tx mem => (persists tx mem).reads
  by_cases empty : saved = []
  · subst empty
    obtain ⟨effects, rfl⟩ := Nat.exists_eq_add_of_le complete
    have none : ∀ visible, decodedRecords (d.knowing known) visible
        (saveMempool d size [] file (([] : List Tx).length + 3 + effects)) = [] := by
      intro visible
      rw [show ([] : List Tx).length + 3 + effects = effects + 3 by rw [List.length_nil]; omega]
      exact if_pos (.inr (Nat.le_refl _))
    refine ⟨fun _ => ⟨fun visible => ?_, fun visible mempool ov loaded => ?_⟩, fun _ _ _ => trivial⟩
    · rw [none]
      exact List.nil_sublist _
    · rw [loadMempool_decodes loaded, none]
      exact List.nil_sublist _
  · obtain ⟨img, written, count, held, some⟩ := saveMempool_written persists empty file complete
    have records : ∀ visible, decodedRecords (d.knowing known) visible (saveMempool d size saved file effects) =
        decodes (d.knowing known) visible img (4 + (d.blockBytes saved).length) (saved.length % 2 ^ 32) 0 4 d.freshOverride := by
      intro visible
      rw [written, decodedRecords, count]
      split
      · rename_i short
        obtain zero | short := short
        · rw [zero]
          rfl
        · omega
      · rfl
    refine ⟨fun skipped => ?_, fun returns applies invents => ?_⟩
    · have decoded : ∀ visible, (decodedRecords (d.knowing known) visible (saveMempool d size saved file effects)).Sublist
          (placed d 4 saved) := fun visible => by
        rw [records]
        exact skipped.sublist saved _ 0 4 _ reads (Nat.mod_le _ _) held (Nat.le_refl _)
      refine ⟨decoded, fun visible mempool ov loaded => ?_⟩
      have part := (decoded visible).map Prod.snd
      rwa [← loadMempool_decodes loaded, placed_snd] at part
    · have decoded := invents.decoded fun _ _ => 0
      rw [records] at decoded
      exact Skipped.of_sublist returns applies saved _ 0 4 _ reads held (Nat.le_refl _) decoded

/-- Transactions that are their own records: the type 1 has a body of one byte, the type 2 of two. -/
def recordDesign : ChainDesign Bytes Unit where
  freshOverride := ()
  verify _ _ _ := true
  apply _ _ ov := (ov, .ok true)
  write tx := (tx, none)
  getFactory typeId :=
    if typeId = 1 then some fun img off => (some [1, img off], off + 1)
    else if typeId = 2 then some fun img off => (some [2, img off, img (off + 1)], off + 2)
    else none
  familySize := 0
  indexCount := 0
  encodingVersion _ := none
  sealFamily _ _ _ := .ok []

theorem recordDesign_short (a : UInt8) : Persists recordDesign List.length [1, a] := by
  refine ⟨⟨1, [a], _, rfl, rfl, fun img off held => ?_⟩, rfl, rfl⟩
  have byte : img off = a := by simpa using Image.holds_iff.1 held 0 (by simp)
  simp [byte]

theorem recordDesign_long (a b : UInt8) : Persists recordDesign List.length [2, a, b] := by
  refine ⟨⟨2, [a, b], _, rfl, rfl, fun img off held => ?_⟩, rfl, rfl⟩
  have first : img off = a := by simpa using Image.holds_iff.1 held 0 (by simp)
  have second : img (off + 1) = b := by simpa using Image.holds_iff.1 held 1 (by simp)
  simp [first, second]

/-- Without the type 2 the record of two bytes is passed over, and the reads end in it. -/
theorem load_invents_nothing_skipped : InventsNothing recordDesign (recordDesign.knowing (· = 1)) [[1, 9], [2, 3, 7], [1, 8]]
    (saveMempool recordDesign List.length [[1, 9], [2, 3, 7], [1, 8]] none 6) := by
  refine (load_invents_nothing recordDesign List.length (· = 1) [[1, 9], [2, 3, 7], [1, 8]] none 6 ?_ (by decide)).1 ?_
  · rintro tx mem
    obtain rfl | rfl | rfl : tx = [1, 9] ∨ tx = [2, 3, 7] ∨ tx = [1, 8] := by simpa using mem
    · exact recordDesign_short 9
    · exact recordDesign_long 3 7
    · exact recordDesign_short 8
  · simp [Skipped, recordDesign, ChainDesign.knowing]

/-- The first byte of an unknown body is the type 1: with the byte behind it, it is loaded as a transaction
that was never sent. -/
theorem load_invents : (∀ tx ∈ [[2, 1, 7], [1, 9]], Persists recordDesign List.length tx) ∧
    loadMempool (recordDesign.knowing (· = 1)) (fun _ _ => 0)
      (saveMempool recordDesign List.length [[2, 1, 7], [1, 9]] none 5) = .ok ([[1, 7]], ()) ∧
    ¬ InventsNothing recordDesign (recordDesign.knowing (· = 1)) [[2, 1, 7], [1, 9]]
      (saveMempool recordDesign List.length [[2, 1, 7], [1, 9]] none 5) := by
  have loaded : loadMempool (recordDesign.knowing (· = 1)) (fun _ _ => 0)
      (saveMempool recordDesign List.length [[2, 1, 7], [1, 9]] none 5) = .ok ([[1, 7]], ()) := by rfl
  refine ⟨?_, loaded, fun invents => ?_⟩
  · rintro tx mem
    obtain rfl | rfl : tx = [2, 1, 7] ∨ tx = [1, 9] := by simpa using mem
    · exact recordDesign_long 1 7
    · exact recordDesign_short 9
  · have part := invents.loaded _ _ _ loaded
    exact absurd part (by decide)

end MagelessChain
