import MagelessChain.Chain.Design
import Mathlib.Data.Multiset.Lattice
import Mathlib.Data.Prod.Lex

/-!
# The chain of the test suite: a global sum

`TestChainDesign` is the one application in the repository. Its transactions add to a sum and a
count; its index keeps no state of its own and reads the sum off the latest committed segment, and
each block that changed it seals the new absolute values. An `int` is modelled by its bits, so sums
are modulo 2^32.
-/

namespace MagelessChain

open Lib Image

/-! ## `readLatestSegment` -/

/-- The best segment of the walk so far, decoded. -/
structure Latest where
  bestEnd : UInt64
  bestGen : UInt16
  bestSum : UInt32
  bestCount : UInt32
  deriving DecidableEq, Repr

/-- `TestSumIndex::encodingVersion`. -/
def testSumVersion : UInt16 := 1

/-- The segments the walk looks at. -/
def Readable (s : Segment) : Prop := s.encodingVersion = testSumVersion ∧ 8 ≤ s.payload.length

instance (s : Segment) : Decidable (Readable s) := inferInstanceAs (Decidable (_ ∧ _))

/-- The `int` at an offset of a payload. -/
def intAt (payload : Bytes) (offset : Nat) : UInt32 := UInt32.ofNat (ofLe ((payload.drop offset).take 4))

def Latest.of (s : Segment) : Latest := ⟨s.blockRangeEnd, s.mergeGeneration, intAt s.payload 0, intAt s.payload 4⟩

/-- One segment of the walk. -/
def Latest.visit (best : Option Latest) (s : Segment) : Option Latest :=
  if Readable s then
    match best with
    | none => some (.of s)
    | some b =>
      if s.blockRangeEnd > b.bestEnd ∨ (s.blockRangeEnd = b.bestEnd ∧ s.mergeGeneration > b.bestGen) then some (.of s)
      else best
  else best

/-- A segment's place among those of its index: its end, its generation, then what it says. -/
abbrev Rank := ℕ ×ₗ ℕ ×ₗ ℕ ×ₗ ℕ

def Latest.rank (b : Latest) : Rank :=
  toLex (b.bestEnd.toNat, toLex (b.bestGen.toNat, toLex (b.bestSum.toNat, b.bestCount.toNat)))

def Segment.rank (s : Segment) : Rank := if Readable s then (Latest.of s).rank else ⊥

/-- The sum and the count of the segment that ranks highest. -/
def latest (committed : Multiset Segment) : UInt32 × UInt32 :=
  let said := (ofLex (ofLex (ofLex (committed.map Segment.rank).sup).2).2)
  (UInt32.ofNat said.1, UInt32.ofNat said.2)

/-- No two segments have the same end and generation. -/
def Distinct (walk : List Segment) : Prop :=
  walk.Pairwise fun s t => (s.blockRangeEnd, s.mergeGeneration) ≠ (t.blockRangeEnd, t.mergeGeneration)

/-- `TestTransaction`. -/
structure TestTransaction where
  value : UInt32
  timestamp : UInt64
  id : UInt32
  deriving DecidableEq, Repr

/-- `TestTransaction::write`. -/
def TestTransaction.write (tx : TestTransaction) : Bytes :=
  1 :: (leBytes 8 tx.timestamp.toNat ++ (leBytes 4 tx.value.toNat ++ leBytes 4 tx.id.toNat))

/-- `TestTransaction::createFromMmap`. -/
def TestTransaction.createFromMmap : FactoryFunc TestTransaction := fun img cursor =>
  (some ⟨UInt32.ofNat (img.readWord (cursor + 8) 4), UInt64.ofNat (img.readWord cursor 8),
    UInt32.ofNat (img.readWord (cursor + 12) 4)⟩, cursor + 16)

/-- `TestSumOverrideFamily`: what a block adds. -/
structure TestSumOverrideFamily where
  sumDelta : UInt32 := 0
  countDelta : UInt32 := 0
  dirty : Bool := false
  deriving DecidableEq, Repr

/-- `TestTransaction::apply`, on the family at index 0. -/
def TestSumOverrideFamily.apply (fam : TestSumOverrideFamily) (tx : TestTransaction) : TestSumOverrideFamily :=
  ⟨fam.sumDelta + tx.value, fam.countDelta + 1, true⟩

/-- The absolute values of a sum and a count. -/
def absolute (sum count : UInt32) : Bytes := leBytes 4 sum.toNat ++ leBytes 4 count.toNat

/-- `TestSumOverrideFamily::seal`. -/
def TestSumOverrideFamily.seal (fam : TestSumOverrideFamily) (committed : Multiset Segment) : Bytes :=
  if fam.dirty then absolute ((latest committed).1 + fam.sumDelta) ((latest committed).2 + fam.countDelta) else []

/-- `TestChainDesign`. -/
def testChainDesign : ChainDesign TestTransaction TestSumOverrideFamily where
  freshOverride := {}
  verify _ _ _ := true
  apply _ tx fam := (fam.apply tx, .ok true)
  write tx := (tx.write, none)
  getFactory typeId := if typeId = 1 then some TestTransaction.createFromMmap else none
  familySize := 1
  indexCount := 1
  encodingVersion indexId := if indexId = 0 then some testSumVersion else none
  sealFamily _ committed fam := .ok (fam.seal committed)

/-- A word of an `int` is read back. -/
theorem word32_eq (v : UInt32) : UInt32.ofNat (v.toNat % 256 ^ 4) = v := by
  have := v.toNat_lt
  rw [Nat.mod_eq_of_lt (by omega), UInt32.ofNat_toNat]

/-- A transaction is read back from where it was written. -/
theorem testChainDesign_readsBack (tx : TestTransaction) : testChainDesign.ReadsBack tx := by
  refine ⟨1, _, TestTransaction.createFromMmap, rfl, rfl, fun img cursor held => ?_⟩
  obtain ⟨timestamp, held⟩ := holds_append.1 held
  obtain ⟨value, id⟩ := holds_append.1 held
  rw [length_leBytes] at value id
  rw [length_leBytes, Nat.add_assoc] at id
  have word64 : ∀ v : UInt64, UInt64.ofNat (v.toNat % 256 ^ 8) = v := by
    intro v
    rw [Nat.mod_eq_of_lt (by have := v.toNat_lt; omega), UInt64.ofNat_toNat]
  simp only [TestTransaction.createFromMmap, timestamp.readWord, value.readWord, id.readWord, word64, word32_eq,
    List.length_append, length_leBytes]

/-- The two halves of a payload. -/
theorem intAt_absolute (sum count : UInt32) : intAt (absolute sum count) 0 = sum ∧ intAt (absolute sum count) 4 = count := by
  have first : (absolute sum count).take 4 = leBytes 4 sum.toNat := by
    rw [absolute, List.take_append_of_le_length (by simp), List.take_of_length_le (by simp)]
  have second : (absolute sum count).drop 4 = leBytes 4 count.toNat := by
    rw [absolute, List.drop_append_of_le_length (by simp), List.drop_eq_nil_of_le (by simp), List.nil_append]
  constructor
  · rw [intAt, List.drop_zero, first, ofLe_leBytes, word32_eq]
  · rw [intAt, second, List.take_of_length_le (by simp), ofLe_leBytes, word32_eq]

/-- A segment that ends behind all others is the one read. -/
theorem latest_cons {committed : Multiset Segment} {s : Segment} {sum count : UInt32}
    (version : s.encodingVersion = testSumVersion) (payload : s.payload = absolute sum count)
    (later : ∀ t ∈ committed, t.blockRangeEnd.toNat < s.blockRangeEnd.toNat) :
    latest (committed + {s}) = (sum, count) := by
  have readable : Readable s := ⟨version, by rw [payload]; simp [absolute]⟩
  have rank : s.rank = toLex (s.blockRangeEnd.toNat, toLex (s.mergeGeneration.toNat, toLex (sum.toNat, count.toNat))) := by
    obtain ⟨first, second⟩ := intAt_absolute sum count
    rw [Segment.rank, if_pos readable, Latest.rank, Latest.of, payload, first, second]
  have highest : ((committed + {s}).map Segment.rank).sup = s.rank := by
    rw [Multiset.map_add, Multiset.sup_add, Multiset.map_singleton, Multiset.sup_singleton]
    refine sup_of_le_right (Multiset.sup_le.2 fun r mem => ?_)
    obtain ⟨t, here, rfl⟩ := Multiset.mem_map.1 mem
    have lt := later t here
    rw [Segment.rank, Segment.rank, if_pos readable]
    split
    · refine le_of_lt ?_
      simp only [Latest.rank, Latest.of, Prod.Lex.toLex_lt_toLex]
      exact .inl lt
    · exact bot_le
  unfold latest
  rw [highest, rank]
  simp

end MagelessChain
