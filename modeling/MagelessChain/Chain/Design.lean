import MagelessChain.Lib.Image
import Mathlib.Data.Multiset.Basic

/-!
# What the application supplies

The library never looks inside a transaction or an override family; it calls them. A
`ChainDesign` is the application's side of those calls: the virtual functions of `Transaction`
and of the override families, the transaction type registry, and how many families and indexes
were registered. Committed state is read lazily, so every call that may read it is handed the
segments visible at that moment and may depend on them in any way.
-/

namespace MagelessChain

open Lib

abbrev Bytes := List UInt8

/-- A C++ exception: its class and the text of `what()`. `foreign` is whatever application
code, the operating system or the storage library throws. -/
inductive Exn where
  | runtimeError (what : String)
  | rangeError (what : String)
  | invalidArgument (what : String)
  | outOfRange (what : String)
  | foreign (code : Nat)
  deriving DecidableEq, Repr

/-- A committed segment as its index reads it back. -/
structure Segment where
  indexId : UInt16
  encodingVersion : UInt16
  mergeGeneration : UInt16
  blockRangeStart : UInt64
  blockRangeEnd : UInt64
  payload : Bytes
  deriving DecidableEq, Repr

/-- For each index, the segments its queries can see at one moment. -/
abbrev Visible := UInt16 → Multiset Segment

/-- A factory of the transaction type registry: reads one transaction from the mapping at a
cursor and returns it, or null, with the cursor it leaves. -/
abbrev FactoryFunc (Tx : Type) := Image → Nat → Option Tx × Nat

/-- The application's side of the library, over transactions `Tx` and override contents `Ov`. -/
structure ChainDesign (Tx Ov : Type) where
  /-- the contents of a `StateOverride` built fresh from the registry -/
  freshOverride : Ov
  /-- `Transaction::verify` -/
  verify : Visible → Ov → Tx → Bool
  /-- `Transaction::apply`: the override it leaves, and what it returned or threw -/
  apply : Visible → Tx → Ov → Ov × Except Exn Bool
  /-- `Transaction::write`: the bytes it wrote, and what it threw after them -/
  write : Tx → Bytes × Option Exn
  /-- `TransactionTypeRegistry::getFactory` -/
  getFactory : UInt8 → Option (FactoryFunc Tx)
  /-- `StateOverride::familySize` -/
  familySize : Nat
  /-- `BackendRegistry::getEntries().size()` -/
  indexCount : Nat
  /-- `encodingVersion()` of the index `getIndexAt` returns, `none` where it returns null -/
  encodingVersion : UInt16 → Option UInt16
  /-- `seal()` of the family in a slot, reading the committed segments of its index -/
  sealFamily : Nat → Multiset Segment → Ov → Except Exn Bytes

namespace ChainDesign

variable {Tx Ov : Type} (d : ChainDesign Tx Ov)

/-- The number of families paired with an index. -/
def pairCount : Nat := if d.familySize < d.indexCount then d.familySize else d.indexCount

/-- The bytes a block's transactions are written as. -/
def blockBytes (txs : List Tx) : Bytes := txs.flatMap fun tx => (d.write tx).1

@[simp] theorem blockBytes_nil : d.blockBytes [] = [] := rfl

@[simp] theorem blockBytes_cons (tx : Tx) (txs : List Tx) :
    d.blockBytes (tx :: txs) = (d.write tx).1 ++ d.blockBytes txs := rfl

theorem blockBytes_append (xs ys : List Tx) :
    d.blockBytes (xs ++ ys) = d.blockBytes xs ++ d.blockBytes ys := by
  simp [blockBytes]

/-- `TransactionTypeRegistry::read` on a mapping of `length` bytes: dispatch on the type byte
at the cursor. A null transaction is `none`; the cursor is left where the reads left it. -/
def read (img : Image) (length cursor : Nat) : Except Exn (Option Tx × Nat) :=
  if cursor < length then
    match d.getFactory (img cursor) with
    | none => .ok (none, cursor + 1)
    | some f => .ok (f img (cursor + 1))
  else .error (.outOfRange "Failed to read transaction type")

/-- What the journal relies on: a transaction is written as its type byte and a body, and the
factory registered for that byte reads exactly the body back. -/
structure ReadsBack (tx : Tx) : Prop where
  wrote : ∃ typeId body f, (d.write tx).1 = typeId :: body ∧ d.getFactory typeId = some f ∧
    ∀ img off, img.Holds off body → f img off = (some tx, off + body.length)

/-- A written transaction is read back, and the cursor moves past it. -/
theorem ReadsBack.read {d : ChainDesign Tx Ov} {tx : Tx} (h : d.ReadsBack tx) {img : Image}
    {length off : Nat} (held : img.Holds off (d.write tx).1)
    (bound : off + (d.write tx).1.length ≤ length) :
    d.read img length off = .ok (some tx, off + (d.write tx).1.length) := by
  obtain ⟨typeId, body, f, bytes, registered, reads⟩ := h.wrote
  rw [bytes] at held bound ⊢
  obtain ⟨first, held⟩ := Image.holds_cons.1 held
  have rest := reads img (off + 1) held
  simp only [List.length_cons] at bound ⊢
  rw [ChainDesign.read, if_pos (by omega), first, registered]
  simp only [rest]
  congr 2
  omega

end ChainDesign

/-- The least application: a transaction is one byte behind the type byte 1, and nothing is
indexed. -/
def byteDesign : ChainDesign UInt8 Unit where
  freshOverride := ()
  verify _ _ _ := true
  apply _ _ ov := (ov, .ok true)
  write tx := ([1, tx], none)
  getFactory typeId := if typeId = 1 then some fun img off => (some (img off), off + 1) else none
  familySize := 0
  indexCount := 0
  encodingVersion _ := none
  sealFamily _ _ _ := .ok []

theorem byteDesign_readsBack (tx : UInt8) : byteDesign.ReadsBack tx := by
  refine ⟨1, [tx], _, rfl, rfl, fun img off held => ?_⟩
  have byte : img off = tx := by simpa using Image.holds_iff.1 held 0 (by simp)
  simp [byte]

end MagelessChain
