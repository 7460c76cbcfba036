import MagelessChain.Storage.EpochLayout
import MagelessChain.Storage.BlockTimestampTracker
import Mathlib.Logic.Function.Basic

/-!
# The backend: stores and queries

The stores a `BlockchainBackend` changes, and its read path. Epoch files are reached through a
cache of `EpochFile` objects; which of them are cached is left to the cache, which may drop any
of them between two operations. `metadata.bin` and the epoch files have a durable image beside
the one the mappings show.
-/

namespace MagelessChain

open Lib

/-- The fields of `BlockchainConfig` that `addBlock` reads. -/
structure BlockchainConfig where
  targetBlockTimeMs : UInt32 := 60000
  targetThroughput : UInt32 := 180
  deriving DecidableEq, Repr

/-- `blockchain_metadata_header_t`. -/
structure Metadata where
  version : UInt32
  lastBlockTimestamp : UInt64
  currentBlockHeight : UInt64
  deriving DecidableEq, Repr

/-- The header of a new `metadata.bin`. -/
def Metadata.created : Metadata := ⟨UInt32.ofNat currentFileVersion, 0, 0⟩

/-- The stores of a backend. `submitted` lists the `Catalog::writeSegment` calls that returned. -/
structure Backend (τ : Type) where
  metadata : Metadata
  durableMetadata : Metadata
  epochs : UInt32 → Option EpochDisk
  openEpochs : UInt32 → Option EpochFile
  timestamps : τ
  submitted : List Segment
  lastBlockTime : UInt64

/-- How an attempt to open an epoch file that is not cached ends: `FdHandle::open` fails and the
cache returns null, or something on the way throws. -/
inductive OpenOutcome where
  | opens
  | null
  | throws (e : Exn)
  deriving DecidableEq, Repr

/-- The number of the epoch file of a block, a `uint32_t`. -/
def epochOf (blockNumber : UInt64) : UInt32 := (blockNumber / 65536).toUInt32

namespace Backend

variable {τ Tx Ov : Type}

/-- A backend over a data directory with nothing in it. -/
def fresh [OrderedStore τ TimestampEntry TimestampEntry.compare] : Backend τ where
  metadata := Metadata.created
  durableMetadata := Metadata.created
  epochs := fun _ => none
  openEpochs := fun _ => none
  timestamps := OrderedStore.empty
  submitted := []
  lastBlockTime := 0

/-- `epochCache.open(..., O_RDWR | O_CREAT)` on a path that is not cached: create the file if it
is not there, build its `EpochFile` and keep it in the cache. -/
def openEpoch (b : Backend τ) (epoch : UInt32) : EpochFile × Backend τ :=
  let disk := (b.epochs epoch).getD EpochDisk.created
  let (file, disk) := EpochFile.construct (b.epochs epoch).isNone disk
  (file, { b with
    epochs := Function.update b.epochs epoch (some disk)
    openEpochs := Function.update b.openEpochs epoch (some file) })

/-- `BlockchainBackend::getEpochFile`. -/
def getEpochFile (b : Backend τ) (blockNumber : UInt64) (outcome : OpenOutcome) :
    Except Exn (Option EpochFile) × Backend τ :=
  match b.openEpochs (epochOf blockNumber) with
  | some file => (.ok (some file), b)
  | none =>
    match outcome with
    | .throws e => (.error e, b)
    | .null => (.ok none, b)
    | .opens => let (file, b) := b.openEpoch (epochOf blockNumber); (.ok (some file), b)

/-- Use an open epoch file: the object and the mapped bytes change together. -/
def withEpoch (b : Backend τ) (epoch : UInt32) (use : EpochFile → Image → EpochFile × Image) : Backend τ :=
  match b.openEpochs epoch, b.epochs epoch with
  | some file, some disk =>
    let (file, image) := use file disk.image
    { b with
      openEpochs := Function.update b.openEpochs epoch (some file)
      epochs := Function.update b.epochs epoch (some { disk with image }) }
  | _, _ => b

/-- `BlockchainBackend::getBlock`. -/
def getBlock (d : ChainDesign Tx Ov) (b : Backend τ) (blockNumber : UInt64) (outcome : OpenOutcome) :
    Except Exn (List Tx) × Backend τ :=
  if blockNumber ≥ b.metadata.currentBlockHeight then
    (.error (.rangeError "Block number out of range"), b)
  else
    match b.getEpochFile blockNumber outcome with
    | (.error e, b) => (.error e, b)
    | (.ok none, b) => (.error (.runtimeError "Failed to open epoch file"), b)
    | (.ok (some file), b) =>
      let img := ((b.epochs (epochOf blockNumber)).getD EpochDisk.created).image
      ((file.readBlock d img blockNumber).1,
        b.withEpoch (epochOf blockNumber) fun file img => ((file.readBlock d img blockNumber).2, img))

/-- The loop of `getTransactionsByTimeWindow` over the block numbers of the window. -/
def collectBlocks (d : ChainDesign Tx Ov) (b : Backend τ) (outcome : UInt64 → OpenOutcome) :
    List UInt64 → Except Exn (List Tx) × Backend τ
  | [] => (.ok [], b)
  | n :: rest =>
    match b.getBlock d n (outcome n) with
    | (.error e, b) => (.error e, b)
    | (.ok txs, b) =>
      match collectBlocks d b outcome rest with
      | (.ok more, b) => (.ok (txs ++ more), b)
      | (.error e, b) => (.error e, b)

/-- `BlockchainBackend::getTransactionsByTimeWindow`, in at most `fuel` rounds of the tracker's
loop. -/
def getTransactionsByTimeWindow [OrderedStore τ TimestampEntry TimestampEntry.compare] (d : ChainDesign Tx Ov)
    (fuel : Nat) (b : Backend τ) (startMillis endMillis : UInt64) (outcome : UInt64 → OpenOutcome) :
    Option (Except Exn (List Tx) × Backend τ) :=
  if startMillis > endMillis then
    some (.error (.invalidArgument "Start time must be before end time"), b)
  else
    (getBlocksInWindow fuel b.timestamps startMillis endMillis).map (b.collectBlocks d outcome)

/-- A clean close and reopen, or a crash that keeps the shared mappings: the files stay, the
objects go. -/
def reopen (b : Backend τ) : Backend τ := { b with openEpochs := fun _ => none, lastBlockTime := 0 }

/-- The cache drops the object of one epoch. -/
def evict (b : Backend τ) (epoch : UInt32) : Backend τ :=
  { b with openEpochs := Function.update b.openEpochs epoch none }

end Backend

end MagelessChain
