import MagelessChain.Lib.Regions
import MagelessChain.Lib.SharedLocks
import MagelessChain.Storage.CatalogEntry

/-!
# Threads in one catalog file

`CatalogFile` lets readers, `createEntry` and `deleteEntry` run in any number of threads under two
locks: `rwMutex` over the segment index and the payloads, and `appendMutex` over the allocation of
file space. The header of the class says that it should be impossible to use it unsafely. The
machine here stops at every lock a method takes, so a run interleaves the methods at any of them.
The trees keep their nodes in the same file; where the nodes are is left to the library, which keeps
them out of the regions it has handed out. Whether `BTree::remove` loads the record it takes out is
a parameter, as the library is not here.
-/

namespace MagelessChain

open Lib OrderedStore

inductive FileLock where
  | rwMutex
  | appendMutex
  deriving DecidableEq, Repr

/-- The order the locks are taken in. -/
def FileLock.rank : FileLock → Nat
  | .rwMutex => 0
  | .appendMutex => 1

/-- What `deleteEntry` is given. -/
structure EntryKey where
  indexId : UInt16
  startBlock : UInt64
  mergeGeneration : UInt16
  deriving DecidableEq, Repr

/-- The record `deleteEntry` looks for. -/
def EntryKey.toRemove (k : EntryKey) : SegmentMetadata :=
  ⟨k.startBlock, 0, 0, 0, 0, k.mergeGeneration.toUInt32, k.indexId, 0⟩

/-- Where a thread stands in a method. -/
inductive Access where
  /-- `openForReading`: waits for its lock, is in the callback -/
  | opening
  | reading
  /-- `createEntry`: waits for a region, gets one, waits to write, writes -/
  | claiming (c : WriteCall)
  | allocating (c : WriteCall)
  | allocated (c : WriteCall) (offset : UInt64)
  | writing (c : WriteCall) (offset : UInt64)
  /-- waits for one lock, then for the other, then inserts -/
  | written (c : WriteCall) (offset : UInt64)
  | entering (c : WriteCall) (offset : UInt64)
  | inserting (c : WriteCall) (offset : UInt64)
  /-- the guard of the flag is still to be destroyed -/
  | leaving (thrown : Option Exn)
  /-- `deleteEntry`: waits to remove, removes, waits to free, frees -/
  | deleting (k : EntryKey)
  | removing (k : EntryKey)
  | removed (offset length : UInt64)
  | freeing (offset length : UInt64)
  /-- returned, or threw -/
  | ended (thrown : Option Exn)
  deriving DecidableEq, Repr

namespace Access

/-- The locks a thread holds. -/
def hold : Access → FileLock → Option Mode
  | .reading, .rwMutex | .writing _ _, .rwMutex => some .shared
  | .entering _ _, .rwMutex | .inserting _ _, .rwMutex | .removing _, .rwMutex => some .unique
  | .allocating _, .appendMutex | .inserting _ _, .appendMutex | .freeing _ _, .appendMutex => some .unique
  | _, _ => none

/-- The lock a thread waits for, how it wants it, and where it goes with it. -/
def wants : Access → Option (FileLock × Mode × Access)
  | .opening => some (.rwMutex, .shared, .reading)
  | .claiming c => some (.appendMutex, .unique, .allocating c)
  | .allocated c offset => some (.rwMutex, .shared, .writing c offset)
  | .written c offset => some (.rwMutex, .unique, .entering c offset)
  | .entering c offset => some (.appendMutex, .unique, .inserting c offset)
  | .deleting k => some (.rwMutex, .unique, .removing k)
  | .removed offset length => some (.appendMutex, .unique, .freeing offset length)
  | _ => none

/-- The lock a thread waits for. -/
def wait (p : Access) : Option FileLock := p.wants.map Prod.fst

/-- Inside `createEntry`. -/
def creates : Access → Bool
  | .claiming _ | .allocating _ | .allocated _ _ | .writing _ _ | .written _ _ | .entering _ _ | .inserting _ _
  | .leaving _ => true
  | _ => false

/-- The region that is the thread's alone: one it was given, or one it took out of the index. -/
def region : Access → Option (Nat × Nat)
  | .allocated c offset | .writing c offset | .written c offset | .entering c offset | .inserting c offset =>
    some (offset.toNat, c.length)
  | .removed offset length | .freeing offset length => some (offset.toNat, length.toNat)
  | _ => none

/-- A call whose payload is written and not yet in the index. -/
def wrote : Access → Option (WriteCall × UInt64)
  | .written c offset | .entering c offset | .inserting c offset => some (c, offset)
  | _ => none

/-- The call has returned or thrown. -/
def finished : Access → Bool
  | .ended _ => true
  | _ => false

/-- How many steps a call still takes, at most. -/
def rank : Access → Nat
  | .claiming _ => 9
  | .allocating _ => 8
  | .allocated _ _ => 7
  | .writing _ _ => 6
  | .written _ _ => 5
  | .entering _ _ => 4
  | .inserting _ _ => 3
  | .deleting _ => 4
  | .removing _ => 3
  | .opening | .removed _ _ => 2
  | .reading | .freeing _ _ | .leaving _ => 1
  | .ended _ => 0

end Access

/-- A file with the regions handed out in it, the flag, and the threads in its methods. `made` is history:
the calls of `createEntry` that have entered their segment, with its offset, the last one first. -/
structure SharedFile (σ : Type) where
  file : CatalogFile σ
  live : List (Nat × Nat)
  isSegmentBeingWritten : Bool
  threads : List Access
  made : List (WriteCall × UInt64)

/-- What a thread does next, with what its surroundings answer: the lock it waits for is granted,
the callback returns, `getFreeRegion` hands out a region, `pwrite` writes, `insert` throws or not.
`nodes` are the writes of the trees into their nodes. -/
inductive AccessStep where
  | lock
  | leave
  | allocate (region : Option UInt64) (nodes : List (Nat × Bytes))
  | write (count : Option Nat)
  | insert (thrown : Option Exn) (nodes : List (Nat × Bytes))
  | remove (nodes : List (Nat × Bytes))
  | free (nodes : List (Nat × Bytes))

/-- A new call, or a step of a thread. -/
inductive AccessMove where
  | openForReading
  | createEntry (c : WriteCall)
  | deleteEntry (k : EntryKey)
  | go (thread : Nat) (a : AccessStep)

/-- The thread that takes a step. -/
def AccessMove.thread : AccessMove → Option Nat
  | .go i _ => some i
  | _ => none

section Machine

variable {σ : Type} [RemovableStore σ SegmentMetadata SegmentMetadata.compare]

/-- What `remove` leaves in its argument. -/
def removedRecord (loads : Bool) (segmentIndex : σ) (k : EntryKey) : SegmentMetadata :=
  if loads then (find segmentIndex k.toRemove).getD k.toRemove else k.toRemove

/-- What a thread beside `others` does to the file and the regions, and where it goes. -/
def Access.go (lib : CatalogLibrary) (loads : Bool) (others : List Access) (file : CatalogFile σ) (live : List (Nat × Nat)) :
    Access → AccessStep → Option (Access × CatalogFile σ × List (Nat × Nat))
  | p, .lock =>
    match p.wants with
    | some (l, mode, p') => if Grants hold others l mode then some (p', file, live) else none
    | none => none
  | .reading, .leave => some (.ended none, file, live)
  | .leaving thrown, .leave => some (.ended thrown, file, live)
  | .allocating c, .allocate region nodes =>
    match region with
    | none =>
      if NodesClear live nodes then
        some (.leaving (some (.runtimeError "CatalogFile::createEntry: failed to allocate file region")),
          { file with image := writeNodes file.image nodes }, live)
      else none
    | some offset =>
      if ClearOf live (offset.toNat, c.length) ∧ NodesClear ((offset.toNat, c.length) :: live) nodes then
        some (.allocated c offset, { file with image := writeNodes file.image nodes }, (offset.toNat, c.length) :: live)
      else none
  | .writing c offset, .write count =>
    some (if count = some c.length then .written c offset
        else .leaving (some (.runtimeError "CatalogFile::createEntry: pwrite failed")),
      { file with image := file.image.write offset.toNat (c.payload.take (count.getD 0)) }, live)
  | .inserting c offset, .insert thrown nodes =>
    if NodesClear live nodes then
      some (.leaving thrown, ⟨writeNodes file.image nodes,
        if thrown = none then OrderedStore.insert file.segmentIndex (c.metadata lib offset) else file.segmentIndex⟩, live)
    else none
  | .removing k, .remove nodes =>
    if NodesClear live nodes then
      let left := removedRecord loads file.segmentIndex k
      some (.removed left.byteOffset left.byteLength,
        ⟨writeNodes file.image nodes, RemovableStore.remove file.segmentIndex k.toRemove⟩, live)
    else none
  | .freeing offset length, .free nodes =>
    if NodesClear (live.erase (offset.toNat, length.toNat)) nodes then
      some (.ended none, { file with image := writeNodes file.image nodes }, live.erase (offset.toNat, length.toNat))
    else none
  | _, _ => none

/-- The end of `createEntry` clears the flag. -/
def Access.clears : Access → AccessStep → Bool
  | .leaving _, .leave => true
  | _, _ => false

/-- The call whose segment a step enters in the index. -/
def Access.makes : Access → AccessStep → Option (WriteCall × UInt64)
  | .inserting c offset, .insert none _ => some (c, offset)
  | _, _ => none

/-- One move. A call of `createEntry` sets the flag as it begins. -/
def SharedFile.step (lib : CatalogLibrary) (loads : Bool) (s : SharedFile σ) : AccessMove → Option (SharedFile σ)
  | .openForReading => some { s with threads := s.threads ++ [.opening] }
  | .createEntry c => some { s with isSegmentBeingWritten := true, threads := s.threads ++ [.claiming c] }
  | .deleteEntry k => some { s with threads := s.threads ++ [.deleting k] }
  | .go i a =>
    match s.threads[i]? with
    | none => none
    | some p =>
      (p.go lib loads (s.threads.eraseIdx i) s.file s.live a).map fun (p', file, live) =>
        ⟨file, live, if p.clears a then false else s.isSegmentBeingWritten, s.threads.set i p',
          (p.makes a).toList ++ s.made⟩

/-- A file nothing was written to by `createEntry`, whatever its trees have in it. -/
def SharedFile.new (image : Image) : SharedFile σ := ⟨⟨image, OrderedStore.empty⟩, [], false, [], []⟩

/-! ## Regions and their owners -/

/-- The region of an entry. -/
def SegmentMetadata.region (e : SegmentMetadata) : Nat × Nat := (e.byteOffset.toNat, e.byteLength.toNat)

theorem WriteCall.region_metadata (lib : CatalogLibrary) (c : WriteCall) (offset : UInt64) :
    (c.metadata lib offset).region = (offset.toNat, c.length) := Prod.ext rfl c.toNat_length

/-! ## What a step can do -/

/-- What a thread gets with the lock it waits for. -/
structure Access.Takes (p : Access) (l : FileLock) (mode : Mode) (p' : Access) : Prop where
  region : p'.region = p.region
  wrote : p'.wrote = p.wrote
  rank : p'.rank < p.rank
  creates : p'.creates = p.creates
  holds : ∀ l' mode', p'.hold l' = some mode' → p.hold l' = some mode' ∨ (l' = l ∧ mode' = mode)

theorem Access.takes_of_wants {p p' : Access} {l : FileLock} {mode : Mode} (h : p.wants = some (l, mode, p')) : p.Takes l mode p' := by
  cases p with
  | opening | claiming c | allocated c offset | written c offset | entering c offset | deleting k | removed offset length =>
    cases h
    refine ⟨rfl, rfl, Nat.lt_succ_self _, rfl, fun l' mode' holds => ?_⟩
    cases l' <;> cases holds <;> first | exact .inl rfl | exact .inr ⟨rfl, rfl⟩
  | _ => cases h

/-- Everything a step of a thread at `p` can do, case by case. -/
inductive Access.Change (lib : CatalogLibrary) (loads : Bool) (others : List Access) (file : CatalogFile σ)
    (live : List (Nat × Nat)) (p : Access) : Access → CatalogFile σ → List (Nat × Nat) → Prop where
  | granted {l : FileLock} {mode : Mode} {p' : Access} : p.Takes l mode p' → Grants Access.hold others l mode →
      Change lib loads others file live p p' file live
  /-- a method ends -/
  | left {thrown : Option Exn} : p = .reading ∨ p = .leaving thrown → Change lib loads others file live p (.ended thrown) file live
  /-- `createEntry` gives up where it has changed nodes only -/
  | abandoned {thrown : Option Exn} {nodes : List (Nat × Bytes)} : NodesClear live nodes →
      Change lib loads others file live p (.leaving thrown) { file with image := writeNodes file.image nodes } live
  | allocated {c : WriteCall} {offset : UInt64} {nodes : List (Nat × Bytes)} : p = .allocating c →
      ClearOf live (offset.toNat, c.length) → NodesClear ((offset.toNat, c.length) :: live) nodes →
      Change lib loads others file live p (.allocated c offset) { file with image := writeNodes file.image nodes }
        ((offset.toNat, c.length) :: live)
  | wrote {c : WriteCall} {offset : UInt64} {bytes : Bytes} {p' : Access} : p = .writing c offset → bytes.length ≤ c.length →
      (p' = .written c offset ∧ bytes = c.payload ∨ ∃ thrown, p' = .leaving thrown) →
      Change lib loads others file live p p' { file with image := file.image.write offset.toNat bytes } live
  | inserted {c : WriteCall} {offset : UInt64} {nodes : List (Nat × Bytes)} : p = .inserting c offset → NodesClear live nodes →
      Change lib loads others file live p (.leaving none)
        ⟨writeNodes file.image nodes, OrderedStore.insert file.segmentIndex (c.metadata lib offset)⟩ live
  | removed {k : EntryKey} {nodes : List (Nat × Bytes)} : p = .removing k → NodesClear live nodes →
      Change lib loads others file live p
        (.removed (removedRecord loads file.segmentIndex k).byteOffset (removedRecord loads file.segmentIndex k).byteLength)
        ⟨writeNodes file.image nodes, RemovableStore.remove file.segmentIndex k.toRemove⟩ live
  | freed {offset length : UInt64} {nodes : List (Nat × Bytes)} : p = .freeing offset length →
      NodesClear (live.erase (offset.toNat, length.toNat)) nodes →
      Change lib loads others file live p (.ended none) { file with image := writeNodes file.image nodes }
        (live.erase (offset.toNat, length.toNat))

variable {lib : CatalogLibrary} {loads : Bool} {others : List Access} {file file' : CatalogFile σ} {live live' : List (Nat × Nat)}
  {p p' : Access} {a : AccessStep}

/-- The cases of a step. -/
theorem Access.go_cases (moved : p.go lib loads others file live a = some (p', file', live')) :
    Access.Change lib loads others file live p p' file' live' := by
  cases a with
  | lock =>
    simp only [Access.go] at moved
    split at moved
    · rename_i l mode next wants
      split at moved
      · cases moved
        have takes := Access.takes_of_wants wants
        exact .granted takes ‹_›
      · cases moved
    · cases moved
  | leave =>
    cases p with
    | reading => cases moved; exact .left (.inl rfl)
    | leaving thrown => cases moved; exact .left (.inr rfl)
    | _ => cases moved
  | allocate region nodes =>
    cases p with
    | allocating c =>
      simp only [Access.go] at moved
      split at moved
      · split at moved
        · rename_i clear
          cases moved
          exact .abandoned clear
        · cases moved
      · split at moved
        · rename_i clear
          cases moved
          exact .allocated rfl clear.1 clear.2
        · cases moved
    | _ => cases moved
  | write count =>
    cases p with
    | writing c offset =>
      simp only [Access.go, Option.some.injEq, Prod.mk.injEq] at moved
      obtain ⟨rfl, rfl, rfl⟩ := moved
      have part : (c.payload.take (count.getD 0)).length ≤ c.length := by
        rw [List.length_take, c.length_payload]
        exact Nat.min_le_right _ _
      refine .wrote rfl part ?_
      split
      · rename_i whole
        refine .inl ⟨rfl, ?_⟩
        rw [whole, Option.getD_some, ← c.length_payload, List.take_length]
      · exact .inr ⟨_, rfl⟩
    | _ => cases moved
  | insert thrown nodes =>
    cases p with
    | inserting c offset =>
      simp only [Access.go] at moved
      split at moved
      · rename_i clear
        cases thrown with
        | none => cases moved; exact .inserted rfl clear
        | some e => cases moved; exact .abandoned clear
      · cases moved
    | _ => cases moved
  | remove nodes =>
    cases p with
    | removing k =>
      simp only [Access.go] at moved
      split at moved
      · rename_i clear
        cases moved
        exact .removed rfl clear
      · cases moved
    | _ => cases moved
  | free nodes =>
    cases p with
    | freeing offset length =>
      simp only [Access.go] at moved
      split at moved
      · rename_i clear
        cases moved
        exact .freed rfl clear
      · cases moved
    | _ => cases moved

/-- A step takes no lock that is not granted beside the other threads. -/
theorem Access.Change.grants (change : Access.Change lib loads others file live p p' file' live') :
    ∀ l mode, p'.hold l = some mode → p.hold l = some mode ∨ Grants Access.hold others l mode := by
  intro l mode holds
  cases change with
  | granted takes granted =>
    obtain kept | ⟨rfl, rfl⟩ := takes.holds l mode holds
    · exact .inl kept
    · exact .inr granted
  | wrote _ _ went => obtain ⟨rfl, -⟩ | ⟨thrown, rfl⟩ := went <;> cases l <;> cases holds
  | _ => cases l <;> cases holds

/-- The segment index changes only under `rwMutex`, held alone. -/
theorem Access.Change.segmentIndex (change : Access.Change lib loads others file live p p' file' live') :
    file'.segmentIndex = file.segmentIndex ∨ p.hold .rwMutex = some .unique := by
  cases change with
  | inserted here | removed here => exact .inr (by rw [here]; rfl)
  | _ => exact .inl rfl

/-- A thread's own region comes first, then the entries', then the other threads'. -/
def ownersBeside (segmentIndex : σ) (others : List Access) (p : Access) : List (Nat × Nat) :=
  p.region.toList ++ ((records segmentIndex).map SegmentMetadata.region ++ others.filterMap Access.region)

/-- **What a step does to the regions**: each keeps one owner at most. -/
theorem Access.Change.ownership (adds : ∀ (t : σ) k, ∀ r ∈ records (OrderedStore.insert t k), r = k ∨ r ∈ records t)
    (change : Access.Change lib loads others file live p p' file' live')
    (owned : Ownership live (ownersBeside file.segmentIndex others p)) :
    Ownership live' (ownersBeside file'.segmentIndex others p') := by
  have dropped : ∀ {q : Access}, q.region = none → Ownership live (ownersBeside file.segmentIndex others q) := by
    intro q none
    apply owned.shrink
    simp only [ownersBeside, none, Option.toList_none, List.nil_append]
    exact (List.sublist_append_right _ _).subperm
  cases change with
  | granted takes granted =>
    unfold ownersBeside at owned ⊢
    rw [takes.region]
    exact owned
  | left _ => exact dropped rfl
  | abandoned _ => exact dropped rfl
  | allocated here free _ =>
    subst here
    exact owned.hand_out free
  | wrote here _ went =>
    obtain ⟨rfl, -⟩ | ⟨thrown, rfl⟩ := went
    · subst here
      exact owned
    · exact dropped rfl
  | @inserted c offset nodes here _ =>
    subst here
    apply owned.shrink
    have entered : List.Subperm (records (OrderedStore.insert file.segmentIndex (c.metadata lib offset)))
        (c.metadata lib offset :: records file.segmentIndex) := by
      refine (nodup_records _).subperm fun r mem => ?_
      exact List.mem_cons.2 (adds _ _ r mem)
    have regions := subperm_map SegmentMetadata.region entered
    rw [List.map_cons, c.region_metadata lib offset] at regions
    exact (List.subperm_append_right _).2 regions
  | @removed k nodes here _ =>
    subst here
    have fewer : List.Subperm (records (RemovableStore.remove file.segmentIndex k.toRemove)) (records file.segmentIndex) :=
      remove_subperm _ _
    have rest : Ownership live ((records (RemovableStore.remove file.segmentIndex k.toRemove)).map SegmentMetadata.region ++
        others.filterMap Access.region) :=
      owned.shrink ((List.subperm_append_right _).2 (subperm_map _ fewer))
    change Ownership live ((removedRecord loads file.segmentIndex k).region :: _)
    unfold removedRecord
    split
    · cases found : find file.segmentIndex k.toRemove with
      | none => exact rest.empty rfl
      | some e =>
        have taken := subperm_map SegmentMetadata.region (remove_found found)
        exact owned.shrink ((List.subperm_append_right _).2 taken)
    · exact rest.empty rfl
  | freed here _ =>
    subst here
    exact owned.give_back

omit [RemovableStore σ SegmentMetadata SegmentMetadata.compare] in
theorem Access.region_of_wrote {c : WriteCall} {offset : UInt64} (h : p.wrote = some (c, offset)) :
    p.region = some (offset.toNat, c.length) := by
  cases p with
  | written | entering | inserting => cases h; rfl
  | _ => cases h

/-- **What a step does to the bytes**: the regions of the entries and of the other threads keep theirs. -/
theorem Access.Change.holds (change : Access.Change lib loads others file live p p' file' live')
    (owned : Ownership live (ownersBeside file.segmentIndex others p)) {r : Nat × Nat}
    (mem : r ∈ (records file.segmentIndex).map SegmentMetadata.region ++ others.filterMap Access.region) {bytes : Bytes}
    (length : bytes.length = r.2) (held : file.image.Holds r.1 bytes) : file'.image.Holds r.1 bytes := by
  have own := owned.live r (List.mem_append_right _ mem)
  cases change with
  | granted _ _ | left _ => exact held
  | abandoned clear | inserted _ clear | removed _ clear => exact holds_writeNodes own length clear held
  | allocated _ _ clear => exact holds_writeNodes (own.imp_right (List.mem_cons_of_mem _)) length clear held
  | wrote here part _ =>
    subst here
    have apart := (List.pairwise_cons.1 owned.apart).1 r mem
    refine held.write_clear ?_ part
    rw [length]
    exact clear_symm apart
  | freed here clear =>
    subst here
    exact holds_writeNodes (owned.give_back.live r mem) length clear held

/-- What stands in such a region reads the same after a step. -/
theorem Access.Change.read (change : Access.Change lib loads others file live p p' file' live')
    (owned : Ownership live (ownersBeside file.segmentIndex others p)) {r : Nat × Nat}
    (mem : r ∈ (records file.segmentIndex).map SegmentMetadata.region ++ others.filterMap Access.region) :
    file'.image.read r.1 r.2 = file.image.read r.1 r.2 := by
  have held : file.image.Holds r.1 (file.image.read r.1 r.2) := by
    unfold Image.Holds
    rw [Image.length_read]
  have kept := change.holds owned mem (Image.length_read _ _ _) held
  unfold Image.Holds at kept
  rw [Image.length_read] at kept
  exact kept

/-- The call of `createEntry` that an entry is of, the last one if there were several. -/
def lastMade (lib : CatalogLibrary) (made : List (WriteCall × UInt64)) (e : SegmentMetadata) : Option (WriteCall × UInt64) :=
  made.find? fun call => call.1.metadata lib call.2 = e

/-- Each entry of a file is of a call that was made, and the payload that call was given is in its region. -/
def EntriesHeld (lib : CatalogLibrary) (file : CatalogFile σ) (made : List (WriteCall × UInt64)) : Prop :=
  ∀ e ∈ records file.segmentIndex, ∃ c offset, lastMade lib made e = some (c, offset) ∧
    file.image.Holds offset.toNat c.payload

theorem metadata_of_lastMade {made : List (WriteCall × UInt64)} {e : SegmentMetadata} {c : WriteCall} {offset : UInt64}
    (h : lastMade lib made e = some (c, offset)) : c.metadata lib offset = e := by
  unfold lastMade at h
  have found := List.find?_some h
  exact of_decide_eq_true found

/-- Where no segment is entered, the index gets no entry. -/
theorem Access.go_makes (moved : p.go lib loads others file live a = some (p', file', live')) :
    (∃ c offset nodes, p = .inserting c offset ∧ p.makes a = some (c, offset) ∧ NodesClear live nodes ∧
      file' = ⟨writeNodes file.image nodes, OrderedStore.insert file.segmentIndex (c.metadata lib offset)⟩) ∨
    (p.makes a = none ∧ ∀ e ∈ records file'.segmentIndex, e ∈ records file.segmentIndex) := by
  have change := Access.go_cases moved
  cases makes : p.makes a with
  | some call =>
    left
    cases p with
    | inserting c offset =>
      cases a with
      | insert thrown nodes =>
        cases thrown with
        | none =>
          cases makes
          simp only [Access.go] at moved
          split at moved
          · rename_i clear
            cases moved
            exact ⟨c, offset, nodes, rfl, rfl, clear, rfl⟩
          · cases moved
        | some e => cases makes
      | _ => cases makes
    | _ => cases makes
  | none =>
    refine .inr ⟨rfl, fun e mem => ?_⟩
    cases change with
    | inserted here _ =>
      subst here
      cases a with
      | insert thrown nodes =>
        cases thrown with
        | none => cases makes
        | some e =>
          simp only [Access.go] at moved
          split at moved <;> cases moved
      | lock => cases moved
      | _ => cases moved
    | removed _ _ => exact ((RemovableStore.mem_remove _ _ e).1 mem).1
    | _ => exact mem

/-- **The payloads** after a step: a segment is entered with its payload written, and the others stay. -/
theorem Access.go_entries (adds : ∀ (t : σ) k, ∀ r ∈ records (OrderedStore.insert t k), r = k ∨ r ∈ records t)
    (moved : p.go lib loads others file live a = some (p', file', live'))
    (owned : Ownership live (ownersBeside file.segmentIndex others p)) {made : List (WriteCall × UInt64)}
    (entries : EntriesHeld lib file made)
    (written : ∀ c offset, p.wrote = some (c, offset) → file.image.Holds offset.toNat c.payload) :
    EntriesHeld lib file' ((p.makes a).toList ++ made) := by
  have change := Access.go_cases moved
  have stays : ∀ e ∈ records file.segmentIndex, ∃ c offset, lastMade lib made e = some (c, offset) ∧
      file'.image.Holds offset.toNat c.payload := by
    intro e mem
    obtain ⟨c, offset, last, held⟩ := entries e mem
    have region : e.region = (offset.toNat, c.length) := by
      rw [← metadata_of_lastMade last, c.region_metadata lib offset]
    have among : e.region ∈ (records file.segmentIndex).map SegmentMetadata.region ++ others.filterMap Access.region :=
      List.mem_append_left _ (List.mem_map_of_mem mem)
    rw [region] at among
    exact ⟨c, offset, last, change.holds owned among c.length_payload held⟩
  obtain ⟨c, offset, nodes, rfl, makes, clear, rfl⟩ | ⟨makes, fewer⟩ := Access.go_makes moved
  · intro e mem
    rw [makes, Option.toList_some, List.singleton_append, lastMade, List.find?_cons]
    by_cases new : c.metadata lib offset = e
    · have own := owned.live (offset.toNat, c.length) List.mem_cons_self
      simp only [new, decide_true]
      exact ⟨c, offset, rfl, holds_writeNodes own c.length_payload clear (written c offset rfl)⟩
    · simp only [new, decide_false]
      obtain same | before := adds _ _ e mem
      · exact absurd same.symm new
      · exact stays e before
  · intro e mem
    rw [makes, Option.toList_none, List.nil_append]
    exact stays e (fewer e mem)

/-- What the thread itself has written is there. -/
theorem Access.Change.written (change : Access.Change lib loads others file live p p' file' live')
    (written : ∀ c offset, p.wrote = some (c, offset) → file.image.Holds offset.toNat c.payload) :
    ∀ c offset, p'.wrote = some (c, offset) → file'.image.Holds offset.toNat c.payload := by
  intro c offset wrote
  cases change with
  | granted takes _ =>
    rw [takes.wrote] at wrote
    exact written c offset wrote
  | wrote _ _ went =>
    obtain ⟨rfl, rfl⟩ | ⟨thrown, rfl⟩ := went
    · cases wrote
      exact Image.holds_write _ _ _
    · cases wrote
  | _ => cases wrote

/-! ## Whole runs -/

/-- A thread of a list, with those before it and those behind it. -/
theorem getElem?_split {α : Type} {l : List α} {i : Nat} {x : α} (h : l[i]? = some x) :
    ∃ front back, l = front ++ x :: back ∧ l.eraseIdx i = front ++ back ∧ ∀ y, l.set i y = front ++ y :: back := by
  obtain ⟨inside, rfl⟩ := List.getElem?_eq_some_iff.1 h
  refine ⟨l.take i, l.drop (i + 1), ?_, List.eraseIdx_eq_take_drop_succ _ _, fun y => ?_⟩
  · rw [List.getElem_cons_drop, List.take_append_drop]
  · rw [List.set_eq_take_append_cons_drop, if_pos inside]

/-- What holds of the file and its threads at any moment. -/
structure SharedFile.Kept (lib : CatalogLibrary) (s : SharedFile σ) : Prop where
  excluded : Excluded Access.hold s.threads
  owned : Ownership s.live ((records s.file.segmentIndex).map SegmentMetadata.region ++ s.threads.filterMap Access.region)
  entries : EntriesHeld lib s.file s.made
  written : ∀ p ∈ s.threads, ∀ c offset, p.wrote = some (c, offset) → s.file.image.Holds offset.toNat c.payload

theorem owners_perm (segmentIndex : σ) (front back : List Access) (p : Access) :
    List.Perm ((records segmentIndex).map SegmentMetadata.region ++ (front ++ p :: back).filterMap Access.region)
      (ownersBeside segmentIndex (front ++ back) p) := by
  have split : (front ++ p :: back).filterMap Access.region =
      front.filterMap Access.region ++ (p.region.toList ++ back.filterMap Access.region) := by
    rw [List.filterMap_append]
    congr 1
    cases region : p.region <;> simp [region]
  rw [split, ownersBeside, List.filterMap_append]
  exact ((List.perm_append_comm_assoc _ _ _).append_left _).trans (List.perm_append_comm_assoc _ _ _)

theorem SharedFile.Kept.new (lib : CatalogLibrary) (image : Image) : (SharedFile.new image : SharedFile σ).Kept lib := by
  have none : records (SharedFile.new image : SharedFile σ).file.segmentIndex = [] := records_empty
  constructor
  · exact List.Pairwise.nil
  · rw [none]
    exact ⟨List.Pairwise.nil, fun _ mem => absurd mem List.not_mem_nil⟩
  · intro e mem
    rw [none] at mem
    cases mem
  · exact fun _ mem => absurd mem List.not_mem_nil

/-- A step of a thread, with the threads before it and those behind it. -/
theorem SharedFile.step_go {s s' : SharedFile σ} {i : Nat} (moved : s.step lib loads (.go i a) = some s') :
    ∃ p front back p' file live, s.threads[i]? = some p ∧ s.threads = front ++ p :: back ∧
      p.go lib loads (front ++ back) s.file s.live a = some (p', file, live) ∧
      s' = ⟨file, live, if p.clears a then false else s.isSegmentBeingWritten, front ++ p' :: back,
        (p.makes a).toList ++ s.made⟩ ∧
      s'.threads = s.threads.set i p' := by
  simp only [SharedFile.step] at moved
  split at moved
  · cases moved
  · rename_i p here
    obtain ⟨⟨p', file, live⟩, went, rfl⟩ := Option.map_eq_some_iff.1 moved
    obtain ⟨front, back, split, erased, set⟩ := getElem?_split here
    rw [erased] at went
    exact ⟨p, front, back, p', file, live, here, split, went, by simp only [set], rfl⟩

/-- A call that has begun holds nothing. -/
theorem SharedFile.Kept.spawn {s : SharedFile σ} (kept : s.Kept lib) {p : Access} (free : ∀ l, p.hold l = none)
    (region : p.region = none) (wrote : p.wrote = none) (flag : Bool) :
    SharedFile.Kept lib { s with isSegmentBeingWritten := flag, threads := s.threads ++ [p] } := by
  constructor
  · exact kept.excluded.spawn free
  · rw [List.filterMap_append, List.filterMap_cons_none region, List.filterMap_nil, List.append_nil]
    exact kept.owned
  · exact kept.entries
  · intro q mem c offset written
    obtain mem | mem := List.mem_append.1 mem
    · exact kept.written q mem c offset written
    · rw [List.mem_singleton.1 mem, wrote] at written
      cases written

/-- **Every move** keeps the locks exclusive, the regions apart and the payloads whole. -/
theorem SharedFile.Kept.step (adds : ∀ (t : σ) k, ∀ r ∈ records (OrderedStore.insert t k), r = k ∨ r ∈ records t)
    {s s' : SharedFile σ} (kept : s.Kept lib) {m : AccessMove} (moved : s.step lib loads m = some s') : s'.Kept lib := by
  cases m with
  | openForReading =>
    cases moved
    exact kept.spawn (fun l => by cases l <;> rfl) rfl rfl _
  | createEntry c =>
    cases moved
    exact kept.spawn (fun l => by cases l <;> rfl) rfl rfl _
  | deleteEntry k =>
    cases moved
    exact kept.spawn (fun l => by cases l <;> rfl) rfl rfl _
  | go i a =>
    obtain ⟨p, front, back, p', file, live, -, split, went, rfl, -⟩ := SharedFile.step_go moved
    have change := Access.go_cases went
    obtain ⟨excluded, owned, entries, written⟩ := kept
    rw [split] at excluded owned written
    have beside : Ownership s.live (ownersBeside s.file.segmentIndex (front ++ back) p) :=
      owned.shrink (owners_perm _ _ _ _).symm.subperm
    have own := written p (List.mem_append_right _ List.mem_cons_self)
    constructor
    · exact excluded.move change.grants
    · exact (change.ownership adds beside).shrink (owners_perm _ _ _ _).subperm
    · exact Access.go_entries adds went beside entries own
    · intro q mem c offset wrote
      by_cases other : q ∈ front ++ back
      · have among : (offset.toNat, c.length) ∈ (records s.file.segmentIndex).map SegmentMetadata.region ++
            (front ++ back).filterMap Access.region :=
          List.mem_append_right _ (List.mem_filterMap.2 ⟨q, other, Access.region_of_wrote wrote⟩)
        have before : q ∈ front ++ p :: back := by
          obtain mem | mem := List.mem_append.1 other
          · exact List.mem_append_left _ mem
          · exact List.mem_append_right _ (List.mem_cons_of_mem _ mem)
        exact change.holds beside among c.length_payload (written q before c offset wrote)
      · have here : q = p' := by
          rw [List.mem_append] at other
          obtain mem | mem := List.mem_append.1 mem
          · exact absurd (.inl mem) other
          · obtain here | mem := List.mem_cons.1 mem
            · exact here
            · exact absurd (.inr mem) other
        rw [here] at wrote
        exact change.written own c offset wrote

/-! ## What a reader sees -/

/-- Where one state shows a reader the same as another: the index, and the bytes of every entry. -/
structure SharedFile.SameView (s t : SharedFile σ) : Prop where
  index : t.file.segmentIndex = s.file.segmentIndex
  bytes : ∀ e ∈ records s.file.segmentIndex, t.file.image.read e.byteOffset.toNat e.byteLength.toNat =
    s.file.image.read e.byteOffset.toNat e.byteLength.toNat

theorem SharedFile.SameView.trans {s t u : SharedFile σ} (first : s.SameView t) (second : t.SameView u) : s.SameView u := by
  constructor
  · rw [second.index, first.index]
  · intro e mem
    rw [second.bytes e (by rw [first.index]; exact mem), first.bytes e mem]

end Machine

section Runs

abbrev ListFile := SharedFile ListIndex

/-- An entry is made, and a reader gets into its callback. -/
def untilReading : List AccessMove :=
  [.createEntry threeBytes, .go 0 .lock, .go 0 (.allocate (some 5000) []), .go 0 .lock, .go 0 (.write (some 3)), .go 0 .lock,
    .go 0 .lock, .go 0 (.insert none [(0, [9])]), .go 0 .leave, .openForReading, .go 1 .lock]

/-- Meanwhile another entry is written, and a call waits to delete the first one. -/
def whileReading : List AccessMove :=
  [.createEntry ⟨3, 1, 0, 8, 9, [4, 5, 6]⟩, .deleteEntry ⟨3, 7, 0⟩, .go 2 .lock, .go 2 (.allocate (some 6000) [(64, [1])]),
    .go 2 .lock, .go 2 (.write (some 3))]

/-- Moves of other threads than the reader. -/
def beside (i : Nat) (s : ListFile) (m : AccessMove) : Option ListFile :=
  if m.thread ≠ some i then s.step plainLibrary true m else none

end Runs

end MagelessChain
