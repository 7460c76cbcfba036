import MagelessChain.Lib.Behaviours
import MagelessChain.Storage.CatalogAccess

/-!
# A catalog file as an atomic object

What a catalog file is for, apart from its locks: an index of segments with a payload each, on which
a call of `createEntry` or `deleteEntry` takes effect at one moment between its invocation and its
return, or throws and has none, and of which a reader sees one state in the whole of its callback.
The file with its two locks behaves like this object: beside each of its behaviours, however its
threads are interleaved, there is one of the object with the same calls under way, with the same
answers, and with the same contents at every moment.
-/

namespace MagelessChain

open Lib OrderedStore

/-! ## The object -/

/-- The segments, and the payload of each. -/
structure SegmentStore (σ : Type) where
  index : σ
  payload : SegmentMetadata → Bytes

/-- What a method is called for. -/
inductive FileCall where
  | openForReading
  | createEntry (c : WriteCall)
  | deleteEntry (k : EntryKey)

/-- What a call is answered with: what its callback sees, or what it throws, if anything. -/
inductive FileAnswer (σ : Type) where
  | saw (store : SegmentStore σ)
  | ended (thrown : Option Exn)

def FileAnswer.thrown {σ : Type} : FileAnswer σ → Option Exn
  | .saw _ => none
  | .ended thrown => thrown

/-- A call has no effect yet, has had its effect, or has returned. -/
inductive AtomicCall (σ : Type) where
  | pending (call : FileCall)
  | answered (answer : FileAnswer σ)
  | returned (answer : FileAnswer σ)

/-- How a call goes on. A new segment is at an offset that is not known before. -/
inductive CallEffect where
  | look
  | create (offset : UInt64)
  | refuse (thrown : Exn)
  | delete
  | finish

/-- A new call, or an effect of one. -/
inductive AtomicMove where
  | call (call : FileCall)
  | act (i : Nat) (effect : CallEffect)

structure AtomicFile (σ : Type) where
  store : SegmentStore σ
  calls : List (AtomicCall σ)

section Object

variable {σ : Type} [RemovableStore σ SegmentMetadata SegmentMetadata.compare]

def SegmentStore.create (lib : CatalogLibrary) (store : SegmentStore σ) (c : WriteCall) (offset : UInt64) : SegmentStore σ :=
  ⟨OrderedStore.insert store.index (c.metadata lib offset), Function.update store.payload (c.metadata lib offset) c.payload⟩

def SegmentStore.delete (store : SegmentStore σ) (k : EntryKey) : SegmentStore σ :=
  { store with index := RemovableStore.remove store.index k.toRemove }

@[simp] theorem SegmentStore.payload_create_self (lib : CatalogLibrary) (store : SegmentStore σ) (c : WriteCall)
    (offset : UInt64) :
    (store.create lib c offset).payload (c.metadata lib offset) = c.payload := Function.update_self _ _ _

theorem SegmentStore.payload_create_of_ne {lib : CatalogLibrary} {store : SegmentStore σ} {c : WriteCall} {offset : UInt64}
    {e : SegmentMetadata} (old : e ≠ c.metadata lib offset) : (store.create lib c offset).payload e = store.payload e :=
  Function.update_of_ne old _ _

/-- The whole effect of a call, at one moment. -/
def AtomicCall.act (lib : CatalogLibrary) (store : SegmentStore σ) :
    AtomicCall σ → CallEffect → Option (SegmentStore σ × AtomicCall σ)
  | .pending .openForReading, .look => some (store, .answered (.saw store))
  | .pending (.createEntry c), .create offset => some (store.create lib c offset, .answered (.ended none))
  | .pending (.createEntry _), .refuse thrown => some (store, .answered (.ended (some thrown)))
  | .pending (.deleteEntry k), .delete => some (store.delete k, .answered (.ended none))
  | .answered answer, .finish => some (store, .returned answer)
  | _, _ => none

def AtomicFile.step (lib : CatalogLibrary) (a : AtomicFile σ) : AtomicMove → Option (AtomicFile σ)
  | .call call => some { a with calls := a.calls ++ [.pending call] }
  | .act i effect =>
    match a.calls[i]? with
    | none => none
    | some call => (call.act lib a.store effect).map fun (store, call) => ⟨store, a.calls.set i call⟩

def AtomicFile.new : AtomicFile σ := ⟨⟨OrderedStore.empty, fun _ => []⟩, []⟩

/-! ## What the file shows of it -/

/-- The call of the object that a thread stands for. A reader in its callback sees the store as it is. -/
def Access.Shows (store : SegmentStore σ) : Access → AtomicCall σ → Prop
  | .opening, call => call = .pending .openForReading
  | .reading, call => call = .answered (.saw store)
  | .claiming c, call | .allocating c, call | .allocated c _, call | .writing c _, call | .written c _, call
  | .entering c _, call | .inserting c _, call => call = .pending (.createEntry c)
  | .leaving thrown, call => call = .answered (.ended thrown)
  | .deleting k, call | .removing k, call => call = .pending (.deleteEntry k)
  | .removed _ _, call | .freeing _ _, call => call = .answered (.ended none)
  | .ended thrown, call => ∃ answer : FileAnswer σ, call = .returned answer ∧ answer.thrown = thrown

/-- The file has the segments of the store, with their payloads. -/
structure CatalogFile.Contains (file : CatalogFile σ) (store : SegmentStore σ) : Prop where
  index : store.index = file.segmentIndex
  payload : ∀ e ∈ records file.segmentIndex, file.image.read e.byteOffset.toNat e.byteLength.toNat = store.payload e

structure SharedFile.Shows (s : SharedFile σ) (a : AtomicFile σ) : Prop where
  contains : s.file.Contains a.store
  length : a.calls.length = s.threads.length
  calls : ∀ (i : Nat) (p : Access), s.threads[i]? = some p → ∃ call, a.calls[i]? = some call ∧ p.Shows a.store call

variable {lib : CatalogLibrary} {loads : Bool} {others : List Access} {file file' : CatalogFile σ} {live live' : List (Nat × Nat)}
  {p p' : Access} {a : AccessStep} {store store' : SegmentStore σ} {call : AtomicCall σ}

omit [RemovableStore σ SegmentMetadata SegmentMetadata.compare] in
/-- Only a reader in its callback sees the store. -/
theorem Access.Shows.elsewhere (shows : p.Shows store call) (away : p.hold .rwMutex ≠ some .shared) :
    p.Shows store' call := by
  cases p with
  | reading => exact absurd rfl away
  | _ => exact shows

/-- A step that leaves the index as it is. -/
theorem CatalogFile.Contains.keep (contains : file.Contains store)
    (change : Access.Change lib loads others file live p p' file' live')
    (owned : Ownership live (ownersBeside file.segmentIndex others p)) (same : file'.segmentIndex = file.segmentIndex) :
    file'.Contains store := by
  constructor
  · rw [same, contains.index]
  · intro e mem
    rw [same] at mem
    have among : e.region ∈ (records file.segmentIndex).map SegmentMetadata.region ++ others.filterMap Access.region :=
      List.mem_append_left _ (List.mem_map_of_mem mem)
    rw [← contains.payload e mem]
    exact change.read owned among

/-- The payload of a segment is written before the segment is inserted. -/
theorem CatalogFile.Contains.insert (adds : ∀ (t : σ) k, ∀ r ∈ records (OrderedStore.insert t k), r = k ∨ r ∈ records t)
    (contains : file.Contains store) {c : WriteCall} {offset : UInt64} {nodes : List (Nat × Bytes)}
    (owned : Ownership live (ownersBeside file.segmentIndex others (.inserting c offset))) (clear : NodesClear live nodes)
    (written : file.image.Holds offset.toNat c.payload) :
    CatalogFile.Contains ⟨writeNodes file.image nodes, OrderedStore.insert file.segmentIndex (c.metadata lib offset)⟩
      (store.create lib c offset) := by
  have own := owned.live (offset.toNat, c.length) List.mem_cons_self
  have there : (writeNodes file.image nodes).read offset.toNat c.length = c.payload := by
    have held := holds_writeNodes own c.length_payload clear written
    rw [← c.length_payload]
    exact held
  constructor
  · rw [SegmentStore.create, contains.index]
  · intro e mem
    by_cases new : e = c.metadata lib offset
    · subst new
      have region := c.region_metadata lib offset
      rw [SegmentStore.payload_create_self, ← there]
      exact congrArg (fun r : Nat × Nat => (writeNodes file.image nodes).read r.1 r.2) region
    · obtain same | before := adds _ _ e mem
      · exact absurd same new
      · rw [SegmentStore.payload_create_of_ne new, ← contains.payload e before]
        have change : Access.Change lib false others file live (.inserting c offset) _ _ _ := .inserted rfl clear
        exact change.read owned (List.mem_append_left _ (List.mem_map_of_mem before))

/-- **What a step of a thread is to the object**: nothing, or the whole effect of its call. Where the
store changes, the thread has `rwMutex` alone. -/
theorem Access.go_atomic (adds : ∀ (t : σ) k, ∀ r ∈ records (OrderedStore.insert t k), r = k ∨ r ∈ records t)
    (moved : p.go lib loads others file live a = some (p', file', live'))
    (owned : Ownership live (ownersBeside file.segmentIndex others p))
    (written : ∀ c offset, p.wrote = some (c, offset) → file.image.Holds offset.toNat c.payload)
    (contains : file.Contains store) (shows : p.Shows store call) :
    ∃ store' call', (store' = store ∧ call' = call ∨ ∃ effect, call.act lib store effect = some (store', call')) ∧
      file'.Contains store' ∧ p'.Shows store' call' ∧ (store' = store ∨ p.hold .rwMutex = some .unique) := by
  have change := Access.go_cases moved
  have keep := contains.keep change owned
  cases a with
  | lock =>
    simp only [Access.go] at moved
    split at moved
    · rename_i l mode next wants
      split at moved
      · cases moved
        cases p with
        | opening =>
          cases wants
          subst shows
          exact ⟨_, _, .inr ⟨.look, rfl⟩, contains, rfl, .inl rfl⟩
        | claiming | allocated | written | entering | deleting | removed =>
          cases wants
          exact ⟨_, _, .inl ⟨rfl, rfl⟩, contains, shows, .inl rfl⟩
        | _ => cases wants
      · cases moved
    · cases moved
  | leave =>
    cases p with
    | reading | leaving =>
      cases moved
      subst shows
      exact ⟨_, _, .inr ⟨.finish, rfl⟩, contains, ⟨_, rfl, rfl⟩, .inl rfl⟩
    | _ => cases moved
  | allocate region nodes =>
    cases p with
    | allocating c =>
      simp only [Access.go] at moved
      split at moved
      · split at moved
        · cases moved
          subst shows
          exact ⟨_, _, .inr ⟨.refuse _, rfl⟩, keep rfl, rfl, .inl rfl⟩
        · cases moved
      · split at moved
        · cases moved
          exact ⟨_, _, .inl ⟨rfl, rfl⟩, keep rfl, shows, .inl rfl⟩
        · cases moved
    | _ => cases moved
  | write count =>
    cases p with
    | writing c offset =>
      simp only [Access.go, Option.some.injEq, Prod.mk.injEq] at moved
      obtain ⟨rfl, rfl, rfl⟩ := moved
      split
      · exact ⟨_, _, .inl ⟨rfl, rfl⟩, keep rfl, shows, .inl rfl⟩
      · subst shows
        exact ⟨_, _, .inr ⟨.refuse _, rfl⟩, keep rfl, rfl, .inl rfl⟩
    | _ => cases moved
  | insert thrown nodes =>
    cases p with
    | inserting c offset =>
      subst shows
      simp only [Access.go] at moved
      split at moved
      · rename_i clear
        cases thrown with
        | none =>
          cases moved
          exact ⟨_, _, .inr ⟨.create offset, rfl⟩, contains.insert adds owned clear (written c offset rfl), rfl, .inr rfl⟩
        | some e =>
          cases moved
          exact ⟨_, _, .inr ⟨.refuse e, rfl⟩, keep rfl, rfl, .inl rfl⟩
      · cases moved
    | _ => cases moved
  | remove nodes =>
    cases p with
    | removing k =>
      subst shows
      simp only [Access.go] at moved
      split at moved
      · cases moved
        refine ⟨_, _, .inr ⟨.delete, rfl⟩, ⟨?_, fun e mem => ?_⟩, rfl, .inr rfl⟩
        · rw [SegmentStore.delete, contains.index]
        · have before := ((RemovableStore.mem_remove _ _ e).1 mem).1
          rw [SegmentStore.delete, ← contains.payload e before]
          exact change.read owned (List.mem_append_left _ (List.mem_map_of_mem before))
      · cases moved
    | _ => cases moved
  | free nodes =>
    cases p with
    | freeing offset length =>
      simp only [Access.go] at moved
      split at moved
      · cases moved
        subst shows
        exact ⟨_, _, .inr ⟨.finish, rfl⟩, keep rfl, ⟨_, rfl, rfl⟩, .inl rfl⟩
      · cases moved
    | _ => cases moved

/-! ## Behaviours -/

/-- A new call. -/
theorem SharedFile.Shows.spawn {s : SharedFile σ} {a : AtomicFile σ} (shows : s.Shows a) (p : Access) (call : FileCall)
    (shown : p.Shows a.store (.pending call)) (flag : Bool) :
    SharedFile.Shows { s with isSegmentBeingWritten := flag, threads := s.threads ++ [p] }
      { a with calls := a.calls ++ [.pending call] } := by
  refine ⟨shows.contains, ?_, fun i q there => ?_⟩
  · simp only [List.length_append, shows.length, List.length_singleton]
  · change (s.threads ++ [p])[i]? = some q at there
    change ∃ call', (a.calls ++ [AtomicCall.pending call])[i]? = some call' ∧ q.Shows a.store call'
    by_cases old : i < s.threads.length
    · rw [List.getElem?_append_left old] at there
      rw [List.getElem?_append_left (by rw [shows.length]; exact old)]
      exact shows.calls i q there
    · have inside := (List.getElem?_eq_some_iff.1 there).1
      rw [List.length_append, List.length_singleton] at inside
      have last : i = s.threads.length := by omega
      rw [last, List.getElem?_concat_length] at there
      cases there
      refine ⟨.pending call, ?_, shown⟩
      rw [last, ← shows.length, List.getElem?_concat_length]

/-- **Every move** of the file is matched by one of the object, or by none. -/
theorem SharedFile.matches (adds : ∀ (t : σ) k, ∀ r ∈ records (OrderedStore.insert t k), r = k ∨ r ∈ records t) :
    Matches (SharedFile.step lib loads) (AtomicFile.step lib)
      (fun (s : SharedFile σ) (a : AtomicFile σ) => s.Kept lib ∧ s.Shows a) := by
  rintro s m s' a ⟨kept, shows⟩ moved
  have kept' := kept.step adds moved
  cases m with
  | openForReading =>
    cases moved
    exact ⟨_, .inr ⟨.call .openForReading, rfl⟩, kept', shows.spawn .opening .openForReading rfl _⟩
  | createEntry c =>
    cases moved
    exact ⟨_, .inr ⟨.call (.createEntry c), rfl⟩, kept', shows.spawn (.claiming c) (.createEntry c) rfl _⟩
  | deleteEntry k =>
    cases moved
    exact ⟨_, .inr ⟨.call (.deleteEntry k), rfl⟩, kept', shows.spawn (.deleting k) (.deleteEntry k) rfl _⟩
  | go i act =>
    obtain ⟨p, front, back, p', file, live, here, split, went, eq, set⟩ := SharedFile.step_go moved
    have owned := kept.owned
    rw [split] at owned
    have beside : Ownership s.live (ownersBeside s.file.segmentIndex (front ++ back) p) :=
      owned.shrink (owners_perm _ _ _ _).symm.subperm
    obtain ⟨call, under_way, shown⟩ := shows.calls i p here
    obtain ⟨store, call', effect, contains, shown', alone⟩ :=
      Access.go_atomic adds went beside (kept.written p (List.mem_of_getElem? here)) shows.contains shown
    refine ⟨⟨store, a.calls.set i call'⟩, ?_, kept', ?_⟩
    · obtain ⟨rfl, rfl⟩ | ⟨effect, acted⟩ := effect
      · left
        obtain ⟨inside, rfl⟩ := List.getElem?_eq_some_iff.1 under_way
        rw [List.set_getElem_self inside]
      · right
        refine ⟨.act i effect, ?_⟩
        simp only [AtomicFile.step, under_way, acted, Option.map_some]
    · refine ⟨by rw [eq]; exact contains, by rw [set, List.length_set, List.length_set]; exact shows.length,
        fun j q there => ?_⟩
      rw [set] at there
      by_cases same : j = i
      · subst same
        obtain ⟨inside, -⟩ := List.getElem?_eq_some_iff.1 under_way
        rw [List.getElem?_set_self (List.getElem?_eq_some_iff.1 here).1] at there
        cases there
        exact ⟨call', List.getElem?_set_self inside, shown'⟩
      · rw [List.getElem?_set_ne (Ne.symm same)] at there
        obtain ⟨other, under_way', shows_other⟩ := shows.calls j q there
        refine ⟨other, by rw [List.getElem?_set_ne (Ne.symm same)]; exact under_way', ?_⟩
        obtain rfl | alone := alone
        · exact shows_other
        · exact shows_other.elsewhere fun shared => kept.excluded.shared there here shared alone

/-- **A catalog file is atomic**: beside each behaviour of the file, whatever steps its threads take in
whatever order, there is one of the object that shows the same calls under way and the same segments and
payloads at every moment. -/
theorem file_atomic (adds : ∀ (t : σ) k, ∀ r ∈ records (OrderedStore.insert t k), r = k ∨ r ∈ records t) (image : Image)
    {f : Nat → SharedFile σ} (behaves : Behaviour (SharedFile.step lib loads) f) (start : f 0 = SharedFile.new image) :
    ∃ g : Nat → AtomicFile σ, g 0 = AtomicFile.new ∧ Behaviour (AtomicFile.step lib) g ∧ ∀ k, (f k).Shows (g k) := by
  have shows : (SharedFile.new image : SharedFile σ).Shows AtomicFile.new := by
    refine ⟨⟨rfl, fun e mem => ?_⟩, rfl, fun i p here => ?_⟩
    · change e ∈ records (OrderedStore.empty : σ) at mem
      rw [records_empty] at mem
      cases mem
    · cases here
  have both : (f 0).Kept lib ∧ (f 0).Shows AtomicFile.new := by
    rw [start]
    exact ⟨.new lib image, shows⟩
  obtain ⟨g, first, beside, related⟩ := (SharedFile.matches adds).behaviour behaves both
  exact ⟨g, first, beside, fun k => (related k).2⟩

end Object

section Runs

/-- The first entry is made, a reader is in its callback, another entry is being written and a call
waits to delete the first one: the object has one segment, and the reader has seen it. -/
theorem file_atomic_reading : ∃ f g, f = timeline (SharedFile.step plainLibrary true) (untilReading ++ whileReading)
      (SharedFile.new Image.zero : ListFile) ∧ g 0 = AtomicFile.new ∧ Behaviour (AtomicFile.step plainLibrary) g ∧
    (∀ k, (f k).Shows (g k)) ∧ records (g 17).store.index = [threeBytes.metadata plainLibrary 5000] ∧
    (g 17).store.payload (threeBytes.metadata plainLibrary 5000) = [1, 2, 3] ∧
    (g 17).calls[1]? = some (.answered (.saw (g 17).store)) := by
  have ran : ∃ s, moves (SharedFile.step plainLibrary true) (untilReading ++ whileReading) (.new Image.zero : ListFile) =
      some s := by
    apply Option.isSome_iff_exists.1
    decide +kernel
  obtain ⟨s, reached⟩ := ran
  obtain ⟨g, first, beside, shows⟩ := file_atomic ListIndex.adds Image.zero (behaviour_timeline reached) rfl
  have last : timeline (SharedFile.step plainLibrary true) (untilReading ++ whileReading) (.new Image.zero : ListFile) 17 =
      s := by
    have whole : (untilReading ++ whileReading).take 17 = untilReading ++ whileReading := rfl
    rw [timeline, whole, reached, Option.getD_some]
  have facts : (moves (SharedFile.step plainLibrary true) (untilReading ++ whileReading) (.new Image.zero : ListFile)).map
      (fun s => (records s.file.segmentIndex, s.file.image.read 5000 3, s.threads[1]?)) =
        some ([threeBytes.metadata plainLibrary 5000], [1, 2, 3], some .reading) := by
    decide +kernel
  rw [reached] at facts
  obtain ⟨one, facts⟩ := Prod.mk.inj (Option.some.inj facts)
  obtain ⟨bytes, reading⟩ := Prod.mk.inj facts
  have shown := shows 17
  rw [last] at shown
  refine ⟨_, g, rfl, first, beside, shows, ?_, ?_, ?_⟩
  · rw [shown.contains.index, one]
  · rw [← bytes, ← shown.contains.payload _ (by rw [one]; exact List.mem_singleton_self _)]
    rfl
  · obtain ⟨call, here, rfl⟩ := shown.calls 1 .reading reading
    exact here

end Runs

end MagelessChain
