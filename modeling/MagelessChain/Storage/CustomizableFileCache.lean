import MagelessChain.Chain.Design
import MagelessChain.Lib.Machine
import Mathlib.Data.List.AList

/-!
# The file cache

`storage/CustomizableFileCache.h`: open files with the objects that access them, by full path. Two
accessors of one file would not see each other's writes, so a file in use must stay in the cache:
when the table is full the oldest entry goes whose accessor has no reference beside the cache's own,
and if there is none the table grows. The accessor is an identity here, and the callers' handles are
counted one by one.
-/

namespace MagelessChain

open Lib

/-- `/` -/
def slash : UInt8 := 47

/-- `open_path_t`; a null accessor is `none`. -/
structure OpenPath (A H : Type) where
  lastAccess : UInt64
  accessor : Option A
  handle : H

/-- What the builder does: an `sp` it returns is shared, null or unique. -/
inductive Built (A : Type) where
  | shared (accessor : A)
  | null
  | unique
  | threw (e : Exn)

/-- The cache. -/
structure CustomizableFileCache (A H : Type) where
  root : Bytes
  openPaths : AList fun _ : Bytes => OpenPath A H
  capacity : Nat

/-- The surroundings of one call of `open`: the clock, which file handles are valid, the handle
`FdHandle::open` returns and what the builder makes of it; of the table, the order its indices
enumerate it in and the capacity it has after a `put`; and of references, those counted beside the
cache's and its callers' and those a null `sp` reports. -/
structure CacheEnv (A H : Type) where
  now : UInt64
  valid : H → Bool
  opened : H
  built : Built A
  order : List Bytes
  capacity : Nat
  others : A → Nat
  nullReferences : Nat

/-- How a call of `open` ends: what it returns or throws, whether it ran the builder, and the cache. -/
structure OpenReturn (A H : Type) where
  result : Except Exn (Option A)
  ranBuilder : Bool
  cache : CustomizableFileCache A H

namespace CustomizableFileCache

variable {A H : Type} [DecidableEq A]

/-- The constructor, for a table of a given size. -/
def construct (root : Bytes) (size : Nat) : CustomizableFileCache A H :=
  ⟨if root.getLast? = some slash then root else root ++ [slash], ∅, size⟩

/-- A path is taken from the root unless it starts with a slash. -/
def fullPath (c : CustomizableFileCache A H) (path : Bytes) : Bytes :=
  if path.head? = some slash then path else c.root ++ path

/-- `numReferences` of an accessor during `addRaw`: the cache's entries, the callers' handles, the
variable of `open` and the parameter of `addRaw` for the accessor to be added, and all others. -/
def numReferences (c : CustomizableFileCache A H) (handles : List (Bytes × A)) (env : CacheEnv A H) (added : Option A) :
    Option A → Nat
  | none => env.nullReferences
  | some a => c.openPaths.entries.countP (fun entry => entry.2.accessor = some a) +
      handles.countP (fun handle => handle.2 = a) + (if added = some a then 2 else 0) + env.others a

/-- The search of `addRaw` for an entry to remove: the first with an invalid handle, or else the
oldest that is not in use. -/
def oldest (valid : H → Bool) (numReferences : Option A → Nat) :
    List (Bytes × OpenPath A H) → UInt64 → Option Bytes → Option Bytes
  | [], _, found => found
  | (path, openPath) :: rest, oldestTime, found =>
    if !valid openPath.handle then some path
    else if openPath.lastAccess < oldestTime ∧ numReferences openPath.accessor ≤ 1 then
      oldest valid numReferences rest openPath.lastAccess (some path)
    else oldest valid numReferences rest oldestTime found

/-- The table in the order of its indices. -/
def table (c : CustomizableFileCache A H) (order : List Bytes) : List (Bytes × OpenPath A H) :=
  order.filterMap fun path => (c.openPaths.lookup path).map fun openPath => (path, openPath)

/-- The entry `addRaw` removes from a full table. -/
def victim (c : CustomizableFileCache A H) (handles : List (Bytes × A)) (env : CacheEnv A H) (added : Option A) :
    Option Bytes :=
  if c.openPaths.entries.length ≥ c.capacity then
    oldest env.valid (c.numReferences handles env added) (c.table env.order) (UInt64.ofNat (2 ^ 64 - 1)) none
  else none

/-- `openPaths.remove`. -/
def remove (c : CustomizableFileCache A H) (path : Bytes) : CustomizableFileCache A H :=
  { c with openPaths := c.openPaths.erase path }

/-- `addRaw`: make room in a full table, if possible, and cache the accessor. -/
def addRaw (c : CustomizableFileCache A H) (handles : List (Bytes × A)) (env : CacheEnv A H) (fullPath : Bytes) (file : H)
    (accessor : Option A) : CustomizableFileCache A H :=
  if !env.valid file then c
  else
    let c := match c.victim handles env accessor with
      | some path => c.remove path
      | none => c
    { c with openPaths := c.openPaths.insert fullPath ⟨env.now, accessor, file⟩, capacity := env.capacity }

/-- The rest of `open` where the path is not in the table: open the file and build an accessor. -/
def openMissing (c : CustomizableFileCache A H) (handles : List (Bytes × A)) (env : CacheEnv A H) (fullPath : Bytes) :
    OpenReturn A H :=
  if !env.valid env.opened then ⟨.ok none, false, c⟩
  else
    match env.built with
    | .threw e => ⟨.error e, true, c⟩
    | .unique => ⟨.error (.runtimeError "Accessor pointer cannot be unique - this is a bug."), true, c⟩
    | .null => ⟨.ok none, true, c.addRaw handles env fullPath env.opened none⟩
    | .shared a => ⟨.ok (some a), true, c.addRaw handles env fullPath env.opened (some a)⟩

/-- `CustomizableFileCache::open`, while the callers hold these handles. -/
def openFile (c : CustomizableFileCache A H) (handles : List (Bytes × A)) (env : CacheEnv A H) (path : Bytes) :
    OpenReturn A H :=
  let fullPath := c.fullPath path
  match c.openPaths.lookup fullPath with
  | some openPath =>
    if env.valid openPath.handle then
      ⟨.ok openPath.accessor, false,
        { c with openPaths := c.openPaths.insert fullPath { openPath with lastAccess := env.now } }⟩
    else (c.remove fullPath).openMissing handles env fullPath
  | none => c.openMissing handles env fullPath

end CustomizableFileCache

/-! ## Callers -/

/-- A cache and the handles its callers hold, each with the full path it was returned for. -/
structure Callers (A H : Type) where
  cache : CustomizableFileCache A H
  handles : List (Bytes × A)

/-- What callers do: open a file, copy a handle they hold, drop one. -/
inductive CallerMove (A H : Type) where
  | openFile (env : CacheEnv A H) (path : Bytes)
  | copy (i : Nat)
  | drop (i : Nat)

namespace Callers

variable {A H : Type} [DecidableEq A]

/-- A new cache, of which nobody holds anything. -/
def start (root : Bytes) (size : Nat) : Callers A H := ⟨.construct root size, []⟩

/-- The handle a call of `open` hands to its caller. -/
def received (fullPath : Bytes) : Except Exn (Option A) → List (Bytes × A)
  | .ok (some a) => [(fullPath, a)]
  | _ => []

def step (s : Callers A H) : CallerMove A H → Option (Callers A H)
  | .openFile env path =>
    let opened := s.cache.openFile s.handles env path
    some ⟨opened.cache, received (s.cache.fullPath path) opened.result ++ s.handles⟩
  | .copy i => s.handles[i]?.map fun handle => ⟨s.cache, handle :: s.handles⟩
  | .drop i => some ⟨s.cache, s.handles.eraseIdx i⟩

/-- The handles of the open files in the cache are valid. -/
def HandlesValid (s : Callers A H) (env : CacheEnv A H) : Prop :=
  ∀ entry ∈ s.cache.openPaths.entries, env.valid entry.2.handle = true

instance (s : Callers A H) (env : CacheEnv A H) : Decidable (s.HandlesValid env) :=
  inferInstanceAs (Decidable (∀ entry ∈ s.cache.openPaths.entries, env.valid entry.2.handle = true))

/-- Open file handles stay valid. -/
def StaysValid (s : Callers A H) : CallerMove A H → Prop
  | .openFile env _ => s.HandlesValid env
  | _ => True

/-- Every file a caller holds the accessor of is in the cache with that accessor. -/
def Pinned (s : Callers A H) : Prop :=
  ∀ path a, (path, a) ∈ s.handles → ∃ openPath, s.cache.openPaths.lookup path = some openPath ∧ openPath.accessor = some a

end Callers

/-! ## A file in use stays -/

section Facts

variable {A H : Type} [DecidableEq A] {c : CustomizableFileCache A H} {handles : List (Bytes × A)} {env : CacheEnv A H}

omit [DecidableEq A] in
/-- What the search finds has an invalid handle or is not in use. -/
theorem oldest_spec {valid : H → Bool} {numReferences : Option A → Nat} {P : Bytes → Prop}
    {entries : List (Bytes × OpenPath A H)} {oldestTime : UInt64} {found : Option Bytes}
    (free : ∀ path openPath, (path, openPath) ∈ entries →
      valid openPath.handle = false ∨ numReferences openPath.accessor ≤ 1 → P path)
    (start : ∀ path, found = some path → P path) :
    ∀ path, CustomizableFileCache.oldest valid numReferences entries oldestTime found = some path → P path := by
  induction entries generalizing oldestTime found with
  | nil => exact start
  | cons entry rest ih =>
    obtain ⟨here, openPath⟩ := entry
    have later : ∀ path openPath, (path, openPath) ∈ rest →
        valid openPath.handle = false ∨ numReferences openPath.accessor ≤ 1 → P path :=
      fun path openPath mem => free path openPath (List.mem_cons_of_mem _ mem)
    intro path eq
    unfold CustomizableFileCache.oldest at eq
    split at eq
    · rename_i invalid
      cases eq
      exact free here openPath List.mem_cons_self (.inl (by simpa using invalid))
    · split at eq
      · rename_i older
        refine ih later (fun path eq => ?_) path eq
        cases eq
        exact free here openPath List.mem_cons_self (.inr older.2)
      · exact ih later start path eq

omit [DecidableEq A] in
theorem mem_table {order : List Bytes} {path : Bytes} {openPath : OpenPath A H} (mem : (path, openPath) ∈ c.table order) :
    c.openPaths.lookup path = some openPath := by
  obtain ⟨path', -, eq⟩ := List.mem_filterMap.1 mem
  obtain ⟨openPath', found, eq⟩ := Option.map_eq_some_iff.1 eq
  cases eq
  exact found

omit [DecidableEq A] in
theorem mem_entries {path : Bytes} {openPath : OpenPath A H} (found : c.openPaths.lookup path = some openPath) :
    ⟨path, openPath⟩ ∈ c.openPaths.entries :=
  AList.mem_lookup_iff.1 found

/-- An accessor in the cache that a caller holds has two references. -/
theorem two_references {path : Bytes} {openPath : OpenPath A H} {a : A} {added : Option A}
    (found : c.openPaths.lookup path = some openPath) (accessor : openPath.accessor = some a) (held : (path, a) ∈ handles) :
    1 < c.numReferences handles env added (some a) := by
  have cached : 0 < c.openPaths.entries.countP (fun entry => entry.2.accessor = some a) :=
    List.countP_pos_iff.2 ⟨_, mem_entries found, decide_eq_true accessor⟩
  have outside : 0 < handles.countP (fun handle => handle.2 = a) :=
    List.countP_pos_iff.2 ⟨_, held, decide_eq_true rfl⟩
  unfold CustomizableFileCache.numReferences
  dsimp only
  omega

/-- **No file in use is removed** to make room. -/
theorem victim_unused {path path' : Bytes} {openPath : OpenPath A H} {a : A} {added : Option A}
    (valid : ∀ entry ∈ c.openPaths.entries, env.valid entry.2.handle = true)
    (found : c.openPaths.lookup path = some openPath) (accessor : openPath.accessor = some a) (held : (path, a) ∈ handles)
    (removed : c.victim handles env added = some path') : path ≠ path' := by
  rintro rfl
  unfold CustomizableFileCache.victim at removed
  split at removed
  · refine oldest_spec (P := fun path' => path ≠ path') ?_ ?_ path removed rfl
    · rintro path' openPath' mem free rfl
      obtain rfl : openPath = openPath' := Option.some.inj (found.symm.trans (mem_table mem))
      obtain invalid | unused := free
      · rw [valid _ (mem_entries found)] at invalid
        cases invalid
      · rw [accessor] at unused
        exact absurd (two_references found accessor held) (Nat.not_lt.2 unused)
    · exact fun _ none => by cases none
  · cases removed

/-- Adding another file leaves a file in use where it is. -/
theorem addRaw_lookup {path fullPath : Bytes} {openPath : OpenPath A H} {a : A} {file : H} {added : Option A}
    (valid : ∀ entry ∈ c.openPaths.entries, env.valid entry.2.handle = true)
    (found : c.openPaths.lookup path = some openPath) (accessor : openPath.accessor = some a) (held : (path, a) ∈ handles)
    (other : path ≠ fullPath) : (c.addRaw handles env fullPath file added).openPaths.lookup path = some openPath := by
  unfold CustomizableFileCache.addRaw
  split
  · exact found
  · dsimp only
    rw [AList.lookup_insert_ne other]
    split
    · rename_i removed
      exact (AList.lookup_erase_ne (victim_unused valid found accessor held removed)).trans found
    · exact found

/-- The accessor of a file in the cache is returned without the builder. -/
theorem openFile_cached {path : Bytes} {openPath : OpenPath A H} (valid : ∀ entry ∈ c.openPaths.entries, env.valid entry.2.handle = true)
    (found : c.openPaths.lookup (c.fullPath path) = some openPath) :
    c.openFile handles env path = ⟨.ok openPath.accessor, false,
      { c with openPaths := c.openPaths.insert (c.fullPath path) { openPath with lastAccess := env.now } }⟩ := by
  unfold CustomizableFileCache.openFile
  simp only [found, valid _ (mem_entries found), if_true]

theorem openFile_missing {path : Bytes} (missing : c.openPaths.lookup (c.fullPath path) = none) :
    c.openFile handles env path = c.openMissing handles env (c.fullPath path) := by
  unfold CustomizableFileCache.openFile
  simp only [missing]

/-- Opening any file leaves a file in use in the cache, with its accessor. -/
theorem openFile_keeps {path path' : Bytes} {openPath : OpenPath A H} {a : A}
    (valid : ∀ entry ∈ c.openPaths.entries, env.valid entry.2.handle = true)
    (found : c.openPaths.lookup path = some openPath) (accessor : openPath.accessor = some a) (held : (path, a) ∈ handles) :
    ∃ openPath', (c.openFile handles env path').cache.openPaths.lookup path = some openPath' ∧ openPath'.accessor = some a := by
  cases here : c.openPaths.lookup (c.fullPath path') with
  | some other =>
    rw [openFile_cached valid here]
    by_cases same : path = c.fullPath path'
    · subst same
      obtain rfl : other = openPath := Option.some.inj (here.symm.trans found)
      exact ⟨_, AList.lookup_insert _, accessor⟩
    · exact ⟨openPath, (AList.lookup_insert_ne same).trans found, accessor⟩
  | none =>
    have other : path ≠ c.fullPath path' := by
      rintro rfl
      rw [here] at found
      cases found
    rw [openFile_missing here]
    unfold CustomizableFileCache.openMissing
    split
    · exact ⟨openPath, found, accessor⟩
    · split
      · exact ⟨openPath, found, accessor⟩
      · exact ⟨openPath, found, accessor⟩
      · exact ⟨openPath, addRaw_lookup valid found accessor held other, accessor⟩
      · exact ⟨openPath, addRaw_lookup valid found accessor held other, accessor⟩

/-- An accessor a caller receives is in the cache. -/
theorem openFile_caches {path : Bytes} {a : A} (valid : ∀ entry ∈ c.openPaths.entries, env.valid entry.2.handle = true)
    (returned : (c.openFile handles env path).result = .ok (some a)) :
    ∃ openPath, (c.openFile handles env path).cache.openPaths.lookup (c.fullPath path) = some openPath ∧
      openPath.accessor = some a := by
  cases here : c.openPaths.lookup (c.fullPath path) with
  | some openPath =>
    rw [openFile_cached valid here] at returned ⊢
    exact ⟨_, AList.lookup_insert _, Except.ok.inj returned⟩
  | none =>
    rw [openFile_missing here] at returned ⊢
    unfold CustomizableFileCache.openMissing at returned ⊢
    split at returned
    · cases returned
    · rename_i opened
      rw [if_neg opened]
      split at returned
      · cases returned
      · cases returned
      · cases returned
      · cases returned
        unfold CustomizableFileCache.addRaw
        rw [if_neg opened]
        exact ⟨_, AList.lookup_insert _, rfl⟩

end Facts

/-! ## Any run of callers -/

section Runs

variable {A H : Type} [DecidableEq A] {s s' : Callers A H} {m : CallerMove A H}

omit [DecidableEq A] in
theorem Callers.mem_received {path fullPath : Bytes} {a : A} {result : Except Exn (Option A)}
    (mem : (path, a) ∈ received fullPath result) : path = fullPath ∧ result = .ok (some a) := by
  unfold received at mem
  split at mem
  · obtain ⟨rfl, rfl⟩ := Prod.mk.inj (List.mem_singleton.1 mem)
    exact ⟨rfl, rfl⟩
  · cases mem

theorem Callers.Pinned.step (h : s.Pinned) (stays : s.StaysValid m) (moved : s.step m = some s') : s'.Pinned := by
  cases m with
  | openFile env path' =>
    cases moved
    intro path a held
    obtain new | old := List.mem_append.1 held
    · obtain ⟨rfl, returned⟩ := mem_received new
      exact openFile_caches stays returned
    · obtain ⟨openPath, found, accessor⟩ := h path a old
      exact openFile_keeps stays found accessor old
  | copy i =>
    obtain ⟨handle, found, rfl⟩ := Option.map_eq_some_iff.1 moved
    intro path a held
    obtain eq | old := List.mem_cons.1 held
    · exact h path a (eq ▸ List.mem_of_getElem? found)
    · exact h path a old
  | drop i =>
    cases moved
    exact fun path a held => h path a (List.mem_of_mem_eraseIdx held)

/-- In every state reached, files in use are in the cache. -/
theorem Callers.pinned {root : Bytes} {size : Nat} (reach : Reach Callers.step Callers.StaysValid (Callers.start root size) s) :
    s.Pinned :=
  reach.invariant (fun _ _ held => by cases held) fun _ _ _ h stays moved => h.step stays moved

/-- **One accessor for each file**: as long as a caller holds the accessor returned for a path, every
call of `open` with that path returns it again and does not run the builder; so all handles held for
a path are of one accessor. -/
theorem one_accessor_per_file (root : Bytes) (size : Nat) (s : Callers A H)
    (reach : Reach Callers.step Callers.StaysValid (Callers.start root size) s) :
    (∀ path a, (s.cache.fullPath path, a) ∈ s.handles → ∀ env, s.HandlesValid env →
      (s.cache.openFile s.handles env path).result = .ok (some a) ∧
      (s.cache.openFile s.handles env path).ranBuilder = false) ∧
    ∀ fullPath a a', (fullPath, a) ∈ s.handles → (fullPath, a') ∈ s.handles → a = a' := by
  have pinned := Callers.pinned reach
  refine ⟨fun path a held env valid => ?_, fun fullPath a a' held held' => ?_⟩
  · obtain ⟨openPath, found, accessor⟩ := pinned _ a held
    rw [openFile_cached valid found]
    exact ⟨congrArg Except.ok accessor, rfl⟩
  · obtain ⟨openPath, found, accessor⟩ := pinned _ a held
    obtain ⟨openPath', found', accessor'⟩ := pinned _ a' held'
    obtain rfl : openPath = openPath' := Option.some.inj (found.symm.trans found')
    exact Option.some.inj (accessor.symm.trans accessor')

/-- A clock reading and the accessor built, if one is; the table is enumerated as it stands. -/
def readings (now : UInt64) (accessor : Nat) (order : List Bytes) (capacity : Nat) : CacheEnv Nat Nat :=
  ⟨now, fun _ => true, accessor, .shared accessor, order, capacity, fun _ => 0, 0⟩

instance (s : Callers A H) : (m : CallerMove A H) → Decidable (s.StaysValid m)
  | .openFile env _ => inferInstanceAs (Decidable (s.HandlesValid env))
  | .copy _ | .drop _ => .isTrue trivial

/-- A table of two, with one file in use and one not: the second goes for a third. A fourth finds both in
use, and the table grows. -/
def fourFiles : List (CallerMove Nat Nat) :=
  [.openFile (readings 10 1 [] 2) [1], .openFile (readings 20 2 [] 2) [2], .drop 0,
    .openFile (readings 30 3 [[47, 1], [47, 2]] 2) [3], .openFile (readings 40 4 [[47, 1], [47, 3]] 4) [4]]

theorem one_accessor_per_file_four : ∃ s : Callers Nat Nat,
    moves (fun s m => if s.StaysValid m then s.step m else none) fourFiles (Callers.start [] 2) = some s ∧
    s.handles = [([47, 4], 4), ([47, 3], 3), ([47, 1], 1)] ∧ s.cache.capacity = 4 ∧
    (s.cache.openFile s.handles (readings 50 9 [] 4) [1]).result = .ok (some 1) ∧
    (s.cache.openFile s.handles (readings 50 9 [] 4) [1]).ranBuilder = false := by
  have run : (moves (fun (s : Callers Nat Nat) m => if s.StaysValid m then s.step m else none) fourFiles
      (Callers.start [] 2)).map (fun s => (s.handles, s.cache.capacity, s.cache.root)) =
      some ([([47, 4], 4), ([47, 3], 3), ([47, 1], 1)], 4, [47]) := by decide +kernel
  obtain ⟨s, reached, eq⟩ := Option.map_eq_some_iff.1 run
  obtain ⟨handles, capacity, root⟩ : s.handles = _ ∧ s.cache.capacity = _ ∧ s.cache.root = _ := by simpa using eq
  have held : (s.cache.fullPath [1], 1) ∈ s.handles := by
    rw [CustomizableFileCache.fullPath, root, handles]
    decide
  have again := (one_accessor_per_file [] 2 s (Reach.refl.guarded _ reached)).1 [1] 1 held (readings 50 9 [] 4)
    fun _ _ => rfl
  exact ⟨s, reached, handles, capacity, again⟩

end Runs

end MagelessChain
