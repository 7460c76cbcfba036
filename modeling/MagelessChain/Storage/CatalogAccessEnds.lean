import MagelessChain.Storage.CatalogAccess

/-!
# Calls on a catalog file, to their end

The flag `isSegmentBeingWritten` and the ends of the calls. A guard clears the flag when
`createEntry` is left, so that nothing a call throws leaves it set. The threads take `rwMutex` before
`appendMutex`, so they never all wait for each other, and every call takes a bounded number of steps.
A call that no other interrupts does what the function of the entries' model does.
-/

namespace MagelessChain

open Lib OrderedStore

section Machine

variable {σ : Type} [RemovableStore σ SegmentMetadata SegmentMetadata.compare] {lib : CatalogLibrary} {loads : Bool}
  {others : List Access} {file file' : CatalogFile σ} {live live' : List (Nat × Nat)} {p p' : Access} {a : AccessStep}

/-! ## The flag -/

/-- A step inside `createEntry` stays inside, but for the last, which clears the flag. -/
theorem Access.go_creates (moved : p.go lib loads others file live a = some (p', file', live')) (creates : p.creates = true)
    (goes_on : p.clears a = false) : p'.creates = true := by
  cases Access.go_cases moved with
  | granted takes _ => rw [takes.creates, creates]
  | left from_here =>
    obtain rfl | rfl := from_here
    · cases creates
    · cases a with
      | leave => cases goes_on
      | lock => cases moved
      | _ => cases moved
  | abandoned _ | allocated _ _ _ | inserted _ _ => rfl
  | wrote _ _ went => obtain ⟨rfl, -⟩ | ⟨thrown, rfl⟩ := went <;> rfl
  | removed here _ => rw [here] at creates; cases creates
  | freed here _ => rw [here] at creates; cases creates

/-- A set flag has a call of `createEntry` to clear it. -/
def SharedFile.FlagOwned (s : SharedFile σ) : Prop := s.isSegmentBeingWritten = true → ∃ p ∈ s.threads, p.creates = true

theorem SharedFile.FlagOwned.step {s s' : SharedFile σ} (owned : s.FlagOwned) {m : AccessMove}
    (moved : s.step lib loads m = some s') : s'.FlagOwned := by
  have kept : ∀ q, s.isSegmentBeingWritten = true → ∃ p ∈ s.threads ++ [q], p.creates = true := by
    intro q set
    obtain ⟨p, mem, creates⟩ := owned set
    exact ⟨p, List.mem_append_left _ mem, creates⟩
  cases m with
  | openForReading => cases moved; exact kept _
  | deleteEntry k => cases moved; exact kept _
  | createEntry c =>
    cases moved
    exact fun _ => ⟨.claiming c, List.mem_append_right _ (List.mem_singleton_self _), rfl⟩
  | go i a =>
    obtain ⟨p, front, back, p', file, live, -, split, went, rfl, -⟩ := SharedFile.step_go moved
    intro set
    dsimp only at set ⊢
    split at set
    · cases set
    · rename_i goes_on
      obtain ⟨q, mem, creates⟩ := owned set
      rw [split, List.mem_append, List.mem_cons] at mem
      obtain mem | rfl | mem := mem
      · exact ⟨q, List.mem_append_left _ mem, creates⟩
      · exact ⟨p', by simp, Access.go_creates went creates (by simpa using goes_on)⟩
      · exact ⟨q, List.mem_append_right _ (List.mem_cons_of_mem _ mem), creates⟩

/-- **The flag is never left set**: once no thread is inside `createEntry`, whatever its calls threw,
`isBusy` is false. -/
theorem flag_cleared {image : Image} {s : SharedFile σ}
    (run : Reach (SharedFile.step lib loads) (fun _ _ => True) (SharedFile.new image) s)
    (none : ∀ p ∈ s.threads, p.creates = false) : s.isSegmentBeingWritten = false := by
  have owned : s.FlagOwned := run.invariant (P := SharedFile.FlagOwned) nofun fun _ _ _ owned _ moved => owned.step moved
  cases set : s.isSegmentBeingWritten with
  | false => rfl
  | true =>
    obtain ⟨p, mem, creates⟩ := owned set
    rw [none p mem] at creates
    cases creates

/-- A call that got no region. -/
theorem flag_cleared_refused : ∃ s : ListFile,
    moves (SharedFile.step plainLibrary true) [.createEntry threeBytes, .go 0 .lock, .go 0 (.allocate none []), .go 0 .leave]
      (SharedFile.new Image.zero) = some s ∧ s.isSegmentBeingWritten = false := by
  have ran : ((moves (SharedFile.step plainLibrary true)
      [.createEntry threeBytes, .go 0 .lock, .go 0 (.allocate none []), .go 0 .leave] (SharedFile.new Image.zero : ListFile)).map
      fun s => s.threads.all fun p => !p.creates) = some true := by
    decide +kernel
  obtain ⟨s, reached, all⟩ := Option.map_eq_some_iff.1 ran
  have none : ∀ p ∈ s.threads, p.creates = false := fun p mem => by simpa using List.all_eq_true.1 all p mem
  exact ⟨s, reached, flag_cleared (Reach.refl.moves _ reached) none⟩

/-! ## Every call ends -/

/-- How many steps the calls under way still take, at most. -/
def SharedFile.work (s : SharedFile σ) : Nat := (s.threads.map Access.rank).sum

theorem Access.go_rank (moved : p.go lib loads others file live a = some (p', file', live')) : p'.rank < p.rank := by
  cases a with
  | lock =>
    simp only [Access.go] at moved
    split at moved
    · rename_i wants
      split at moved
      · cases moved
        exact (Access.takes_of_wants wants).rank
      · cases moved
    · cases moved
  | leave =>
    cases p with
    | reading | leaving => cases moved; exact Nat.zero_lt_one
    | _ => cases moved
  | allocate region nodes =>
    cases p with
    | allocating c =>
      simp only [Access.go] at moved
      split at moved <;> split at moved <;> cases moved <;> simp [Access.rank]
    | _ => cases moved
  | write count =>
    cases p with
    | writing c offset =>
      simp only [Access.go, Option.some.injEq, Prod.mk.injEq] at moved
      obtain ⟨rfl, -⟩ := moved
      split <;> simp [Access.rank]
    | _ => cases moved
  | insert thrown nodes =>
    cases p with
    | inserting c offset =>
      simp only [Access.go] at moved
      split at moved <;> cases moved
      simp [Access.rank]
    | _ => cases moved
  | remove nodes =>
    cases p with
    | removing k =>
      simp only [Access.go] at moved
      split at moved <;> cases moved
      simp [Access.rank]
    | _ => cases moved
  | free nodes =>
    cases p with
    | freeing offset length =>
      simp only [Access.go] at moved
      split at moved <;> cases moved
      simp [Access.rank]
    | _ => cases moved

/-- A step takes the work down. -/
theorem SharedFile.work_go {s s' : SharedFile σ} {i : Nat} (moved : s.step lib loads (.go i a) = some s') :
    s'.work < s.work := by
  obtain ⟨p, front, back, p', file, live, -, split, went, rfl, -⟩ := SharedFile.step_go moved
  have down := Access.go_rank went
  unfold SharedFile.work
  rw [split]
  simp only [List.map_append, List.map_cons, List.sum_append, List.sum_cons]
  omega

/-- Threads take `rwMutex` before `appendMutex`. -/
theorem Access.ascending (p : Access) : LockOrdered Access.hold Access.wait FileLock.rank p := by
  intro l waits l' holds
  cases p with
  | entering c offset =>
    cases waits
    cases l' with
    | rwMutex => exact Nat.zero_lt_one
    | appendMutex => exact absurd rfl holds
  | opening | claiming | allocated | written | deleting | removed => exact absurd (by cases l' <;> rfl) holds
  | _ => cases waits

/-- A thread that is free to go on has a step. -/
theorem Access.go_enabled (lib : CatalogLibrary) (loads : Bool) {others : List Access} (file : CatalogFile σ)
    (live : List (Nat × Nat)) (unfinished : p.finished = false)
    (free : ∀ l, p.wait = some l → ∀ q ∈ others, q.hold l = none) :
    ∃ a, (p.go lib loads others file live a).isSome := by
  have clear : ∀ regions, NodesClear regions [] := fun _ _ mem => absurd mem List.not_mem_nil
  cases waits : p.wants with
  | some wants =>
    obtain ⟨l, mode, p'⟩ := wants
    have granted : Grants Access.hold others l mode := by
      have none := free l (by rw [Access.wait, waits]; rfl)
      cases mode with
      | shared => exact fun q mem => by rw [none q mem]; nofun
      | unique => exact none
    refine ⟨.lock, ?_⟩
    simp only [Access.go, waits, if_pos granted, Option.isSome_some]
  | none =>
    cases p with
    | reading | leaving => exact ⟨.leave, rfl⟩
    | allocating c =>
      refine ⟨.allocate none [], ?_⟩
      simp only [Access.go, if_pos (clear live), Option.isSome_some]
    | writing c offset => exact ⟨.write none, rfl⟩
    | inserting c offset =>
      refine ⟨.insert none [], ?_⟩
      simp only [Access.go, if_pos (clear live), Option.isSome_some]
    | removing k =>
      refine ⟨.remove [], ?_⟩
      simp only [Access.go, if_pos (clear live), Option.isSome_some]
    | freeing offset length =>
      refine ⟨.free [], ?_⟩
      simp only [Access.go, if_pos (clear _), Option.isSome_some]
    | ended thrown => cases unfinished
    | _ => cases waits

/-- **Every call ends**: in whatever order the threads take their steps, they take no more of them
than the work there is, and while a call has not ended some thread has a step. -/
theorem calls_end (lib : CatalogLibrary) (loads : Bool) (s : SharedFile σ) :
    (∀ ms s', (∀ m ∈ ms, ∃ i a, m = .go i a) → moves (SharedFile.step lib loads) ms s = some s' →
      ms.length + s'.work ≤ s.work) ∧
    ((∃ p ∈ s.threads, p.finished = false) → ∃ i a s', s.step lib loads (.go i a) = some s') := by
  constructor
  · intro ms s' steps ran
    refine length_moves_le (P := fun _ => True) (fun t m t' _ goes moved => ⟨trivial, ?_⟩) ms trivial steps ran
    obtain ⟨i, a, rfl⟩ := goes
    exact SharedFile.work_go moved
  · rintro ⟨q, mem, unfinished⟩
    -- the threads that have ended hold nothing
    have some_thread : s.threads.filter (fun p => !p.finished) ≠ [] :=
      List.ne_nil_of_mem (List.mem_filter.2 ⟨mem, by rw [unfinished]; rfl⟩)
    obtain ⟨p, among, free⟩ := exists_free (fun p _ => Access.ascending p) some_thread
    obtain ⟨mem, going⟩ := List.mem_filter.1 among
    obtain ⟨i, here⟩ := List.mem_iff_getElem?.1 mem
    have nobody : ∀ l, p.wait = some l → ∀ q ∈ s.threads.eraseIdx i, q.hold l = none := by
      intro l waits q other
      cases ended : q.finished with
      | false => exact free l waits q (List.mem_filter.2 ⟨List.mem_of_mem_eraseIdx other, by rw [ended]; rfl⟩)
      | true =>
        cases q with
        | ended => cases l <;> rfl
        | _ => cases ended
    obtain ⟨a, enabled⟩ := Access.go_enabled lib loads s.file s.live (by simpa using going) nobody
    obtain ⟨⟨p', file, live⟩, went⟩ := Option.isSome_iff_exists.1 enabled
    refine ⟨i, a, ⟨file, live, if p.clears a then false else s.isSegmentBeingWritten, s.threads.set i p',
      (p.makes a).toList ++ s.made⟩, ?_⟩
    simp only [SharedFile.step, here, went, Option.map_some]

/-! ## A call alone -/

theorem SharedFile.go_last {rest : List Access} {flag : Bool} {made : List (WriteCall × UInt64)}
    (went : p.go lib loads rest file live a = some (p', file', live')) :
    SharedFile.step lib loads ⟨file, live, flag, rest ++ [p], made⟩ (.go rest.length a) =
      some ⟨file', live', if p.clears a then false else flag, rest ++ [p'], (p.makes a).toList ++ made⟩ := by
  have here : (rest ++ [p])[rest.length]? = some p := by simp
  have others : (rest ++ [p]).eraseIdx rest.length = rest := by
    rw [List.eraseIdx_append_of_length_le (Nat.le_refl _)]
    simp
  have set : (rest ++ [p]).set rest.length p' = rest ++ [p'] := by
    rw [List.set_append_right _ _ (Nat.le_refl _), Nat.sub_self]
    rfl
  simp only [SharedFile.step, here, others, went, Option.map_some, set]

/-- **A call of `createEntry` that no other interrupts** is the function. -/
theorem createEntry_alone (lib : CatalogLibrary) (loads : Bool) (s : SharedFile σ) (c : WriteCall) (env : EntryEnv)
    (idle : ∀ q ∈ s.threads, ∀ l, q.hold l = none)
    (region : ∀ offset, env.region = some offset → ClearOf s.live (offset.toNat, c.length)) :
    ∃ t, Reach (SharedFile.step lib loads) (fun _ _ => True) s t ∧ t.file = (s.file.createEntry lib c env).1 ∧
      t.threads = s.threads ++ [.ended (s.file.createEntry lib c env).2] ∧ t.isSegmentBeingWritten = false := by
  obtain ⟨file, live, flag, threads, made⟩ := s
  obtain ⟨handed, count, inserting⟩ := env
  have granted : ∀ l mode, Grants Access.hold threads l mode := by
    intro l mode
    cases mode with
    | shared => exact fun q mem => by rw [idle q mem l]; nofun
    | unique => exact fun q mem => idle q mem l
  have clear : ∀ regions, NodesClear regions [] := fun _ _ mem => absurd mem List.not_mem_nil
  have locked : ∀ {p p' : Access} {l mode} {file : CatalogFile σ} {live}, p.wants = some (l, mode, p') →
      p.go lib loads threads file live .lock = some (p', file, live) := by
    intro p p' l mode file live wants
    simp only [Access.go, wants, if_pos (granted l mode)]
  have begun : Reach (SharedFile.step lib loads) (fun _ _ => True) (⟨file, live, flag, threads, made⟩ : SharedFile σ)
      ⟨file, live, true, threads ++ [.allocating c], made⟩ :=
    (Reach.refl.tail (m := .createEntry c) trivial rfl).tail trivial (SharedFile.go_last (locked rfl))
  cases handed with
  | none =>
    have failed := begun.tail trivial (SharedFile.go_last (a := .allocate none []) (by
      simp only [Access.go, if_pos (clear live)]; rfl))
    exact ⟨_, failed.tail trivial (SharedFile.go_last (a := .leave) rfl), rfl, rfl, rfl⟩
  | some offset =>
    have allocated := begun.tail trivial (SharedFile.go_last (a := .allocate (some offset) []) (by
      simp only [Access.go, if_pos (And.intro (region offset rfl) (clear _))]; rfl))
    have writing := allocated.tail trivial (SharedFile.go_last (locked rfl))
    have wrote := writing.tail trivial (SharedFile.go_last (a := .write count) rfl)
    by_cases whole : count = some c.length
    · rw [if_pos whole] at wrote
      have entering := wrote.tail trivial (SharedFile.go_last (locked rfl))
      have ready := entering.tail trivial (SharedFile.go_last (locked rfl))
      have inserted := ready.tail trivial (SharedFile.go_last (a := .insert inserting []) (by
        simp only [Access.go, if_pos (clear _)]; rfl))
      refine ⟨_, inserted.tail trivial (SharedFile.go_last (a := .leave) rfl), ?_, ?_, rfl⟩
      · cases inserting <;> simp [CatalogFile.createEntry, whole, writeNodes]
      · cases inserting <;> simp [CatalogFile.createEntry, whole]
    · rw [if_neg whole] at wrote
      refine ⟨_, wrote.tail trivial (SharedFile.go_last (a := .leave) rfl), ?_, ?_, rfl⟩
      · simp [CatalogFile.createEntry, whole, writeNodes]
      · simp [CatalogFile.createEntry, whole]

end Machine

end MagelessChain
