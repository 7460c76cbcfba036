import MagelessChain.Lib.Image
import Mathlib.Data.List.Perm.Subperm

/-!
# Regions of a file and their owners

An allocator hands out regions of a file, and every region in use has one owner: no two owners'
regions meet, and all that are not empty are handed out. Owners come and go by giving regions up,
getting new ones and giving them back to the allocator. What a region holds stays where others write
outside the regions handed out.
-/

namespace Lib

open Image

/-- Writes outside the regions, one after the other. -/
def writeNodes (image : Image) (nodes : List (Nat × List UInt8)) : Image :=
  nodes.foldl (fun image node => image.write node.1 node.2) image

/-- A range meets none of the regions. -/
def ClearOf (regions : List (Nat × Nat)) (r : Nat × Nat) : Prop := ∀ region ∈ regions, Clear region.1 region.2 r.1 r.2

instance (regions : List (Nat × Nat)) (r : Nat × Nat) : Decidable (ClearOf regions r) :=
  inferInstanceAs (Decidable (∀ region ∈ regions, _))

/-- The nodes meet none of the regions. -/
def NodesClear (regions : List (Nat × Nat)) (nodes : List (Nat × List UInt8)) : Prop :=
  ∀ node ∈ nodes, ClearOf regions (node.1, node.2.length)

instance (regions : List (Nat × Nat)) (nodes : List (Nat × List UInt8)) : Decidable (NodesClear regions nodes) :=
  inferInstanceAs (Decidable (∀ node ∈ nodes, _))

/-- Regions with an owner each: no two meet, and the allocator has handed out all that are not empty. -/
structure Ownership (live owners : List (Nat × Nat)) : Prop where
  apart : owners.Pairwise fun r r' => Clear r.1 r.2 r'.1 r'.2
  live : ∀ r ∈ owners, r.2 = 0 ∨ r ∈ live

theorem subperm_map {α β : Type} (f : α → β) {l l' : List α} (h : l.Subperm l') : (l.map f).Subperm (l'.map f) := by
  obtain ⟨m, perm, sub⟩ := h
  exact ⟨m.map f, perm.map f, sub.map f⟩

theorem clear_symm {r r' : Nat × Nat} (h : Clear r.1 r.2 r'.1 r'.2) : Clear r'.1 r'.2 r.1 r.2 := by
  unfold Clear Apart at *
  omega

namespace Ownership

variable {live owners owners' : List (Nat × Nat)} {r : Nat × Nat}

/-- What is clear of the live regions meets no owner. -/
theorem clear (h : Ownership live owners) {x : Nat × Nat} (free : ClearOf live x) : ∀ r ∈ owners, Clear r.1 r.2 x.1 x.2 := by
  intro r mem
  obtain empty | mem := h.live r mem
  · exact .inl empty
  · exact free r mem

/-- Owners may give up regions. -/
theorem shrink (h : Ownership live owners) (fewer : owners'.Subperm owners) : Ownership live owners' := by
  constructor
  · obtain ⟨l, perm, sub⟩ := fewer
    exact (perm.pairwise_iff clear_symm).1 (h.apart.sublist sub)
  · intro r mem
    exact h.live r (fewer.subset mem)

/-- A region is handed out. -/
theorem hand_out (h : Ownership live owners) (free : ClearOf live r) : Ownership (r :: live) (r :: owners) := by
  constructor
  · exact List.pairwise_cons.2 ⟨fun x mem => clear_symm (h.clear free x mem), h.apart⟩
  · intro x mem
    obtain rfl | mem := List.mem_cons.1 mem
    · exact .inr List.mem_cons_self
    · exact (h.live x mem).imp_right (List.mem_cons_of_mem _)

/-- An empty region meets none. -/
theorem empty (h : Ownership live owners) (zero : r.2 = 0) : Ownership live (r :: owners) := by
  constructor
  · exact List.pairwise_cons.2 ⟨fun x _ => .inl zero, h.apart⟩
  · intro x mem
    obtain rfl | mem := List.mem_cons.1 mem
    · exact .inl zero
    · exact h.live x mem

/-- A region is given back by its owner: the others keep theirs. -/
theorem give_back (h : Ownership live (r :: owners)) : Ownership (live.erase r) owners := by
  obtain ⟨own, apart⟩ := List.pairwise_cons.1 h.apart
  refine ⟨apart, fun x mem => ?_⟩
  obtain empty | live := h.live x (List.mem_cons_of_mem _ mem)
  · exact .inl empty
  · by_cases same : x = r
    · left
      have clear := own x mem
      rw [same] at clear ⊢
      unfold Clear Apart at clear
      omega
    · exact .inr ((List.mem_erase_of_ne same).2 live)

end Ownership

/-- What an owned region holds stays where nodes are written. -/
theorem holds_writeNodes {live : List (Nat × Nat)} {nodes : List (Nat × List UInt8)} {r : Nat × Nat} (owned : r.2 = 0 ∨ r ∈ live)
    {bytes : List UInt8} (length : bytes.length = r.2) :
    ∀ {image : Image}, NodesClear live nodes → image.Holds r.1 bytes → (writeNodes image nodes).Holds r.1 bytes := by
  induction nodes with
  | nil => exact fun _ held => held
  | cons node rest ih =>
    intro image clear held
    have first : Clear r.1 bytes.length node.1 node.2.length := by
      rw [length]
      obtain empty | mem := owned
      · exact .inl empty
      · exact clear node List.mem_cons_self r mem
    exact ih (fun other mem => clear other (List.mem_cons_of_mem _ mem)) (held.write_clear first (Nat.le_refl _))

end Lib
