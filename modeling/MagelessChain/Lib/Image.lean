import Mathlib.Data.List.Basic
import Mathlib.Tactic.Ring

/-!
# Byte images of mapped files

The contents of a mapped file as a function from offsets to bytes, with the stores and
loads a program makes through the mapping. A range is read back by `Holds`; the frame
lemmas say which stores leave it alone. Machine words are little-endian byte strings.
-/

namespace Lib

/-- The contents of a mapped file: one byte for each offset. -/
abbrev Image := Nat → UInt8

namespace Image

/-- A file no byte of which has been written. -/
def zero : Image := fun _ => 0

/-- Store `bytes` at `[off, off + bytes.length)`. -/
def write (img : Image) (off : Nat) (bytes : List UInt8) : Image :=
  fun a => if off ≤ a then (bytes[a - off]?).getD (img a) else img a

/-- Load `n` bytes from `off`. -/
def read (img : Image) (off n : Nat) : List UInt8 :=
  (List.range n).map fun k => img (off + k)

/-- The bytes standing at `off` are exactly `bytes`. -/
def Holds (img : Image) (off : Nat) (bytes : List UInt8) : Prop :=
  img.read off bytes.length = bytes

/-- Two half-open ranges do not meet. -/
def Apart (off n off' n' : Nat) : Prop := off + n ≤ off' ∨ off' + n' ≤ off

instance (off n off' n' : Nat) : Decidable (Apart off n off' n') := inferInstanceAs (Decidable (_ ∨ _))

@[simp] theorem length_read (img : Image) (off n : Nat) : (img.read off n).length = n := by
  simp [read]

/-- A byte outside the stored range keeps its value. -/
theorem write_outside {img : Image} {off a : Nat} {bytes : List UInt8}
    (outside : a < off ∨ off + bytes.length ≤ a) : img.write off bytes a = img a := by
  unfold write
  split
  · rw [List.getElem?_eq_none (by omega)]; rfl
  · rfl

/-- A byte inside the stored range takes the stored value. -/
theorem write_inside {img : Image} {off k : Nat} {bytes : List UInt8} (hk : k < bytes.length) :
    img.write off bytes (off + k) = bytes[k] := by
  simp [write, List.getElem?_eq_getElem hk]

theorem holds_iff {img : Image} {off : Nat} {bytes : List UInt8} :
    img.Holds off bytes ↔ ∀ k (hk : k < bytes.length), img (off + k) = bytes[k] := by
  constructor
  · intro h k hk
    have := List.getElem_of_eq h (i := k) (by simpa using hk)
    simpa [read] using this
  · intro h
    apply List.ext_getElem (by simp)
    intro k _ hk
    simpa [read] using h k hk

theorem holds_nil (img : Image) (off : Nat) : img.Holds off [] := rfl

theorem Holds.read {img : Image} {off : Nat} {bytes : List UInt8} (h : img.Holds off bytes) :
    img.read off bytes.length = bytes := h

/-- A stored range is read back. -/
theorem holds_write (img : Image) (off : Nat) (bytes : List UInt8) :
    (img.write off bytes).Holds off bytes :=
  holds_iff.2 fun _ hk => write_inside hk

/-- Loads from a range no store touched. -/
theorem read_write {img : Image} {off off' n : Nat} {bytes : List UInt8}
    (apart : Apart off n off' bytes.length) : (img.write off' bytes).read off n = img.read off n := by
  unfold Image.read
  apply List.map_congr_left
  intro k hk
  have := List.mem_range.1 hk
  apply write_outside
  unfold Apart at apart
  omega

/-- A range a store does not meet still holds its bytes. -/
theorem Holds.write {img : Image} {off off' : Nat} {bytes bytes' : List UInt8}
    (h : img.Holds off bytes) (apart : Apart off bytes.length off' bytes'.length) :
    (img.write off' bytes').Holds off bytes := by
  unfold Holds
  rw [read_write apart]
  exact h

/-- Two ranges have no byte in common. An empty range has none in common with any. -/
def Clear (off n off' n' : Nat) : Prop := n = 0 ∨ n' = 0 ∨ Apart off n off' n'

instance (off n off' n' : Nat) : Decidable (Clear off n off' n') := inferInstanceAs (Decidable (_ ∨ _ ∨ _))

/-- A range still holds its bytes after a store into part of a range clear of it. -/
theorem Holds.write_clear {img : Image} {off off' n' : Nat} {bytes bytes' : List UInt8} (h : img.Holds off bytes)
    (clear : Clear off bytes.length off' n') (part : bytes'.length ≤ n') : (img.write off' bytes').Holds off bytes := by
  rw [holds_iff] at h ⊢
  intro k inside
  rw [write_outside, h k inside]
  unfold Clear Apart at clear
  omega

theorem holds_append {img : Image} {off : Nat} {xs ys : List UInt8} :
    img.Holds off (xs ++ ys) ↔ img.Holds off xs ∧ img.Holds (off + xs.length) ys := by
  simp only [holds_iff, List.length_append]
  constructor
  · intro h
    refine ⟨fun k hk => ?_, fun k hk => ?_⟩
    · rw [h k (by omega), List.getElem_append_left hk]
    · rw [Nat.add_assoc, h (xs.length + k) (by omega), List.getElem_append_right (by omega)]
      simp
  · rintro ⟨hx, hy⟩ k hk
    by_cases hlt : k < xs.length
    · rw [hx k hlt, List.getElem_append_left hlt]
    · have := hy (k - xs.length) (by omega)
      rw [show off + xs.length + (k - xs.length) = off + k by omega] at this
      rw [this, List.getElem_append_right (by omega)]

theorem holds_cons {img : Image} {off : Nat} {byte : UInt8} {bytes : List UInt8} :
    img.Holds off (byte :: bytes) ↔ img off = byte ∧ img.Holds (off + 1) bytes := by
  rw [show byte :: bytes = [byte] ++ bytes from rfl, holds_append]
  simp [Holds, Image.read]

/-- A store next to a held range extends it. -/
theorem Holds.extend {img : Image} {off : Nat} {xs : List UInt8} (h : img.Holds off xs) (ys : List UInt8) :
    (img.write (off + xs.length) ys).Holds off (xs ++ ys) :=
  holds_append.2 ⟨h.write (.inl (Nat.le_refl _)), holds_write _ _ _⟩

/-! ## Little-endian words -/

/-- The `n` low bytes of `v`, least significant first. -/
def leBytes : Nat → Nat → List UInt8
  | 0, _ => []
  | n + 1, v => UInt8.ofNat v :: leBytes n (v / 256)

/-- The number a little-endian byte string denotes. -/
def ofLe : List UInt8 → Nat
  | [] => 0
  | b :: bs => b.toNat + 256 * ofLe bs

@[simp] theorem length_leBytes (n v : Nat) : (leBytes n v).length = n := by
  induction n generalizing v with
  | zero => rfl
  | succ n ih => simp [leBytes, ih]

theorem ofLe_leBytes (n v : Nat) : ofLe (leBytes n v) = v % 256 ^ n := by
  induction n generalizing v with
  | zero => simp [leBytes, ofLe, Nat.mod_one]
  | succ n ih =>
    have low : (UInt8.ofNat v).toNat = v % 256 := by simp
    rw [leBytes, ofLe, ih, low, Nat.pow_succ', Nat.mod_mul]

/-- Load an `n`-byte word. -/
def readWord (img : Image) (off n : Nat) : Nat := ofLe (img.read off n)

/-- Store an `n`-byte word. -/
def writeWord (img : Image) (off n v : Nat) : Image := img.write off (leBytes n v)

theorem readWord_writeWord (img : Image) (off n v : Nat) :
    (img.writeWord off n v).readWord off n = v % 256 ^ n := by
  have h := holds_write img off (leBytes n v)
  unfold Holds at h
  rw [length_leBytes] at h
  rw [readWord, writeWord, h, ofLe_leBytes]

theorem readWord_write {img : Image} {off off' n : Nat} {bytes : List UInt8}
    (apart : Apart off n off' bytes.length) :
    (img.write off' bytes).readWord off n = img.readWord off n := by
  rw [readWord, read_write apart, readWord]

theorem readWord_writeWord_apart {img : Image} {off off' n n' v : Nat}
    (apart : Apart off n off' n') : (img.writeWord off' n' v).readWord off n = img.readWord off n :=
  readWord_write (by simpa using apart)

theorem Holds.writeWord {img : Image} {off off' n v : Nat} {bytes : List UInt8}
    (h : img.Holds off bytes) (apart : Apart off bytes.length off' n) :
    (img.writeWord off' n v).Holds off bytes :=
  h.write (by simpa using apart)

theorem Holds.readWord {img : Image} {off n v : Nat} (h : img.Holds off (leBytes n v)) :
    img.readWord off n = v % 256 ^ n := by
  have := h.read
  rw [length_leBytes] at this
  rw [Image.readWord, this, ofLe_leBytes]

@[simp] theorem readWord_zero (off n : Nat) : zero.readWord off n = 0 := by
  have : ∀ m, ofLe (List.replicate m 0) = 0 := by
    intro m
    induction m with
    | zero => rfl
    | succ m ih => simp [List.replicate_succ, ofLe, ih]
  rw [readWord, show zero.read off n = List.replicate n 0 by simp [Image.read, zero], this]

end Image

end Lib
