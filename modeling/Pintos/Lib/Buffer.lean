import Mathlib.Tactic.Ring
import Mathlib.Data.Nat.Bitwise

/-!
# Byte buffers

Memory from some address on, as a function of the distance.  Copies, little-endian words and tables
of words are laid out in it and read back.
-/

/-- The bytes from some address on. -/
abbrev Buffer := Nat → UInt8

namespace Buffer

open Nat

def zeros : Buffer := fun _ => 0

/-- The bytes from a later address on. -/
def drop (buffer : Buffer) (start : Nat) : Buffer := fun index => buffer (start + index)

/-! ## Copies -/

/-- `count` bytes of `source`, from `start` on, are copied to `target`. -/
def copy (buffer : Buffer) (target : Nat) (source : Buffer) (start count : Nat) : Buffer :=
  fun index =>
    if target ≤ index ∧ index < target + count then
      source (start + (index - target))
    else
      buffer index

variable {buffer source : Buffer} {target start count i : Nat}

theorem copy_inside (above : target ≤ i) (below : i < target + count) :
    buffer.copy target source start count i = source (start + (i - target)) :=
  if_pos ⟨above, below⟩

theorem copy_outside (out : i < target ∨ target + count ≤ i) :
    buffer.copy target source start count i = buffer i := by
  apply if_neg
  omega

@[simp] theorem copy_zero (buffer source : Buffer) (target start : Nat) :
    buffer.copy target source start 0 = buffer := by
  funext i
  apply copy_outside
  omega

/-- Two copies of adjacent pieces are one copy. -/
theorem copy_copy (buffer source : Buffer) (target start fst snd : Nat) :
    (buffer.copy target source start fst).copy (target + fst) source (start + fst) snd =
      buffer.copy target source start (fst + snd) := by
  funext i
  unfold copy
  split_ifs with late early whole whole
  · congr 1
    omega
  · omega
  · rfl
  · omega
  · omega
  · rfl

/-- A copy depends only on the bytes copied. -/
theorem copy_congr {o : Buffer} {origin : Nat}
    (same : ∀ i < count, source (start + i) = o (origin + i)) :
    buffer.copy target source start count = buffer.copy target o origin count := by
  funext i
  unfold copy
  split_ifs with inside
  · apply same
    omega
  · rfl

/-! ## Words -/

/-- The little-endian word of `width` bytes at `start`. -/
def word (buffer : Buffer) (start : Nat) : Nat → Nat
  | 0 => 0
  | width + 1 => (buffer start).toNat + 256 * buffer.word (start + 1) width

theorem word_congr {o : Buffer} {origin : Nat} (width : Nat)
    (same : ∀ i < width, buffer (start + i) = o (origin + i)) :
    buffer.word start width = o.word origin width := by
  induction width generalizing start origin with
  | zero => rfl
  | succ width ih =>
    have fst := same 0 (succ_pos width)
    have rest : buffer.word (start + 1) width = o.word (origin + 1) width := by
      apply ih
      intro i below
      have next := same (i + 1) (succ_lt_succ below)
      rwa [show start + (i + 1) = start + 1 + i by omega,
        show origin + (i + 1) = origin + 1 + i by omega] at next
    simp only [word, rest]
    rw [show buffer start = o origin from fst]

/-- Bytes that are the digits of a number spell it. -/
theorem word_of_digits (value : Nat) (width : Nat)
    (digits : ∀ i < width, buffer (start + i) = UInt8.ofNat (value / 256 ^ i)) :
    buffer.word start width = value % 256 ^ width := by
  induction width generalizing start value with
  | zero => simp [word, mod_one]
  | succ width ih =>
    have fst := digits 0 (succ_pos width)
    have rest : buffer.word (start + 1) width = value / 256 % 256 ^ width := by
      apply ih
      intro i below
      have next := digits (i + 1) (succ_lt_succ below)
      rw [show start + (i + 1) = start + 1 + i by omega] at next
      rw [next, Nat.div_div_eq_div_mul, ← Nat.pow_succ']
    have head : (buffer start).toNat = value % 256 := by
      rw [show buffer start = UInt8.ofNat value by simpa using fst]
      simp
    rw [word, rest, head, Nat.pow_succ', Nat.mod_mul]

theorem word_lt (buffer : Buffer) (start width : Nat) : buffer.word start width < 256 ^ width := by
  induction width generalizing start with
  | zero => simp [word]
  | succ width ih =>
    have byte := (buffer start).toNat_lt
    have rest := ih (start + 1)
    rw [word, pow_succ]
    omega

/-- `count` words of `width` bytes each, laid out from `start` on. -/
def putTable (buffer : Buffer) (start width count : Nat) (values : Nat → Nat) : Buffer :=
  fun index =>
    if start ≤ index ∧ index < start + width * count then
      UInt8.ofNat (values ((index - start) / width) / 256 ^ ((index - start) % width))
    else
      buffer index

/-- One word of `width` bytes at `start`. -/
def put (buffer : Buffer) (start width value : Nat) : Buffer :=
  buffer.putTable start width 1 fun _ => value

variable {width : Nat} {values : Nat → Nat}

theorem word_putTable (row : Nat) (below : row < count) :
    (buffer.putTable start width count values).word (start + width * row) width =
      values row % 256 ^ width := by
  apply word_of_digits
  intro i small
  have position : start + width * row + i - start = width * row + i := by omega
  have inside : width * row + i < width * count := by
    calc width * row + i < width * row + width := by omega
      _ = width * (row + 1) := by ring
      _ ≤ width * count := mul_le_mul_left width below
  have pos : 0 < width := pos_of_ne_zero (by omega)
  unfold putTable
  rw [if_pos (by omega), position, mul_add_div pos, div_eq_of_lt small,
    mul_add_mod, mod_eq_of_lt small, add_zero]

theorem putTable_outside (out : i < start ∨ start + width * count ≤ i) :
    buffer.putTable start width count values i = buffer i := by
  apply if_neg
  omega

theorem word_putTable_of_disjoint {origin size : Nat}
    (disjoint : origin + size ≤ start ∨ start + width * count ≤ origin) :
    (buffer.putTable start width count values).word origin size = buffer.word origin size := by
  apply word_congr
  intro i below
  apply putTable_outside
  omega

@[simp] theorem word_put (buffer : Buffer) (start width value : Nat) :
    (buffer.put start width value).word start width = value % 256 ^ width := by
  have row : (buffer.putTable start width 1 fun _ => value).word (start + width * 0) width =
      value % 256 ^ width := word_putTable 0 one_pos
  simpa [put] using row

theorem put_outside {value : Nat} (out : i < start ∨ start + width ≤ i) :
    buffer.put start width value i = buffer i := by
  apply putTable_outside
  omega

theorem word_put_of_disjoint {origin size value : Nat}
    (disjoint : origin + size ≤ start ∨ start + width ≤ origin) :
    (buffer.put start width value).word origin size = buffer.word origin size := by
  apply word_putTable_of_disjoint
  omega

/-! ## Bits -/

/-- Eight bits to the byte, the lowest first. -/
def ofBits (bits : Nat → Bool) : Buffer :=
  fun index => UInt8.ofNat (Nat.ofBits fun position : Fin 8 => bits (8 * index + position))

def bit (buffer : Buffer) (index : Nat) : Bool :=
  (buffer (index / 8)).toNat.testBit (index % 8)

@[simp] theorem bit_ofBits (bits : Nat → Bool) (i : Nat) : (ofBits bits).bit i = bits i := by
  have small : i % 8 < 8 := mod_lt _ (by omega)
  have byte := ofBits_lt_two_pow fun pos : Fin 8 => bits (8 * (i / 8) + pos)
  unfold bit ofBits
  rw [UInt8.toNat_ofNat', mod_eq_of_lt byte, testBit_ofBits_lt _ _ small]
  congr 1
  exact div_add_mod i 8

end Buffer
