import Pintos.Lib.Returns
import Mathlib.Tactic.Linarith

/-!
# Integers of a fixed width

Arithmetic of a machine whose signed integers must not overflow: every intermediate value is checked
to fit its type, and division truncates towards zero.
-/

namespace CheckedInt

/-- The value, if it fits a signed integer of this many bits. -/
def fit (width : Nat) (value : Int) : Option Int :=
  if -2 ^ (width - 1) ≤ value ∧ value < 2 ^ (width - 1) then some value else none

variable {total : Prop} {value low high : Int}

theorem returns_fit {width : Nat} {post : Int → Prop} (lower : -2 ^ (width - 1) ≤ value)
    (upper : value < 2 ^ (width - 1)) (holds : post value) : Returns total (fit width value) post :=
  .of_eq (if_pos ⟨lower, upper⟩) holds

theorem returns_fit32 (lower : -2147483648 ≤ value) (upper : value < 2147483648) :
    Returns total (fit 32 value) fun res => res = value :=
  returns_fit lower upper rfl

theorem returns_fit64 (lower : -9223372036854775808 ≤ value) (upper : value < 9223372036854775808) :
    Returns total (fit 64 value) fun res => res = value :=
  returns_fit lower upper rfl

/-- Truncated division by a positive number keeps a value between multiples of that number. -/
theorem tdiv_mem {divisor : Int} (pos : 0 < divisor) (lower : low * divisor ≤ value)
    (upper : value ≤ high * divisor) (nonpos : low ≤ 0) (nonneg : 0 ≤ high) :
    low ≤ value.tdiv divisor ∧ value.tdiv divisor ≤ high := by
  rcases Int.le_total 0 value with positive_value | negative_value
  · rw [Int.tdiv_eq_ediv_of_nonneg positive_value]
    refine ⟨Int.le_trans nonpos (Int.ediv_nonneg positive_value pos.le), ?_⟩
    exact Int.ediv_le_of_le_mul pos upper
  · have opposite : 0 ≤ -value := Int.neg_nonneg.mpr negative_value
    rw [← Int.neg_neg value, Int.neg_tdiv, Int.tdiv_eq_ediv_of_nonneg opposite]
    have small : -value / divisor ≤ -low := by
      refine Int.ediv_le_of_le_mul pos ?_
      rw [Int.neg_mul]
      exact Int.neg_le_neg lower
    have nonneg_quotient := Int.ediv_nonneg opposite pos.le
    exact ⟨Int.le_neg_of_le_neg small, Int.le_trans (Int.neg_nonpos_of_nonneg nonneg_quotient) nonneg⟩

end CheckedInt
