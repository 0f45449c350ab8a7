import Mathlib.Algebra.Order.Round
import Mathlib.Data.Rat.Floor
import Mathlib.Tactic.FieldSimp
import Mathlib.Tactic.Ring

/-! # Rounding by an added half

An integer division after half of the divisor was added rounds the quotient to the
nearest integer. What was rounded is put together again from its digits.
-/
namespace EzpFirmware.Lib

/-- A division after half of an even divisor was added. -/
theorem add_half_div_eq_round {half : ℕ} (hhalf : 0 < half) (a : ℕ) :
    (((a + half) / (2 * half) : ℕ) : ℤ) = round ((a : ℚ) / ((2 * half : ℕ) : ℚ)) := by
  have hne : (half : ℚ) ≠ 0 := Nat.cast_ne_zero.mpr hhalf.ne'
  have hsum : (a : ℚ) / ((2 * half : ℕ) : ℚ) + 1 / 2 =
      ((a + half : ℕ) : ℚ) / ((2 * half : ℕ) : ℚ) := by
    push_cast
    field_simp
  rw [round_eq, hsum, Rat.floor_natCast_div_natCast]
  rfl

/-- Four places of a number, of which the first one may be more than a digit. -/
theorem four_places (n : ℕ) :
    1000 * (n / 1000) + 100 * (n % 1000 / 100) + 10 * (n % 100 / 10) + n % 10 = n := by
  omega

/-- The places behind the first one are digits. -/
theorem places_le (n : ℕ) : n % 1000 / 100 ≤ 9 ∧ n % 100 / 10 ≤ 9 ∧ n % 10 ≤ 9 := by
  omega

end EzpFirmware.Lib
