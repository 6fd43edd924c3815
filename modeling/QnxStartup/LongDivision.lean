import Mathlib.Algebra.Order.Field.Basic
import Mathlib.Algebra.Order.Floor.Semifield
import Mathlib.Data.Rat.Floor

/-! The digits of a reciprocal in base `b`: one step multiplies the remainder by the
base and divides. -/

namespace LongDivision

variable {b d n : Nat}

theorem pow_succ_eq (b d n : Nat) : b ^ (n + 1) = b * (b ^ n % d) + d * (b * (b ^ n / d)) := by
  rw [pow_succ, mul_comm (b ^ n) b]
  conv_lhs => rw [← Nat.mod_add_div (b ^ n) d]
  rw [Nat.mul_add, Nat.mul_left_comm]

theorem pow_succ_div (hd : 0 < d) : b ^ (n + 1) / d = b * (b ^ n / d) + b * (b ^ n % d) / d := by
  rw [pow_succ_eq b d n, Nat.add_mul_div_left _ _ hd, Nat.add_comm]

theorem pow_succ_mod (b d n : Nat) : b ^ (n + 1) % d = b * (b ^ n % d) % d := by
  rw [pow_succ_eq b d n, Nat.add_mul_mod_self_left]

/-- The first digits are the reciprocal, rounded down. -/
theorem reciprocal_bounds (hb : 0 < b) (hd : 0 < d) :
    ((b ^ n / d : Nat) : ℚ) * (b : ℚ) ^ (-(n : Int)) ≤ 1 / d ∧
      (1 / d : ℚ) < ((b ^ n / d : Nat) + 1) * (b : ℚ) ^ (-(n : Int)) := by
  have hpow : (0 : ℚ) < (b : ℚ) ^ n := pow_pos (Nat.cast_pos.mpr hb) n
  have hdiv : (0 : ℚ) < d := Nat.cast_pos.mpr hd
  rw [zpow_neg, zpow_natCast, ← div_eq_mul_inv, ← div_eq_mul_inv, div_le_div_iff₀ hpow hdiv,
    div_lt_div_iff₀ hdiv hpow]
  constructor
  · rw [one_mul]
    exact_mod_cast Nat.div_mul_le_self (b ^ n) d
  · rw [one_mul, mul_comm]
    exact_mod_cast Nat.lt_mul_div_succ (b ^ n) hd

/-- Digits behind the point are cut off. -/
theorem floor_mul_zpow_neg (b x n : Nat) : ⌊(x : ℚ) * (b : ℚ) ^ (-(n : Int))⌋₊ = x / b ^ n := by
  rw [zpow_neg, zpow_natCast, ← div_eq_mul_inv, ← Nat.cast_pow, Nat.floor_div_eq_div]

theorem floor_mul_zpow (b x n : Nat) : ⌊(x : ℚ) * (b : ℚ) ^ (n : Int)⌋₊ = x * b ^ n := by
  rw [zpow_natCast, ← Nat.cast_pow, ← Nat.cast_mul, Nat.floor_natCast]

end LongDivision
