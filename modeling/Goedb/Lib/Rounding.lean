import Mathlib.Data.Int.Log
import Mathlib.Data.Rat.Floor
import Mathlib.Tactic.Linarith

/-!
# Lib — rounding to the nearest number of `p` significant bits

`roundTo p` is the rounding of binary floating-point arithmetic, ties to even, for a number that is
neither negative nor so large or small that the exponent gives out.  A natural number of at most `p` bits
is not rounded (`roundTo_natCast`), and a rounded number is not above a natural number that the number
itself is not above (`roundTo_le`).
-/

namespace Lib

/-- The nearest integer, the even one of two. -/
def roundEven (x : ℚ) : ℤ :=
  if 2 * (x - ⌊x⌋) < 1 then ⌊x⌋
  else if 1 < 2 * (x - ⌊x⌋) then ⌊x⌋ + 1
  else if ⌊x⌋ % 2 = 0 then ⌊x⌋ else ⌊x⌋ + 1

theorem roundEven_intCast (n : ℤ) : roundEven n = n := by
  rw [roundEven, Int.floor_intCast, sub_self, mul_zero, if_pos one_pos]

theorem roundEven_le {x : ℚ} {n : ℤ} (h : x ≤ n) : roundEven x ≤ n := by
  by_cases he : x = n
  · rw [he, roundEven_intCast]
  · have hlt : ⌊x⌋ < n := Int.floor_lt.mpr (lt_of_le_of_ne h he)
    rw [roundEven]
    split_ifs <;> omega

/-- The exponent of the last of `p` significant bits. -/
def lastPlace (p : ℕ) (q : ℚ) : ℤ := Int.log 2 q - (p - 1)

/-- The nearest number of `p` significant bits. -/
def roundTo (p : ℕ) (q : ℚ) : ℚ :=
  if q = 0 then 0 else roundEven (q / 2 ^ lastPlace p q) * 2 ^ lastPlace p q

variable {p n : ℕ} {q : ℚ}

theorem roundTo_zero (p : ℕ) : roundTo p 0 = 0 := if_pos rfl

/-- The last place is no fraction of a number below `2 ^ p`. -/
theorem exists_lastPlace (hq : 0 < q) (hlt : q < 2 ^ p) : ∃ k : ℕ, lastPlace p q = -k := by
  have hlog : Int.log 2 q < p := by
    rw [← Int.lt_zpow_iff_log_lt one_lt_two hq, zpow_natCast]
    exact_mod_cast hlt
  refine ⟨(-lastPlace p q).toNat, ?_⟩
  rw [lastPlace]
  omega

theorem roundTo_le (hq : 0 ≤ q) (h : q ≤ n) (hn : n < 2 ^ p) : roundTo p q ≤ n := by
  rcases hq.eq_or_lt with rfl | hpos
  · rw [roundTo_zero]
    exact h
  · have hlt : q < 2 ^ p := lt_of_le_of_lt h (by exact_mod_cast hn)
    obtain ⟨k, hk⟩ := exists_lastPlace hpos hlt
    have hscale : (0 : ℚ) < 2 ^ k := pow_pos two_pos k
    have hround : roundEven (q * 2 ^ k) ≤ (n * 2 ^ k : ℕ) := by
      refine roundEven_le ?_
      push_cast
      exact mul_le_mul_of_nonneg_right h hscale.le
    rw [roundTo, if_neg hpos.ne', hk, zpow_neg, zpow_natCast, div_inv_eq_mul, ← div_eq_mul_inv,
      div_le_iff₀ hscale]
    exact_mod_cast hround

theorem roundTo_natCast (hn : n < 2 ^ p) : roundTo p n = n := by
  rcases Nat.eq_zero_or_pos n with rfl | hpos
  · exact roundTo_zero p
  · have hq : (0 : ℚ) < n := by exact_mod_cast hpos
    obtain ⟨k, hk⟩ := exists_lastPlace (p := p) hq (by exact_mod_cast hn)
    have hscale : (2 : ℚ) ^ k ≠ 0 := pow_ne_zero k two_ne_zero
    have hint : (n : ℚ) * 2 ^ k = ((n * 2 ^ k : ℕ) : ℤ) := by
      push_cast
      rfl
    rw [roundTo, if_neg hq.ne', hk, zpow_neg, zpow_natCast, div_inv_eq_mul, hint, roundEven_intCast,
      ← hint, mul_inv_cancel_right₀ hscale]

end Lib
