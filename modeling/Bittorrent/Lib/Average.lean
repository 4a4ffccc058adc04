import Mathlib.Algebra.Order.Field.Rat
import Mathlib.Tactic.Linarith
import Mathlib.Tactic.Positivity

/-!
# Averages truncated to an integer

`truncate` drops the fraction of a rational number, toward zero. It never passes an integer
(`le_truncate`, `truncate_le`), so an average of two integers with rational weights that add up to one
stays within all bounds the two have in common, also when it is truncated (`average_mem`).
-/

namespace Bittorrent.Average

/-- The conversion of a rational number to an integer. -/
def truncate (q : ℚ) : ℤ := q.num.tdiv q.den

/-- The average of an old and a new value, truncated. -/
def average (weight : ℚ) (old new : ℤ) : ℤ := truncate (weight * old + (1 - weight) * new)

variable {q weight : ℚ} {z lo hi old new : ℤ}

theorem truncate_neg (q : ℚ) : truncate (-q) = -truncate q := by
  rw [truncate, truncate, Rat.num_neg_eq_neg_num, Rat.den_neg_eq_den, Int.neg_tdiv]

theorem le_truncate (h : z ≤ q) : z ≤ truncate q := by
  have hden : (0 : ℤ) < q.den := by exact_mod_cast q.pos
  have hmul : z * q.den ≤ q.num := by
    have hq : (z : ℚ) * q.den ≤ q * q.den := mul_le_mul_of_nonneg_right h (by positivity)
    rw [Rat.mul_den_eq_num] at hq
    exact_mod_cast hq
  exact Int.le_tdiv_of_mul_le hden hmul

theorem truncate_le (h : q ≤ z) : truncate q ≤ z := by
  have hneg : -z ≤ truncate (-q) := le_truncate (by push_cast; exact neg_le_neg h)
  rw [truncate_neg] at hneg
  exact Int.neg_le_neg_iff.mp hneg

theorem average_mem (h0 : 0 ≤ weight) (h1 : weight ≤ 1) (hold : lo ≤ old ∧ old ≤ hi)
    (hnew : lo ≤ new ∧ new ≤ hi) :
    lo ≤ average weight old new ∧ average weight old new ≤ hi := by
  have hold' : (lo : ℚ) ≤ old ∧ (old : ℚ) ≤ hi := by exact_mod_cast hold
  have hnew' : (lo : ℚ) ≤ new ∧ (new : ℚ) ≤ hi := by exact_mod_cast hnew
  have hrest : 0 ≤ 1 - weight := by linarith
  constructor
  · apply le_truncate
    have := mul_le_mul_of_nonneg_left hold'.1 h0
    have := mul_le_mul_of_nonneg_left hnew'.1 hrest
    linarith
  · apply truncate_le
    have := mul_le_mul_of_nonneg_left hold'.2 h0
    have := mul_le_mul_of_nonneg_left hnew'.2 hrest
    linarith

end Bittorrent.Average
