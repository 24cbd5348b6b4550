/-
# Values within the tolerance

A comparison of two doubles rounds their difference, the scale and the product
with the tolerance. The bounds here are coarse, in powers of ten: what differs
by clearly less than the default tolerance matches, whatever the rounding does.

Key theorems: `Double.Holds.abs_lt`, `Double.Holds.abs_sub`,
`numbersMatch_of_close`.
-/
import Mathlib
import NumericAnswer.Answer.Verdict
import NumericAnswer.Proofs.Arithmetic

namespace NumericAnswer

open Binary

namespace Double

variable {x y : Float} {p q : ℚ}

/-- The error of one rounding, in powers of ten. -/
theorem error_le {q : ℚ} (hq : 0 ≤ q) :
    max (q / 2 ^ (53 : ℕ)) ((2 : ℚ) ^ (-1075 : ℤ)) ≤ q / 10 ^ 15 + 1 / 10 ^ 20 := by
  have hunderflow : (2 : ℚ) ^ (-1075 : ℤ) ≤ 1 / 10 ^ 20 :=
    calc (2 : ℚ) ^ (-1075 : ℤ) ≤ 2 ^ (-67 : ℤ) := zpow_le_zpow_right₀ one_le_two (by norm_num)
      _ ≤ 1 / 10 ^ 20 := by norm_num
  have hroundoff : q / 2 ^ (53 : ℕ) ≤ q / 10 ^ 15 :=
    div_le_div_of_nonneg_left hq (by norm_num) (by norm_num)
  have hnonneg : 0 ≤ q / 10 ^ 15 := div_nonneg hq (by norm_num)
  refine max_le ?_ ?_ <;> linarith

theorem lt_overflow {d : ℚ} (h : d < 2 ^ (1023 : ℤ)) : d < (2 ^ 54 - 1) * 2 ^ (970 : ℤ) := by
  have hsplit : (2 : ℚ) ^ (1023 : ℤ) = 2 ^ 53 * 2 ^ (970 : ℤ) := by
    rw [← zpow_natCast, ← zpow_add₀ two_ne_zero]
    rfl
  rw [hsplit] at h
  refine h.trans_le (mul_le_mul_of_nonneg_right (by norm_num) (two_zpow_pos _).le)

theorem Holds.abs_lt (hx : Holds x p) : |p| < 2 ^ (1024 : ℤ) := by
  obtain ⟨b, hb, rfl⟩ := hx
  have hc := canonical_of_decode? hb
  have hlt : (b.mantissa : ℚ) < 2 ^ (53 : ℤ) := by exact_mod_cast hc.lt
  rw [abs_toRat, magnitude]
  calc (b.mantissa : ℚ) * 2 ^ b.exponent < 2 ^ (53 : ℤ) * 2 ^ b.exponent :=
        mul_lt_mul_of_pos_right hlt (two_zpow_pos _)
    _ = 2 ^ (53 + b.exponent) := (zpow_add₀ two_ne_zero _ _).symm
    _ ≤ 2 ^ (1024 : ℤ) := zpow_le_zpow_right₀ one_le_two (by have := hc.most; omega)

/-- The distance of two doubles is rounded once. -/
theorem Holds.abs_sub (hx : Holds x p) (hy : Holds y q) (h : |p - q| < 2 ^ (1023 : ℤ)) :
    ∃ r, Holds (x - y).abs r ∧ |r - (|p - q|)| ≤ |p - q| / 10 ^ 15 + 1 / 10 ^ 20 := by
  by_cases heq : p = q
  · subst heq
    refine ⟨|0|, (hx.sub_self hy).abs, ?_⟩
    norm_num
  · obtain ⟨r, hr, herror⟩ := holds_ofRat (lt_overflow h)
    rw [← hx.sub_eq hy heq] at hr
    exact ⟨|r|, hr.abs, ((abs_abs_sub_abs_le r (p - q)).trans herror).trans (error_le (abs_nonneg _))⟩

end Double

open Double

/-- The default tolerance. -/
theorem holds_tolerance : ∃ t : ℚ, Holds 1e-9 t ∧ 9 / 10 ^ 10 < t ∧ t < 1 / 2 := by
  have hbits : Binary.ofFloat? (1e-9 : Float) = some ⟨false, 4835703278458517, -82⟩ := by
    decide +kernel
  refine ⟨_, ⟨_, hbits, rfl⟩, ?_, ?_⟩ <;> rw [toRat_eq, magnitude, signedRat] <;> norm_num

theorem holds_one : Holds 1 1 := by
  have hbits : Binary.ofFloat? (1 : Float) = some ⟨false, 4503599627370496, -52⟩ := by
    decide +kernel
  refine ⟨_, hbits, ?_⟩
  rw [toRat_eq, magnitude, signedRat]
  norm_num

variable {u v : Float} {p q : ℚ}

theorem holds_scale (hv : Holds v q) : Holds (if v.abs < 1 then 1 else v.abs) (max 1 |q|) := by
  split
  · next h =>
    rw [max_eq_left ((hv.abs.lt_iff holds_one).mp h).le]
    exact holds_one
  · next h =>
    rw [max_eq_right (not_lt.mp fun hlt => h ((hv.abs.lt_iff holds_one).mpr hlt))]
    exact hv.abs

/-- What differs by clearly less than the default tolerance matches. -/
theorem numbersMatch_of_close (hu : Holds u p) (hv : Holds v q)
    (h : |p - q| ≤ max 1 |q| * (7 / 10 ^ 10)) : numbersMatch 1e-9 u v = true := by
  obtain ⟨t, ht, hlow, hhigh⟩ := holds_tolerance
  have hscale := holds_scale hv
  have hone : 1 ≤ max 1 |q| := le_max_left ..
  have hlarge : max 1 |q| < 2 ^ (1024 : ℤ) := max_lt (one_lt_zpow₀ one_lt_two (by norm_num)) hv.abs_lt
  rw [show (2 : ℚ) ^ (1024 : ℤ) = 2 ^ (1023 : ℤ) * 2 from zpow_add_one₀ two_ne_zero 1023] at hlarge
  generalize max 1 |q| = s at *
  have hnonneg : 0 ≤ t * s := mul_nonneg (by linarith) (by linarith)
  -- Half the scale is within the range, and so are the product and the distance.
  have hscaled : t * s ≤ 1 / 2 * s := mul_le_mul_of_nonneg_right hhigh.le (by linarith)
  have hproduct : |t * s| < 2 ^ (1023 : ℤ) := by
    rw [abs_of_nonneg hnonneg]
    generalize (2 : ℚ) ^ (1023 : ℤ) = limit at *
    linarith
  have hdistance : |p - q| < 2 ^ (1023 : ℤ) := by
    generalize (2 : ℚ) ^ (1023 : ℤ) = limit at *
    linarith
  obtain ⟨r₁, hr₁, herror₁⟩ := hu.abs_sub hv hdistance
  obtain ⟨r₂, hr₂, herror₂⟩ := holds_ofRat (lt_overflow hproduct)
  rw [← ht.mul_eq hscale (by linarith) (by linarith)] at hr₂
  have herror₂ := herror₂.trans (error_le (abs_nonneg _))
  rw [abs_of_nonneg hnonneg] at herror₂
  have hle₁ := (abs_le.mp herror₁).2
  have hle₂ := (abs_le.mp herror₂).1
  have htolerance : 9 / 10 ^ 10 * s ≤ t * s := mul_le_mul_of_nonneg_right hlow.le (by linarith)
  refine decide_eq_true ((hr₁.le_iff hr₂).mpr ?_)
  linarith

end NumericAnswer
