/-
# Significant digits

Rounding to a number of significant digits changes a number by at most half a
unit of the last digit kept. The largest doubles round to a number of ten
digits that is beyond them all: those above the half-way point `copyLimit`.

Key definition: `Decimal.copyLimit`.
Key theorems: `Decimal.abs_magnitude_round_sub_le`, `Decimal.magnitude_round_lt`,
`Decimal.le_magnitude_round`.
-/
import Mathlib
import NumericAnswer.Proofs.Rendering

namespace NumericAnswer

/-! ### Rounding -/

/-- What is at most half-way to the next number is rounded to no more than an
even number. -/
theorem roundQuotient_le {num den k : ℕ} (hden : 0 < den) (heven : k % 2 = 0)
    (h : 2 * num ≤ (2 * k + 1) * den) : roundQuotient num den ≤ k := by
  have hdiv := Nat.div_add_mod num den
  have hmod := Nat.mod_lt num hden
  simp only [roundQuotient]
  generalize num / den = q at *
  generalize num % den = r at *
  have hq : q ≤ k := by
    by_contra hlt
    have hmul := Nat.mul_le_mul_left den (show k + 1 ≤ q by omega)
    linarith
  rcases Nat.lt_or_eq_of_le hq with hlt | rfl
  · split_ifs <;> omega
  · have hr : 2 * r ≤ den := by linarith
    split_ifs <;> omega

theorem lt_roundQuotient {num den k : ℕ} (hden : 0 < den) (h : (2 * k + 1) * den < 2 * num) :
    k < roundQuotient num den := by
  have hdiv := Nat.div_add_mod num den
  have hmod := Nat.mod_lt num hden
  simp only [roundQuotient]
  generalize num / den = q at *
  generalize num % den = r at *
  have hq : k ≤ q := by
    by_contra hlt
    have hmul := Nat.mul_le_mul_left den (show q + 1 ≤ k by omega)
    linarith
  rcases Nat.lt_or_eq_of_le hq with hlt | rfl
  · split_ifs <;> omega
  · have hr : den < 2 * r := by linarith
    split_ifs <;> omega

namespace Decimal

/-- The exponent of the last digit that is kept. -/
def unit (places : ℕ) (d : Decimal) : ℤ :=
  d.exponent + (d.digits.length - places : ℕ)

theorem magnitude_round (places : ℕ) (d : Decimal) : (d.round places).magnitude =
    roundQuotient d.coefficient (10 ^ (d.digits.length - places)) * 10 ^ d.unit places := by
  rw [magnitude, round, unit]
  rfl

theorem magnitude_eq_unit (places : ℕ) (d : Decimal) : d.magnitude =
    (d.coefficient : ℚ) / (10 ^ (d.digits.length - places) : ℕ) * 10 ^ d.unit places := by
  rw [magnitude, unit, zpow_add₀ (by norm_num), zpow_natCast]
  push_cast
  field_simp

theorem magnitude_round_of_le {places : ℕ} {d : Decimal} (h : d.digits.length ≤ places) :
    (d.round places).magnitude = d.magnitude := by
  rw [magnitude_round, magnitude_eq_unit places, Nat.sub_eq_zero_of_le h, pow_zero]
  have hself := roundQuotient_mul d.coefficient Nat.one_pos
  rw [Nat.mul_one] at hself
  rw [hself]
  simp

/-- A number with more digits than are kept is at least the last one times a
power of ten. -/
theorem pow_unit_le {places : ℕ} {d : Decimal} (h : places < d.digits.length)
    (hplaces : 0 < places) : (10 : ℚ) ^ (d.unit places + (places - 1 : ℕ)) ≤ d.magnitude := by
  have hpos : 0 < d.coefficient := by
    by_contra h0
    have : d.digits = ['0'] := by rw [digits, Nat.eq_zero_of_not_pos h0, numeral_zero]
    rw [this, List.length_singleton] at h
    omega
  have hle : (10 : ℚ) ^ (d.digits.length - 1) ≤ d.coefficient := by
    exact_mod_cast pow_length_numeral_le hpos
  have hunit : d.unit places + (places - 1 : ℕ) = (d.digits.length - 1 : ℕ) + d.exponent := by
    rw [unit]
    omega
  rw [hunit, zpow_add₀ (by norm_num), zpow_natCast, magnitude]
  exact mul_le_mul_of_nonneg_right hle (by positivity)

theorem magnitude_lt_pow_unit (places : ℕ) (d : Decimal) :
    d.magnitude < (10 : ℚ) ^ (d.unit places + places) := by
  have hlt : (d.coefficient : ℚ) < 10 ^ d.digits.length := by
    exact_mod_cast lt_pow_length_numeral d.coefficient
  have hle : (d.digits.length : ℤ) + d.exponent ≤ d.unit places + places := by
    rw [unit]
    omega
  calc d.magnitude < 10 ^ d.digits.length * 10 ^ d.exponent :=
        mul_lt_mul_of_pos_right hlt (by positivity)
    _ = (10 : ℚ) ^ ((d.digits.length : ℤ) + d.exponent) := by
        rw [zpow_add₀ (by norm_num), zpow_natCast]
    _ ≤ _ := zpow_le_zpow_right₀ (by norm_num) hle

/-- The change is at most half a unit of the last digit kept. -/
theorem abs_magnitude_round_sub_le (places : ℕ) (d : Decimal) :
    |(d.round places).magnitude - d.magnitude| ≤ 10 ^ d.unit places / 2 := by
  have h := abs_roundQuotient_sub_le d.coefficient
    (show 0 < 10 ^ (d.digits.length - places) by positivity)
  have hpos : (0 : ℚ) < 10 ^ d.unit places := by positivity
  rw [magnitude_round, magnitude_eq_unit places, ← sub_mul, abs_mul, abs_of_pos hpos]
  calc _ ≤ 1 / 2 * (10 : ℚ) ^ d.unit places := mul_le_mul_of_nonneg_right h hpos.le
    _ = _ := by ring

/-- Relative to the number, the change is at most half a unit of the first digit
not kept. -/
theorem abs_magnitude_round_sub_le_mul {places : ℕ} (hplaces : 0 < places) (d : Decimal) :
    |(d.round places).magnitude - d.magnitude| ≤ d.magnitude / (2 * 10 ^ (places - 1)) := by
  rcases Nat.lt_or_ge places d.digits.length with hlt | hle
  · have hunit := pow_unit_le hlt hplaces
    rw [zpow_add₀ (by norm_num), zpow_natCast] at hunit
    refine (abs_magnitude_round_sub_le places d).trans ?_
    rw [div_le_div_iff₀ (by norm_num) (by positivity)]
    linarith
  · rw [magnitude_round_of_le hle, sub_self, abs_zero]
    exact div_nonneg d.magnitude_nonneg (by positivity)

/-! ### The end of the range -/

/-- Half-way between the last number of ten digits that is no larger than the
largest double and the next one. -/
def copyLimit : ℚ :=
  17976931345 * 10 ^ 298

theorem overflowLimit_eq :
    ((2 : ℚ) ^ 54 - 1) * 2 ^ (970 : ℤ) = (18014398509481983 * 2 ^ 970 : ℕ) := by
  have hmantissa : (2 : ℚ) ^ 54 - 1 = (18014398509481983 : ℕ) := by norm_num
  rw [hmantissa, Nat.cast_mul, Nat.cast_pow]
  rfl

theorem copyLimit_eq : copyLimit = (17976931345 * 10 ^ 298 : ℕ) := by
  rw [Nat.cast_mul, Nat.cast_pow]
  rfl

/-- The number in units of the tenth digit, if that has the exponent 299. -/
theorem scaled_coefficient {d : Decimal} (h : d.unit 10 = 299) : d.magnitude =
    (d.coefficient : ℚ) * 10 / (10 ^ (d.digits.length - 10) : ℕ) * 10 ^ 298 := by
  have hpow : (10 : ℚ) ^ (299 : ℤ) = 10 * 10 ^ 298 := by
    rw [← pow_succ', ← zpow_natCast]
    rfl
  rw [magnitude_eq_unit 10, h, hpow, ← mul_assoc, div_mul_eq_mul_div]

theorem unit_le {d : Decimal} (hlength : 10 < d.digits.length) (h : d.magnitude < 10 ^ 309) :
    d.unit 10 ≤ 299 := by
  have hpow := (pow_unit_le hlength (by norm_num)).trans_lt h
  rw [← zpow_natCast, zpow_lt_zpow_iff_right₀ (by norm_num)] at hpow
  push_cast at hpow
  omega

theorem copyLimit_lt : copyLimit < (2 ^ 54 - 1) * 2 ^ (970 : ℤ) := by
  rw [copyLimit_eq, overflowLimit_eq]
  exact_mod_cast (by decide +kernel : 17976931345 * 10 ^ 298 < 18014398509481983 * 2 ^ 970)

/-- A number of a smaller tenth digit is far from the end of the range. -/
theorem magnitude_round_lt_of_unit_lt {d : Decimal} (h : d.unit 10 < 299) :
    (d.round 10).magnitude < (2 ^ 54 - 1) * 2 ^ (970 : ℤ) := by
  have hmagnitude : d.magnitude < 10 ^ 308 := by
    refine (d.magnitude_lt_pow_unit 10).trans_le ?_
    rw [← zpow_natCast]
    exact zpow_le_zpow_right₀ (by norm_num) (by push_cast; omega)
  have hpow : (10 : ℚ) ^ d.unit 10 ≤ 10 ^ 308 := by
    rw [← zpow_natCast]
    exact zpow_le_zpow_right₀ (by norm_num) (by push_cast; omega)
  have hround := (abs_le.mp (abs_magnitude_round_sub_le 10 d)).2
  have hend : (2 * 10 ^ 308 : ℚ) * 3 / 4 < (18014398509481983 * 2 ^ 970 : ℕ) := by
    rw [div_lt_iff₀ (by norm_num)]
    exact_mod_cast
      (by decide +kernel : 2 * 10 ^ 308 * 3 < 18014398509481983 * 2 ^ 970 * 4)
  rw [overflowLimit_eq]
  generalize (10 : ℚ) ^ 308 = p at *
  linarith

/-- A number below the limit is rounded to no more than the last number of ten
digits. -/
theorem magnitude_round_lt_of_unit_eq {d : Decimal} (hunit : d.unit 10 = 299)
    (h : d.magnitude ≤ copyLimit) : (d.round 10).magnitude < (2 ^ 54 - 1) * 2 ^ (970 : ℤ) := by
  rw [scaled_coefficient hunit, copyLimit] at h
  have hhalf : 2 * d.coefficient ≤ (2 * 1797693134 + 1) * 10 ^ (d.digits.length - 10) := by
    have hle := le_of_mul_le_mul_right h (by positivity)
    rw [div_le_iff₀ (by positivity)] at hle
    have hle : d.coefficient * 10 ≤ 17976931345 * 10 ^ (d.digits.length - 10) := by
      exact_mod_cast hle
    omega
  have hround : (roundQuotient d.coefficient (10 ^ (d.digits.length - 10)) : ℚ) ≤ 1797693134 := by
    exact_mod_cast roundQuotient_le (by positivity) (by norm_num) hhalf
  have hend : (1797693134 : ℚ) * 10 ^ 299 < (18014398509481983 * 2 ^ 970 : ℕ) := by
    exact_mod_cast (by decide +kernel : 1797693134 * 10 ^ 299 < 18014398509481983 * 2 ^ 970)
  rw [magnitude_round, hunit, overflowLimit_eq]
  exact (mul_le_mul_of_nonneg_right hround (by positivity)).trans_lt hend

theorem magnitude_round_lt {d : Decimal} (h : d.magnitude ≤ copyLimit) :
    (d.round 10).magnitude < (2 ^ 54 - 1) * 2 ^ (970 : ℤ) := by
  have hrange : copyLimit < 10 ^ 309 := by
    have hlt : ((17976931345 * 10 ^ 298 : ℕ) : ℚ) < (10 ^ 309 : ℕ) :=
      Nat.cast_lt.mpr (by decide +kernel)
    rwa [← copyLimit_eq, Nat.cast_pow] at hlt
  rcases Nat.lt_or_ge 10 d.digits.length with hlength | hlength
  · rcases (unit_le hlength (h.trans_lt hrange)).lt_or_eq with hunit | hunit
    · exact magnitude_round_lt_of_unit_lt hunit
    · exact magnitude_round_lt_of_unit_eq hunit h
  · rw [magnitude_round_of_le hlength]
    exact h.trans_lt copyLimit_lt

theorem le_magnitude_round {d : Decimal} (hexponent : d.exponent ≤ 0)
    (h : copyLimit < d.magnitude) (hlt : d.magnitude < 10 ^ 309) :
    (2 : ℚ) ^ (1024 : ℤ) ≤ (d.round 10).magnitude := by
  have hrange : (10 : ℚ) ^ 308 < copyLimit := by
    have hlt : ((10 ^ 308 : ℕ) : ℚ) < (17976931345 * 10 ^ 298 : ℕ) :=
      Nat.cast_lt.mpr (by decide +kernel)
    rwa [← copyLimit_eq, Nat.cast_pow] at hlt
  have hunit : 299 ≤ d.unit 10 := by
    have hpow := (hrange.trans h).trans (d.magnitude_lt_pow_unit 10)
    rw [← zpow_natCast, zpow_lt_zpow_iff_right₀ (by norm_num)] at hpow
    push_cast at hpow
    omega
  have hlength : 10 < d.digits.length := by
    rw [unit] at hunit
    omega
  have hunit := le_antisymm (unit_le hlength hlt) hunit
  rw [scaled_coefficient hunit, copyLimit] at h
  have hhalf : (2 * 1797693134 + 1) * 10 ^ (d.digits.length - 10) < 2 * d.coefficient := by
    have hlt := lt_of_mul_lt_mul_right h (by positivity)
    rw [lt_div_iff₀ (by positivity)] at hlt
    have hlt : 17976931345 * 10 ^ (d.digits.length - 10) < d.coefficient * 10 := by
      exact_mod_cast hlt
    omega
  have hround : (1797693135 : ℚ) ≤ roundQuotient d.coefficient (10 ^ (d.digits.length - 10)) := by
    exact_mod_cast lt_roundQuotient (by positivity) hhalf
  have hend : (2 : ℚ) ^ 1024 ≤ 1797693135 * 10 ^ 299 := by
    exact_mod_cast (by decide +kernel : 2 ^ 1024 ≤ 1797693135 * 10 ^ 299)
  rw [magnitude_round, hunit]
  exact hend.trans (mul_le_mul_of_nonneg_right hround (by positivity))

end Decimal
end NumericAnswer
