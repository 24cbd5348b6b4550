/-
# Correct rounding

A number has a nearest whole number, the even one of two equally near. In units
of the last place that is kept, rounding to a number of significant digits is
rounding to a whole number, and no number of so many digits is nearer, whatever
its power of ten: what has a smaller unit is below the power of ten that the
number itself is not below.

Key definitions: `NearestEven`, `Decimal.HasPlaces`, `Decimal.RoundsTo`.
Key theorems: `Binary.nearestEven_roundEven`, `Decimal.RoundsTo.unique`,
`Decimal.roundsTo_round`.
-/
import Mathlib
import NumericAnswer.Proofs.Displayed

namespace NumericAnswer

open Binary

/-! ### Whole numbers -/

/-- No whole number is nearer to `q` than `m`; of two equally near `m` is the even
one. -/
structure NearestEven (q : ℚ) (m : ℤ) : Prop where
  close : |q - m| ≤ 1 / 2
  even : |q - m| = 1 / 2 → Even m

namespace NearestEven

variable {q : ℚ} {m n : ℤ}

/-- Different whole numbers are not both closer than half a unit. -/
theorem one_le_add (h : m ≠ n) : 1 ≤ |q - m| + |q - n| := by
  have hne : (1 : ℚ) ≤ |(n : ℚ) - m| := by
    exact_mod_cast Int.one_le_abs (sub_ne_zero.mpr h.symm)
  have htriangle := abs_sub_le (n : ℚ) q m
  rw [abs_sub_comm (n : ℚ) q] at htriangle
  linarith

theorem le (h : NearestEven q m) (n : ℤ) : |q - m| ≤ |q - n| := by
  rcases eq_or_ne m n with rfl | hne
  · exact le_rfl
  · have hsum := one_le_add (q := q) hne
    have hclose := h.close
    linarith

/-- Another whole number as near is half a unit away, and `m` is even. -/
theorem of_eq (h : NearestEven q m) (hne : m ≠ n) (heq : |q - n| = |q - m|) :
    Even m ∧ |(m : ℚ) - n| = 1 := by
  have hsum := one_le_add (q := q) hne
  have hclose := h.close
  have hhalf : |q - m| = 1 / 2 := by linarith
  refine ⟨h.even hhalf, le_antisymm ?_ ?_⟩
  · have htriangle := abs_sub_le (m : ℚ) q n
    rw [abs_sub_comm (m : ℚ) q] at htriangle
    linarith
  · exact_mod_cast Int.one_le_abs (sub_ne_zero.mpr hne)

theorem unique (hm : NearestEven q m) (hn : NearestEven q n) : m = n := by
  by_contra hne
  have heq : |q - n| = |q - m| := le_antisymm (hn.le m) (hm.le n)
  obtain ⟨heven, habs⟩ := hm.of_eq hne heq
  obtain ⟨heven', -⟩ := hn.of_eq (Ne.symm hne) heq.symm
  have hone : |m - n| = 1 := by exact_mod_cast habs
  have hsub := heven.sub heven'
  rw [Int.even_iff] at hsub
  rcases abs_eq (zero_le_one' ℤ) |>.mp hone with h | h <;> omega

/-- What is below the number is not nearer to it. -/
theorem abs_sub_le_abs_sub (h : NearestEven q m) {k : ℕ} (hk : (k : ℚ) ≤ |q|) :
    |q - m| ≤ |q| - k := by
  rcases le_total 0 q with hq | hq
  · have hle := h.le k
    rw [abs_of_nonneg hq] at hk ⊢
    rwa [Int.cast_natCast, abs_of_nonneg (a := q - k) (by linarith)] at hle
  · have hle := h.le (-k : ℤ)
    rw [abs_of_nonpos hq] at hk ⊢
    rw [Int.cast_neg, Int.cast_natCast, abs_of_nonpos (a := q - -k) (by linarith)] at hle
    linarith

theorem neg (h : NearestEven q m) : NearestEven (-q) (-m) := by
  have habs : |-q - (-m : ℤ)| = |q - m| := by
    rw [Int.cast_neg, ← abs_neg]
    congr 1
    ring
  exact ⟨habs ▸ h.close, fun hhalf => (h.even (habs ▸ hhalf)).neg⟩

end NearestEven

/-- A half is rounded to an even number. -/
theorem even_roundQuotient {num den : ℕ} (hden : 0 < den)
    (h : |(num : ℚ) / den - roundQuotient num den| = 1 / 2) : Even (roundQuotient num den) := by
  have hhalf : 2 * num = 2 * (roundQuotient num den * den) + den ∨
      2 * num + den = 2 * (roundQuotient num den * den) := by
    have hden' : (den : ℚ) ≠ 0 := by exact_mod_cast hden.ne'
    rcases (abs_eq (by norm_num)).mp h with h | h <;> field_simp at h
    · left
      exact_mod_cast (by linarith : (2 * num : ℚ) = 2 * (roundQuotient num den * den) + den)
    · right
      exact_mod_cast (by linarith : (2 * num + den : ℚ) = 2 * (roundQuotient num den * den))
  have hdiv := Nat.div_add_mod num den
  have hmod := Nat.mod_lt num hden
  rw [Nat.mul_comm] at hdiv
  rw [Nat.even_iff]
  unfold roundQuotient at hhalf ⊢
  simp only at hhalf ⊢
  split_ifs at hhalf ⊢ with hlt hgt
  · omega
  · rw [Nat.add_mul] at hhalf
    omega
  · omega

theorem nearestEven_roundQuotient (num : ℕ) {den : ℕ} (hden : 0 < den) :
    NearestEven (num / den) (roundQuotient num den) where
  close := by
    rw [abs_sub_comm, Int.cast_natCast]
    exact abs_roundQuotient_sub_le num hden
  even h := by
    rw [Int.cast_natCast] at h
    exact_mod_cast even_roundQuotient hden h

/-- The nearest whole number under a sign. -/
theorem NearestEven.signed {q : ℚ} {n : ℕ} (h : NearestEven q n) (negative : Bool) :
    NearestEven (signedRat negative q) (if negative then -(n : ℤ) else n) := by
  cases negative with
  | false => exact h
  | true => exact h.neg

theorem Binary.nearestEven_roundEven (b : Binary) : NearestEven b.toRat b.roundEven := by
  rw [toRat_eq, magnitude_eq, roundEven, withSign]
  exact (nearestEven_roundQuotient b.numerator b.denominator_pos).signed b.negative

/-! ### Significant digits -/

namespace Decimal

/-- The number has at most so many significant digits. -/
def HasPlaces (places : ℕ) (q : ℚ) : Prop :=
  ∃ c k : ℤ, |c| < 10 ^ places ∧ q = c * 10 ^ k

/-- No number of at most so many digits is nearer to `q` than `r`. Of two equally
near `r` is the even one: an even multiple of their difference, which is a unit of
the last place. -/
structure RoundsTo (places : ℕ) (q r : ℚ) : Prop where
  hasPlaces : HasPlaces places r
  le : ∀ s, HasPlaces places s → |q - r| ≤ |q - s|
  even : ∀ s, HasPlaces places s → s ≠ r → |q - s| = |q - r| → ∃ c : ℤ, Even c ∧ r = c * (r - s)

variable {places : ℕ} {q r s : ℚ}

/-- There is only one. -/
theorem RoundsTo.unique (hr : RoundsTo places q r) (hs : RoundsTo places q s) : r = s := by
  by_contra hne
  have heq : |q - s| = |q - r| := le_antisymm (hs.le r hr.hasPlaces) (hr.le s hs.hasPlaces)
  obtain ⟨c, hc, hrc⟩ := hr.even s hs.hasPlaces (Ne.symm hne) heq
  obtain ⟨c', hc', hsc⟩ := hs.even r hr.hasPlaces hne heq.symm
  have hsub : r - s ≠ 0 := sub_ne_zero.mpr hne
  have hone : ((c + c' : ℤ) : ℚ) = 1 := by
    refine mul_right_cancel₀ hsub ?_
    push_cast
    linear_combination hsc - hrc
  have hsum := hc.add hc'
  rw [Int.even_iff] at hsum
  have : c + c' = 1 := by exact_mod_cast hone
  omega

/-- In a unit a number of few digits is whole, or it is small. -/
theorem HasPlaces.cases_unit (h : HasPlaces (places + 1) r) (u : ℤ) :
    (∃ m : ℤ, r = m * 10 ^ u) ∨ |r| < 10 ^ places * 10 ^ u := by
  obtain ⟨c, k, hc, rfl⟩ := h
  rcases le_or_gt u k with hle | hlt
  · left
    obtain ⟨n, hn⟩ := Int.le.dest hle
    refine ⟨c * 10 ^ n, ?_⟩
    rw [← hn, zpow_add₀ (by norm_num), zpow_natCast]
    push_cast
    ring
  · right
    have hc' : |(c : ℚ)| < 10 ^ (places + 1) := by exact_mod_cast hc
    have hpow : (10 : ℚ) ^ (k + 1) ≤ 10 ^ u := zpow_le_zpow_right₀ (by norm_num) (by omega)
    rw [abs_mul, abs_of_pos (a := (10 : ℚ) ^ k) (by positivity)]
    calc |(c : ℚ)| * 10 ^ k < 10 ^ (places + 1) * 10 ^ k :=
          mul_lt_mul_of_pos_right hc' (by positivity)
      _ = 10 ^ places * 10 ^ (k + 1) := by
          rw [zpow_add_one₀ (by norm_num)]
          ring
      _ ≤ 10 ^ places * 10 ^ u := mul_le_mul_of_nonneg_left hpow (by positivity)

theorem hasPlaces_of_le {m : ℤ} (h : |m| ≤ 10 ^ (places + 1)) (u : ℤ) :
    HasPlaces (places + 1) (m * 10 ^ u) := by
  rcases h.lt_or_eq with hlt | heq
  · exact ⟨m, u, hlt, rfl⟩
  · -- Rounded up to a power of ten, the number has one digit.
    have hone : (1 : ℤ) < 10 ^ (places + 1) := one_lt_pow₀ (by norm_num) (Nat.succ_ne_zero _)
    rcases (abs_eq (by positivity)).mp heq with rfl | rfl
    · refine ⟨1, u + (places + 1 : ℕ), by rwa [abs_one], ?_⟩
      rw [zpow_add₀ (by norm_num), zpow_natCast]
      push_cast
      ring
    · refine ⟨-1, u + (places + 1 : ℕ), by rwa [abs_neg, abs_one], ?_⟩
      rw [zpow_add₀ (by norm_num), zpow_natCast]
      push_cast
      ring

/-- Rounding to a whole number of units, if these are units of the last place. -/
theorem roundsTo_of_nearestEven {m : ℤ} (u : ℤ) (hlow : (10 : ℚ) ^ places ≤ |q|)
    (hhigh : |q| < 10 ^ (places + 1)) (h : NearestEven q m) :
    RoundsTo (places + 1) (q * 10 ^ u) (m * 10 ^ u) := by
  have hunit : (0 : ℚ) < 10 ^ u := by positivity
  have hscale : ∀ p : ℚ, |q * 10 ^ u - p * 10 ^ u| = |q - p| * 10 ^ u := fun p => by
    rw [← sub_mul, abs_mul, abs_of_pos hunit]
  have hnear : |q - m| ≤ |q| - 10 ^ places := by
    have hle := h.abs_sub_le_abs_sub (k := 10 ^ places) (by exact_mod_cast hlow)
    exact_mod_cast hle
  -- A number below the least one with the unit is farther away than that one.
  have hsmall : ∀ s : ℚ, |s| < 10 ^ places * 10 ^ u →
      |q * 10 ^ u - m * 10 ^ u| < |q * 10 ^ u - s| := fun s hs => by
    have htriangle := abs_sub_abs_le_abs_sub (q * 10 ^ u) s
    have hmul := mul_le_mul_of_nonneg_right hnear hunit.le
    rw [abs_mul, abs_of_pos hunit] at htriangle
    rw [hscale]
    linarith
  refine ⟨hasPlaces_of_le ?_ u, fun s hs => ?_, fun s hs hne heq => ?_⟩
  · have hclose := h.close
    have htriangle := abs_sub_abs_le_abs_sub (m : ℚ) q
    rw [abs_sub_comm] at htriangle
    have hlt : (|m| : ℚ) < 10 ^ (places + 1) + 1 := by linarith
    exact Int.lt_add_one_iff.mp (by exact_mod_cast hlt)
  · rcases hs.cases_unit u with ⟨n, rfl⟩ | hs
    · rw [hscale, hscale]
      exact mul_le_mul_of_nonneg_right (h.le n) hunit.le
    · exact (hsmall s hs).le
  · rcases hs.cases_unit u with ⟨n, rfl⟩ | hs
    · rw [hscale, hscale] at heq
      have hmn : m ≠ n := fun hmn => hne (by rw [hmn])
      obtain ⟨heven, habs⟩ := h.of_eq hmn (mul_right_cancel₀ hunit.ne' heq)
      have hsquare : ((m : ℚ) - n) ^ 2 = 1 := by rw [← sq_abs, habs, one_pow]
      refine ⟨m * (m - n), heven.mul_right _, ?_⟩
      push_cast
      linear_combination (-(m : ℚ) * 10 ^ u) * hsquare
    · exact absurd heq.symm (hsmall s hs).ne

/-- A number of few digits is rounded to itself. -/
theorem roundsTo_self (h : HasPlaces places q) : RoundsTo places q q where
  hasPlaces := h
  le s _ := by
    rw [sub_self, abs_zero]
    exact abs_nonneg _
  even s _ hne heq := by
    rw [sub_self, abs_zero, abs_eq_zero, sub_eq_zero] at heq
    exact absurd heq.symm hne

theorem hasPlaces_of_length_le (d : Decimal) (h : d.digits.length ≤ places) (negative : Bool) :
    HasPlaces places (signedRat negative d.magnitude) := by
  have hlt : d.coefficient < 10 ^ places :=
    (lt_pow_length_numeral d.coefficient).trans_le (Nat.pow_le_pow_right (by norm_num) h)
  cases negative with
  | false => exact ⟨d.coefficient, d.exponent, by exact_mod_cast hlt, rfl⟩
  | true =>
    refine ⟨-d.coefficient, d.exponent, ?_, ?_⟩
    · rw [abs_neg]
      exact_mod_cast hlt
    · rw [signedRat, if_pos rfl, magnitude]
      push_cast
      ring

/-- Rounding is correct: to the nearest number of at most so many digits, half-way
cases to the even one. -/
theorem roundsTo_round (hplaces : 0 < places) (d : Decimal) :
    RoundsTo places (signedRat d.negative d.magnitude)
      (signedRat d.negative (d.round places).magnitude) := by
  obtain ⟨places, rfl⟩ := Nat.exists_eq_succ_of_ne_zero hplaces.ne'
  rcases Nat.lt_or_ge (places + 1) d.digits.length with hlt | hle
  · have hunit : (0 : ℚ) < 10 ^ d.unit (places + 1) := by positivity
    have hquotient := magnitude_eq_unit (places + 1) d
    have hround := magnitude_round (places + 1) d
    have hlow := pow_unit_le hlt hplaces
    have hhigh := magnitude_lt_pow_unit (places + 1) d
    rw [hquotient, zpow_add₀ (by norm_num), mul_comm, zpow_natCast,
      mul_le_mul_iff_left₀ hunit] at hlow
    rw [hquotient, zpow_add₀ (by norm_num), mul_comm (10 ^ _ : ℚ), zpow_natCast,
      mul_lt_mul_iff_left₀ hunit] at hhigh
    have hnearest := (nearestEven_roundQuotient d.coefficient
      (show 0 < 10 ^ (d.digits.length - (places + 1)) by positivity)).signed d.negative
    have hsigned : ∀ p : ℚ, signedRat d.negative (p * 10 ^ d.unit (places + 1)) =
        signedRat d.negative p * 10 ^ d.unit (places + 1) := fun p => by
      cases d.negative <;> simp [signedRat]
    have hcast : ∀ n : ℕ, signedRat d.negative (n : ℚ) =
        ((if d.negative then -(n : ℤ) else n : ℤ) : ℚ) := fun n => by
      cases d.negative <;> simp [signedRat]
    rw [hquotient, hround, hsigned, hsigned, hcast]
    refine roundsTo_of_nearestEven _ ?_ ?_ hnearest
    · rwa [abs_signedRat, abs_of_nonneg (by positivity)]
    · rwa [abs_signedRat, abs_of_nonneg (by positivity)]
  · rw [magnitude_round_of_le hle]
    exact roundsTo_self (hasPlaces_of_length_le d hle d.negative)

end Decimal
end NumericAnswer
