/-
# The nearest double

Rounding a quotient to a double depends on its value only. It gives back what
a double holds, is off by at most half a unit of the last place elsewhere, and
overflows from half a unit beyond the largest double on. A decimal number is
rounded as the quotient that it is, however its digits and its power are
split.

Key definitions: `Binary.magnitude`, `Binary.unitExponent`,
`Binary.mantissaAt`, `Binary.Canonical`, `Binary.bitsOf`.
Key theorems: `Binary.nearestBits_congr`, `Binary.Canonical.nearestBits_eq`,
`Binary.abs_nearest_sub_le`, `Binary.nearestBits_lt`,
`Binary.ofDecimal_eq_nearest`.
-/
import Mathlib
import NumericAnswer.Number.Binary

namespace NumericAnswer

/-! ### Rounded quotients -/

theorem roundQuotient_mul_left {k : ℕ} (hk : 0 < k) (num den : ℕ) :
    roundQuotient (k * num) (k * den) = roundQuotient num den := by
  have h₁ : 2 * (k * (num % den)) < k * den ↔ 2 * (num % den) < den := by
    rw [Nat.mul_left_comm]; exact Nat.mul_lt_mul_left hk
  have h₂ : k * den < 2 * (k * (num % den)) ↔ den < 2 * (num % den) := by
    rw [Nat.mul_left_comm]; exact Nat.mul_lt_mul_left hk
  simp only [roundQuotient, Nat.mul_div_mul_left num den hk, Nat.mul_mod_mul_left, h₁, h₂]

/-- A rounded quotient depends on the value of the quotient only. -/
theorem roundQuotient_congr {num den num' den' : ℕ} (hden : 0 < den) (hden' : 0 < den')
    (h : num * den' = num' * den) : roundQuotient num den = roundQuotient num' den' := by
  rw [← roundQuotient_mul_left hden' num den, ← roundQuotient_mul_left hden num' den',
    Nat.mul_comm den' num, h, Nat.mul_comm num' den, Nat.mul_comm den' den]

theorem abs_roundQuotient_sub_le (num : ℕ) {den : ℕ} (h : 0 < den) :
    |(roundQuotient num den : ℚ) - num / den| ≤ 1 / 2 := by
  obtain ⟨h₁, h₂⟩ := roundQuotient_within num h
  have hd : (0 : ℚ) < den := by exact_mod_cast h
  have h₁ : (2 * num : ℚ) ≤ 2 * (roundQuotient num den * den) + den := by exact_mod_cast h₁
  have h₂ : (2 * (roundQuotient num den * den) : ℚ) ≤ 2 * num + den := by exact_mod_cast h₂
  rw [abs_le]
  constructor
  · rw [neg_le_sub_iff_le_add, div_le_iff₀ hd]; linarith
  · rw [sub_le_iff_le_add, ← sub_le_iff_le_add', le_div_iff₀ hd]; linarith

namespace Binary

/-! ### Powers of two -/

theorem two_zpow_eq (e : ℤ) : (2 : ℚ) ^ e = 2 ^ e.toNat / 2 ^ (-e).toNat := by
  rcases Int.le_total 0 e with h | h
  · obtain ⟨n, rfl⟩ := Int.eq_ofNat_of_zero_le h
    simp
  · obtain ⟨n, hn⟩ := Int.eq_ofNat_of_zero_le (Int.neg_nonneg.mpr h)
    obtain rfl : e = -(n : ℤ) := by omega
    simp

theorem two_zpow_pos (e : ℤ) : (0 : ℚ) < 2 ^ e := zpow_pos two_pos e

/-- The magnitude as a rational number. -/
def magnitude (b : Binary) : ℚ := b.mantissa * 2 ^ b.exponent

theorem magnitude_eq (b : Binary) : b.magnitude = b.numerator / b.denominator := by
  simp only [magnitude, numerator, denominator, two_zpow_eq, Nat.pow_eq]
  push_cast
  ring

/-- The logarithms of the parts of a quotient give its own up to one. -/
theorem zpow_log2_sub_le {num den : ℕ} (hnum : 0 < num) (hden : 0 < den) :
    (2 : ℚ) ^ ((num.log2 : ℤ) - den.log2 - 1) ≤ num / den := by
  have hn : (2 : ℚ) ^ num.log2 ≤ num := by exact_mod_cast Nat.log2_self_le hnum.ne'
  have hd : (den : ℚ) ≤ 2 ^ (den.log2 + 1) := by exact_mod_cast Nat.lt_log2_self.le
  rw [le_div_iff₀ (by exact_mod_cast hden)]
  calc (2 : ℚ) ^ ((num.log2 : ℤ) - den.log2 - 1) * den
      ≤ 2 ^ ((num.log2 : ℤ) - den.log2 - 1) * 2 ^ (den.log2 + 1) := by gcongr
    _ = 2 ^ num.log2 := by
      rw [← zpow_natCast, ← zpow_natCast, ← zpow_add₀ two_ne_zero]
      congr 1; push_cast; omega
    _ ≤ num := hn

theorem lt_zpow_log2_sub (num : ℕ) {den : ℕ} (hden : 0 < den) :
    (num : ℚ) / den < 2 ^ ((num.log2 : ℤ) - den.log2 + 1) := by
  have hn : (num : ℚ) < 2 ^ (num.log2 + 1) := by exact_mod_cast Nat.lt_log2_self
  have hd : (2 : ℚ) ^ den.log2 ≤ den := by exact_mod_cast Nat.log2_self_le hden.ne'
  rw [div_lt_iff₀ (by exact_mod_cast hden)]
  calc (num : ℚ) < 2 ^ (num.log2 + 1) := hn
    _ = 2 ^ ((num.log2 : ℤ) - den.log2 + 1) * 2 ^ den.log2 := by
      rw [← zpow_natCast, ← zpow_natCast, ← zpow_add₀ two_ne_zero]
      congr 1; push_cast; omega
    _ ≤ 2 ^ ((num.log2 : ℤ) - den.log2 + 1) * den := by gcongr

/-- The leading exponent is a logarithm. -/
theorem leadingExponent_eq_log {num den : ℕ} (hnum : 0 < num) (hden : 0 < den) :
    leadingExponent num den = Int.log 2 ((num : ℚ) / den) := by
  have hq : (0 : ℚ) < num / den := by positivity
  have hd0 : (0 : ℚ) < den := by exact_mod_cast hden
  have hlow := zpow_log2_sub_le hnum hden
  have hhigh := lt_zpow_log2_sub num hden
  set t : ℤ := (num.log2 : ℤ) - den.log2 with ht
  have htest : den * Nat.pow 2 t.toNat ≤ num * Nat.pow 2 (-t).toNat ↔ (2 : ℚ) ^ t ≤ num / den := by
    rw [two_zpow_eq, div_le_div_iff₀ (by positivity) hd0, Nat.pow_eq, Nat.pow_eq, mul_comm den]
    norm_cast
  have hle : t - 1 ≤ Int.log 2 ((num : ℚ) / den) := (Int.zpow_le_iff_le_log one_lt_two hq).mp
    (by exact_mod_cast hlow)
  have hlt : Int.log 2 ((num : ℚ) / den) < t + 1 := (Int.lt_zpow_iff_log_lt one_lt_two hq).mp
    (by exact_mod_cast hhigh)
  have hiff : (2 : ℚ) ^ t ≤ num / den ↔ t ≤ Int.log 2 ((num : ℚ) / den) := by
    rw [← Int.zpow_le_iff_le_log one_lt_two hq]
    norm_cast
  simp only [leadingExponent]
  rw [← ht]
  split
  · next h =>
    have := hiff.mp (htest.mp h)
    omega
  · next h =>
    have := mt hiff.mpr (mt htest.mpr h)
    omega

/-- The exponent of the last binary place of the double nearest to `q`. -/
def unitExponent (q : ℚ) : ℤ :=
  max (Int.log 2 q - 52) (-1074)

/-- The mantissa that a quotient is rounded to at an exponent. -/
def mantissaAt (num den : ℕ) (exponent : ℤ) : ℕ :=
  roundQuotient (num * 2 ^ (-exponent).toNat) (den * 2 ^ exponent.toNat)

theorem nearestBits_eq {num den : ℕ} (hnum : 0 < num) (hden : 0 < den) :
    nearestBits num den = min infinityBits
      ((unitExponent (num / den) + 1074).toNat * 2 ^ 52 +
        mantissaAt num den (unitExponent (num / den))) := by
  simp only [nearestBits, if_neg hnum.ne', leadingExponent_eq_log hnum hden, unitExponent,
    mantissaAt, Nat.pow_eq]

theorem scaled_eq (num den : ℕ) (e : ℤ) :
    ((num * 2 ^ (-e).toNat : ℕ) : ℚ) / (den * 2 ^ e.toNat : ℕ) = num / den / 2 ^ e := by
  rw [two_zpow_eq]
  push_cast
  field_simp

theorem mantissaAt_congr {num den num' den' : ℕ} (hden : 0 < den) (hden' : 0 < den')
    (h : num * den' = num' * den) (e : ℤ) : mantissaAt num den e = mantissaAt num' den' e := by
  refine roundQuotient_congr (by positivity) (by positivity) ?_
  calc num * 2 ^ (-e).toNat * (den' * 2 ^ e.toNat) =
      num * den' * (2 ^ (-e).toNat * 2 ^ e.toNat) := by ring
    _ = num' * 2 ^ (-e).toNat * (den * 2 ^ e.toNat) := by rw [h]; ring

theorem abs_mantissaAt_sub_le (num : ℕ) {den : ℕ} (hden : 0 < den) (e : ℤ) :
    |(mantissaAt num den e : ℚ) - num / den / 2 ^ e| ≤ 1 / 2 := by
  rw [← scaled_eq]
  exact abs_roundQuotient_sub_le _ (by positivity)

/-- The double nearest to a quotient depends on the value of the quotient only. -/
theorem nearestBits_congr {num den num' den' : ℕ} (hden : 0 < den) (hden' : 0 < den')
    (h : num * den' = num' * den) : nearestBits num den = nearestBits num' den' := by
  rcases Nat.eq_zero_or_pos num with rfl | hnum
  · obtain rfl : num' = 0 := by
      rw [Nat.zero_mul] at h
      exact (Nat.mul_eq_zero.mp h.symm).resolve_right hden.ne'
    simp [nearestBits]
  · have hnum' : 0 < num' := by
      refine Nat.pos_of_ne_zero fun h0 => ?_
      rw [h0, Nat.zero_mul] at h
      exact absurd h (by positivity)
    have hq : (num : ℚ) / den = num' / den' := by
      rw [div_eq_div_iff (by positivity) (by positivity)]
      exact_mod_cast h
    rw [nearestBits_eq hnum hden, nearestBits_eq hnum' hden', hq,
      mantissaAt_congr hden hden' h]

/-! ### The mantissa of the nearest double -/

section Mantissa

variable {num den : ℕ}

theorem zpow_log_le (hnum : 0 < num) (hden : 0 < den) :
    (2 : ℚ) ^ Int.log 2 ((num : ℚ) / den) ≤ num / den := by
  have := Int.zpow_log_le_self (b := 2) (R := ℚ) one_lt_two (r := (num : ℚ) / den) (by positivity)
  exact_mod_cast this

theorem lt_zpow_log (q : ℚ) : q < 2 ^ (Int.log 2 q + 1) := by
  have := Int.lt_zpow_succ_log_self (b := 2) (R := ℚ) one_lt_two q
  exact_mod_cast this

/-- The quotient in units of the last place is below `2 ^ 53`. -/
theorem div_unit_lt (q : ℚ) : q / 2 ^ unitExponent q < 2 ^ (53 : ℕ) := by
  rw [div_lt_iff₀ (two_zpow_pos _), ← zpow_natCast, ← zpow_add₀ two_ne_zero]
  refine (lt_zpow_log q).trans_le (zpow_le_zpow_right₀ one_le_two ?_)
  unfold unitExponent
  push_cast
  omega

theorem mantissaAt_unit_le (num : ℕ) (hden : 0 < den) :
    mantissaAt num den (unitExponent (num / den)) ≤ 2 ^ 53 := by
  have h := (abs_le.mp (abs_mantissaAt_sub_le num hden (unitExponent (num / den)))).2
  have hlt := div_unit_lt ((num : ℚ) / den)
  have : (mantissaAt num den (unitExponent (num / den)) : ℚ) < 2 ^ (53 : ℕ) + 1 := by linarith
  have : mantissaAt num den (unitExponent (num / den)) < 2 ^ 53 + 1 := by exact_mod_cast this
  omega

theorem le_mantissaAt_unit (hnum : 0 < num) (hden : 0 < den)
    (h : unitExponent ((num : ℚ) / den) ≠ -1074) :
    2 ^ 52 ≤ mantissaAt num den (unitExponent (num / den)) := by
  have habs := (abs_le.mp (abs_mantissaAt_sub_le num hden (unitExponent (num / den)))).1
  have hlow : (2 : ℚ) ^ (52 : ℕ) ≤ num / den / 2 ^ unitExponent ((num : ℚ) / den) := by
    rw [le_div_iff₀ (two_zpow_pos _), ← zpow_natCast, ← zpow_add₀ two_ne_zero]
    refine le_trans (zpow_le_zpow_right₀ one_le_two ?_) (zpow_log_le hnum hden)
    unfold unitExponent at h ⊢
    push_cast
    omega
  have : ((2 ^ 52 : ℕ) : ℚ) < mantissaAt num den (unitExponent (num / den)) + 1 := by
    push_cast; linarith
  have : 2 ^ 52 < mantissaAt num den (unitExponent (num / den)) + 1 := by exact_mod_cast this
  omega

/-- The unit of the last place is small against the quotient, or the smallest. -/
theorem unit_le (hnum : 0 < num) (hden : 0 < den) :
    (2 : ℚ) ^ unitExponent ((num : ℚ) / den) ≤
      max ((num : ℚ) / den / 2 ^ (52 : ℕ)) ((2 : ℚ) ^ (-1074 : ℤ)) := by
  rcases le_total (Int.log 2 ((num : ℚ) / den) - 52) (-1074) with h | h
  · rw [unitExponent, max_eq_right h]
    exact le_max_right _ _
  · rw [unitExponent, max_eq_left h, zpow_sub₀ two_ne_zero]
    refine le_max_of_le_left ?_
    have := zpow_log_le hnum hden
    gcongr
    · exact le_of_eq (by norm_num)

end Mantissa

/-! ### What a double holds -/

/-- The mantissa and the exponent are those of a double: the highest digit of
the mantissa is not 0 unless the exponent is the least. -/
structure Canonical (mantissa : ℕ) (exponent : ℤ) : Prop where
  lt : mantissa < 2 ^ 53
  least : -1074 ≤ exponent
  most : exponent ≤ 971
  normal : exponent = -1074 ∨ 2 ^ 52 ≤ mantissa

/-- The bits of a magnitude. -/
def bitsOf (mantissa : ℕ) (exponent : ℤ) : ℕ :=
  (exponent + 1074).toNat * 2 ^ 52 + mantissa

theorem infinityBits_eq : infinityBits = 2047 * 2 ^ 52 := by
  simp [infinityBits]

theorem Canonical.bitsOf_lt {m : ℕ} {e : ℤ} (h : Canonical m e) : bitsOf m e < infinityBits := by
  have := h.lt
  have := h.least
  have := h.most
  rw [infinityBits_eq, bitsOf]
  omega

theorem Canonical.unitExponent_eq {m : ℕ} {e : ℤ} (h : Canonical m e) (hm : 0 < m) :
    unitExponent (m * 2 ^ e) = e := by
  have hm' : (0 : ℚ) < m := by exact_mod_cast hm
  have hq : (0 : ℚ) < m * 2 ^ e := mul_pos hm' (two_zpow_pos e)
  have hlt : Int.log 2 ((m : ℚ) * 2 ^ e) < 53 + e := by
    rw [← Int.lt_zpow_iff_log_lt one_lt_two hq, Nat.cast_ofNat, zpow_add₀ two_ne_zero]
    refine mul_lt_mul_of_pos_right ?_ (two_zpow_pos e)
    exact_mod_cast h.lt
  have hle : 2 ^ 52 ≤ m → 52 + e ≤ Int.log 2 ((m : ℚ) * 2 ^ e) := by
    intro h52
    rw [← Int.zpow_le_iff_le_log one_lt_two hq, Nat.cast_ofNat, zpow_add₀ two_ne_zero]
    refine mul_le_mul_of_nonneg_right ?_ (two_zpow_pos e).le
    exact_mod_cast h52
  unfold unitExponent
  rcases h.normal with he | h52
  · omega
  · have := h.least
    have := hle h52
    omega

/-- A double is nearest to itself. -/
theorem Canonical.nearestBits_eq {num den m : ℕ} {e : ℤ} (h : Canonical m e) (hden : 0 < den)
    (hq : (num : ℚ) / den = m * 2 ^ e) : nearestBits num den = bitsOf m e := by
  have hden' : (0 : ℚ) < den := by exact_mod_cast hden
  rcases Nat.eq_zero_or_pos m with rfl | hm
  · have hnum : num = 0 := by
      rw [Nat.cast_zero, zero_mul, div_eq_zero_iff] at hq
      exact_mod_cast hq.resolve_right hden'.ne'
    have he : e = -1074 := h.normal.resolve_right (by norm_num)
    subst hnum he
    rfl
  · have hm' : (0 : ℚ) < m := by exact_mod_cast hm
    have hnum : 0 < num := by
      refine Nat.pos_of_ne_zero fun h0 => ?_
      rw [h0, Nat.cast_zero, zero_div] at hq
      exact (mul_pos hm' (two_zpow_pos e)).ne hq
    have hunit : unitExponent ((num : ℚ) / den) = e := by rw [hq, h.unitExponent_eq hm]
    have hmant : mantissaAt num den e = m := by
      rw [mantissaAt, ← roundQuotient_mul m one_pos]
      refine roundQuotient_congr (by positivity) one_pos ?_
      have hs := scaled_eq num den e
      rw [hq, mul_div_cancel_right₀ _ (two_zpow_pos e).ne', div_eq_iff (by positivity)] at hs
      rw [Nat.mul_one, Nat.mul_one]
      exact_mod_cast hs
    rw [Binary.nearestBits_eq hnum hden, hunit, hmant, ← bitsOf]
    exact min_eq_right h.bitsOf_lt.le

/-- The magnitude that a quotient is rounded to is at most half a unit of the
last place away. -/
theorem abs_rounded_sub_le (num : ℕ) {den : ℕ} (hden : 0 < den) (e : ℤ) :
    |(mantissaAt num den e : ℚ) * 2 ^ e - num / den| ≤ 2 ^ e / 2 := by
  have h := abs_mantissaAt_sub_le num hden e
  have hpos := two_zpow_pos e
  have heq : (mantissaAt num den e : ℚ) * 2 ^ e - num / den =
      (mantissaAt num den e - num / den / 2 ^ e) * 2 ^ e := by
    rw [sub_mul, div_mul_cancel₀ _ hpos.ne']
  rw [heq, abs_mul, abs_of_pos hpos]
  calc |(mantissaAt num den e : ℚ) - num / den / 2 ^ e| * 2 ^ e ≤ 1 / 2 * 2 ^ e := by gcongr
    _ = 2 ^ e / 2 := by ring

/-- The error of rounding: relative, or of the smallest unit. -/
theorem abs_nearest_sub_le {num den : ℕ} (hnum : 0 < num) (hden : 0 < den) :
    |(mantissaAt num den (unitExponent (num / den)) : ℚ) * 2 ^ unitExponent ((num : ℚ) / den) -
        num / den| ≤
      max ((num : ℚ) / den / 2 ^ (53 : ℕ)) ((2 : ℚ) ^ (-1075 : ℤ)) := by
  refine (abs_rounded_sub_le num hden _).trans ?_
  have h := unit_le hnum hden
  rcases le_max_iff.mp h with h | h
  · refine le_max_of_le_left ?_
    calc (2 : ℚ) ^ unitExponent ((num : ℚ) / den) / 2 ≤ num / den / 2 ^ (52 : ℕ) / 2 := by gcongr
      _ = num / den / 2 ^ (53 : ℕ) := by rw [div_div _ _ (2 : ℚ), ← pow_succ]
  · refine le_max_of_le_right ?_
    calc (2 : ℚ) ^ unitExponent ((num : ℚ) / den) / 2 ≤ 2 ^ (-1074 : ℤ) / 2 := by gcongr
      _ = 2 ^ (-1075 : ℤ) := (zpow_sub_one₀ two_ne_zero (-1074)).symm

/-! ### Overflow and underflow -/

section Range

variable {num den : ℕ}

/-- From half a unit beyond the largest double on, a quotient is too large. -/
theorem nearestBits_lt (hden : 0 < den) (h : (num : ℚ) / den < (2 ^ 54 - 1) * 2 ^ (970 : ℤ)) :
    nearestBits num den < infinityBits := by
  rw [infinityBits_eq]
  rcases Nat.eq_zero_or_pos num with rfl | hnum
  · simp [nearestBits]
  · have hq : (0 : ℚ) < num / den := by positivity
    have hle := mantissaAt_unit_le num hden
    have herr := (abs_le.mp (abs_mantissaAt_sub_le num hden (unitExponent (num / den)))).2
    rw [Binary.nearestBits_eq hnum hden, infinityBits_eq]
    have hlog : Int.log 2 ((num : ℚ) / den) < 1024 := by
      rw [← Int.lt_zpow_iff_log_lt one_lt_two hq, Nat.cast_ofNat]
      calc (num : ℚ) / den < (2 ^ 54 - 1) * 2 ^ (970 : ℤ) := h
        _ < 2 ^ 54 * 2 ^ (970 : ℤ) := by
          have := two_zpow_pos 970
          gcongr
          exact sub_one_lt _
        _ = 2 ^ (1024 : ℤ) := (zpow_add₀ two_ne_zero 54 970).symm
    have hunit : unitExponent ((num : ℚ) / den) ≤ 971 := by unfold unitExponent; omega
    by_cases he : unitExponent ((num : ℚ) / den) = 971
    · have hlt : (mantissaAt num den (unitExponent (num / den)) : ℚ) < 2 ^ 53 := by
        have hscaled : (num : ℚ) / den / 2 ^ (971 : ℤ) < (2 ^ 54 - 1) / 2 := by
          rw [div_lt_iff₀ (two_zpow_pos _)]
          refine h.trans_le (le_of_eq ?_)
          rw [show (971 : ℤ) = 970 + 1 from rfl, zpow_add_one₀ two_ne_zero]
          ring
        rw [he] at herr ⊢
        linarith
      have hlt : mantissaAt num den (unitExponent (num / den)) < 2 ^ 53 := by exact_mod_cast hlt
      rw [he] at hlt ⊢
      omega
    · omega

/-- A quotient from the next power of two on is rounded to infinity. -/
theorem nearestBits_of_ge (hden : 0 < den) (h : (2 : ℚ) ^ (1024 : ℤ) ≤ num / den) :
    nearestBits num den = infinityBits := by
  have hq : (0 : ℚ) < num / den := (two_zpow_pos _).trans_le h
  have hnum : 0 < num := by
    refine Nat.pos_of_ne_zero fun h0 => hq.ne' ?_
    rw [h0, Nat.cast_zero, zero_div]
  have hlog : 1024 ≤ Int.log 2 ((num : ℚ) / den) := by
    rwa [← Int.zpow_le_iff_le_log one_lt_two hq, Nat.cast_ofNat]
  have hunit : 972 ≤ unitExponent ((num : ℚ) / den) := by unfold unitExponent; omega
  have hge := le_mantissaAt_unit hnum hden (by omega)
  rw [Binary.nearestBits_eq hnum hden, infinityBits_eq]
  omega

/-- A quotient below half of the smallest double is rounded to zero. -/
theorem nearestBits_of_lt (hden : 0 < den) (h : (num : ℚ) / den < 2 ^ (-1075 : ℤ)) :
    nearestBits num den = 0 := by
  rcases Nat.eq_zero_or_pos num with rfl | hnum
  · simp [nearestBits]
  · have hq : (0 : ℚ) < num / den := by positivity
    have hlog : Int.log 2 ((num : ℚ) / den) < -1075 := by
      rwa [← Int.lt_zpow_iff_log_lt one_lt_two hq, Nat.cast_ofNat]
    have hunit : unitExponent ((num : ℚ) / den) = -1074 := by unfold unitExponent; omega
    have herr := (abs_le.mp (abs_mantissaAt_sub_le num hden (-1074))).2
    have hscaled : (num : ℚ) / den / 2 ^ (-1074 : ℤ) < 1 / 2 := by
      rw [div_lt_iff₀ (two_zpow_pos _)]
      refine h.trans_le (le_of_eq ?_)
      rw [show (-1075 : ℤ) = -1074 - 1 from rfl, zpow_sub_one₀ two_ne_zero]
      ring
    have hlt : (mantissaAt num den (-1074) : ℚ) < 1 := by linarith
    have hlt : mantissaAt num den (-1074) < 1 := by exact_mod_cast hlt
    rw [Binary.nearestBits_eq hnum hden, hunit, Nat.lt_one_iff.mp hlt]
    simp

end Range

/-! ### Decimal numbers -/

theorem two_pow_1024_le : (2 : ℚ) ^ (1024 : ℤ) ≤ 10 ^ 400 :=
  calc (2 : ℚ) ^ (1024 : ℤ) = (2 ^ 256) ^ 4 := by rw [← pow_mul]; rfl
    _ ≤ (10 ^ 100) ^ 4 := by gcongr; norm_num
    _ = 10 ^ 400 := (pow_mul _ 100 4).symm

theorem two_pow_1076_le : (2 : ℚ) ^ (1076 : ℤ) ≤ 10 ^ 401 :=
  calc (2 : ℚ) ^ (1076 : ℤ) ≤ 2 ^ (1080 : ℤ) := zpow_le_zpow_right₀ one_le_two (by norm_num)
    _ = (2 ^ 216) ^ 5 := by rw [← pow_mul]; rfl
    _ ≤ (10 ^ 80) ^ 5 := by gcongr; norm_num
    _ = 10 ^ 400 := (pow_mul _ 80 5).symm
    _ ≤ 10 ^ 401 := pow_le_pow_right₀ (by norm_num) (Nat.le_succ 400)

theorem nearest_congr {num den num' den' : ℕ} (negative : Bool) (hden : 0 < den)
    (hden' : 0 < den') (h : num * den' = num' * den) :
    nearest negative num den = nearest negative num' den' := by
  rw [nearest, nearest, nearestBits_congr hden hden' h]

section Power

variable {c : ℕ} {e : ℤ} (hden : 0 < 10 ^ (-e).toNat)

include hden

theorem nearestBits_of_large_power (hc : c ≠ 0) (he : 400 < e) :
    nearestBits (c * 10 ^ e.toNat) (10 ^ (-e).toNat) = infinityBits := by
  have hc1 : (1 : ℚ) ≤ c := by exact_mod_cast Nat.pos_of_ne_zero hc
  have h0 : (-e).toNat = 0 := by omega
  have hle : 400 ≤ e.toNat := by omega
  refine nearestBits_of_ge hden ?_
  rw [h0, Nat.cast_mul, Nat.cast_pow, Nat.cast_pow, Nat.cast_ofNat]
  calc (2 : ℚ) ^ (1024 : ℤ) ≤ 1 * 10 ^ 400 := by rw [one_mul]; exact two_pow_1024_le
    _ ≤ c * 10 ^ e.toNat := by
      gcongr
      norm_num
    _ = c * 10 ^ e.toNat / 10 ^ 0 := by simp

theorem nearestBits_of_small_power (he : e + c.log2 < -400) :
    nearestBits (c * 10 ^ e.toNat) (10 ^ (-e).toNat) = 0 := by
  have hlt : (c : ℚ) < 2 ^ (c.log2 + 1) := by exact_mod_cast Nat.lt_log2_self
  have h0 : e.toNat = 0 := by omega
  have hle : c.log2 + 401 ≤ (-e).toNat := by omega
  refine nearestBits_of_lt hden ?_
  rw [h0, Nat.cast_mul, Nat.cast_pow, Nat.cast_pow, Nat.cast_ofNat, div_lt_iff₀ (by positivity)]
  calc (c : ℚ) * 10 ^ 0 < 2 ^ (c.log2 + 1) := by simpa using hlt
    _ = 2 * 2 ^ c.log2 := by ring
    _ ≤ 2 ^ (-1075 : ℤ) * 10 ^ 401 * 10 ^ c.log2 := by
      gcongr
      · rw [zpow_neg, ← div_eq_inv_mul, le_div_iff₀ (two_zpow_pos _),
          ← zpow_one_add₀ two_ne_zero]
        exact two_pow_1076_le
      · norm_num
    _ = 2 ^ (-1075 : ℤ) * 10 ^ (c.log2 + 401) := by
      rw [mul_assoc, ← pow_add, Nat.add_comm]
    _ ≤ 2 ^ (-1075 : ℤ) * 10 ^ (-e).toNat := by
      gcongr
      norm_num

end Power

/-- The limits on the power of ten change nothing. -/
theorem ofDecimal_eq_nearest (negative : Bool) (c : ℕ) (e : ℤ) :
    ofDecimal negative c e = nearest negative (c * 10 ^ e.toNat) (10 ^ (-e).toNat) := by
  have hden : 0 < 10 ^ (-e).toNat := by positivity
  unfold ofDecimal
  split_ifs with hc hlarge hsmall
  · rw [hc]
    exact nearest_congr negative one_pos hden (by ring)
  · rw [nearest, nearestBits_of_large_power hden hc hlarge, infinity]
  · rw [nearest, nearest, nearestBits_of_small_power hden hsmall]
    rfl
  · simp only [Nat.pow_eq]

end Binary
end NumericAnswer
