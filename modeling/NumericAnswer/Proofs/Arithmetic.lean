/-
# Arithmetic of doubles

A finite double has an exact value. A difference or a product is the double
nearest to the difference or product of the values, and doubles compare as
their values do. The double nearest to a number is off by at most one part in
`2 ^ 53` of it, or by half of the smallest double.

Key definitions: `Binary.signedRat`, `Double.Holds`.
Key theorems: `Double.Holds.sub_eq`, `Double.Holds.mul_eq`,
`Double.Holds.lt_iff`, `Double.Holds.le_iff`, `Double.Holds.beq_iff`,
`Double.holds_nearest`.
-/
import Mathlib
import NumericAnswer.Proofs.Packed

namespace NumericAnswer

open Float.Model Float.Model.UnpackedFloat

/-! ### Rounding an exact result -/

namespace Double

variable {m : ℕ} {e : ℤ}

theorem log_mul_zpow (hm : 0 < m) (e : ℤ) : Int.log 2 ((m : ℚ) * 2 ^ e) = m.log2 + e := by
  have hm' : (0 : ℚ) < m := by exact_mod_cast hm
  have hq : (0 : ℚ) < m * 2 ^ e := mul_pos hm' (Binary.two_zpow_pos e)
  have hle : (m.log2 : ℤ) + e ≤ Int.log 2 ((m : ℚ) * 2 ^ e) := by
    rw [← Int.zpow_le_iff_le_log one_lt_two hq, Nat.cast_ofNat, zpow_add₀ two_ne_zero,
      zpow_natCast]
    refine mul_le_mul_of_nonneg_right ?_ (Binary.two_zpow_pos e).le
    exact_mod_cast Nat.log2_self_le hm.ne'
  have hlt : Int.log 2 ((m : ℚ) * 2 ^ e) < ((m.log2 + 1 : ℕ) : ℤ) + e := by
    rw [← Int.lt_zpow_iff_log_lt one_lt_two hq, Nat.cast_ofNat, zpow_add₀ two_ne_zero,
      zpow_natCast]
    refine mul_lt_mul_of_pos_right ?_ (Binary.two_zpow_pos e)
    exact_mod_cast Nat.lt_log2_self
  push_cast at hlt
  omega

/-- The exponent that a result is rounded at is that of the last place. -/
theorem targetExponent_eq (hm : 0 < m) (e : ℤ) :
    Format.binary64.targetExponent (totalExponent m e) = Binary.unitExponent (m * 2 ^ e) := by
  have hleast : Format.binary64.minExponent = -1074 := rfl
  have hbits : (Format.binary64.mantissaBits : ℤ) = 53 := rfl
  rw [Format.targetExponent, totalExponent, hleast, hbits, Binary.unitExponent, log_mul_zpow hm]
  congr 1
  omega

theorem targetExponent_le {r : ℕ} {t : ℤ} (hr : r < 2 ^ 53) (ht : -1074 ≤ t) :
    Format.binary64.targetExponent (totalExponent r t) ≤ t := by
  have hleast : Format.binary64.minExponent = -1074 := rfl
  have hbits : (Format.binary64.mantissaBits : ℤ) = 53 := rfl
  have hlog : r.log2 < 53 := by
    rcases Nat.eq_zero_or_pos r with rfl | hpos
    · decide
    · exact (Nat.log2_lt hpos.ne').mpr hr
  rw [Format.targetExponent, totalExponent, hleast, hbits]
  omega

theorem shiftToExponent_of_le {r : ℕ} {t t' : ℤ} (h : t' ≤ t) :
    shiftToExponent r t .exact t' = (⟨r, false, false⟩, t) := by
  have hz : (t' - t).toNat = 0 := by omega
  simp only [shiftToExponent, hz, Nat.cast_zero, add_zero]
  rfl

theorem unitExponent_least (q : ℚ) : -1074 ≤ Binary.unitExponent q :=
  le_max_right _ _

/-- The rounded mantissa, which may have one digit too many. -/
theorem roundedMantissa_eq {num den : ℕ} (hm : 0 < m) (hden : 0 < den)
    (hq : (num : ℚ) / den = m * 2 ^ e) (hle : e ≤ Binary.unitExponent (m * 2 ^ e)) :
    shiftToTargetExponent Format.binary64 m e .exact =
      (ExtendedMantissa.ofMantissaAndAccuracy m .exact >>>
        (Binary.unitExponent (m * 2 ^ e) - e).toNat, Binary.unitExponent (m * 2 ^ e)) ∧
    (ExtendedMantissa.ofMantissaAndAccuracy m .exact >>>
        (Binary.unitExponent (m * 2 ^ e) - e).toNat).roundedMantissa =
      Binary.mantissaAt num den (Binary.unitExponent (m * 2 ^ e)) := by
  set t := Binary.unitExponent (m * 2 ^ e) with ht
  constructor
  · rw [shiftToTargetExponent, targetExponent_eq hm, ← ht, shiftToExponent]
    congr 1
    omega
  · rw [roundedMantissa_shift, Binary.mantissaAt]
    refine roundQuotient_congr (by positivity) (by positivity) ?_
    have hs := Binary.scaled_eq num den t
    have hden' : ((den * 2 ^ t.toNat : ℕ) : ℚ) ≠ 0 := by positivity
    have hshift : (2 : ℚ) ^ t = 2 ^ e * 2 ^ (t - e).toNat := by
      rw [← zpow_natCast, ← zpow_add₀ two_ne_zero]
      congr 1
      omega
    rw [hq, hshift, div_eq_div_iff hden' (by positivity)] at hs
    have he := (Binary.two_zpow_pos e).ne'
    have key : (m : ℚ) * (den * 2 ^ t.toNat : ℕ) = (num * 2 ^ (-t).toNat : ℕ) * 2 ^ (t - e).toNat := by
      refine mul_left_cancel₀ he ?_
      linear_combination -hs
    exact_mod_cast key

/-- A rounded mantissa, which may have a digit too many, made to fit. -/
def carried (spec : Format) (s : Sign) (r : ℕ) (t : ℤ) : UnpackedFloat :=
  let final := shiftToTargetExponent spec r t .exact
  if h : final.1.mantissa = 0 then .zero s
  else .finite s final.1.mantissa final.2 (Nat.pos_of_ne_zero h)

theorem roundWithAccuracy_eq_carried (spec : Format) (s : Sign) (m : ℕ) (e : ℤ) (a : Accuracy) :
    roundWithAccuracy spec s m e a =
      carried spec s (shiftToTargetExponent spec m e a).1.roundedMantissa
        (shiftToTargetExponent spec m e a).2 := rfl

/-- The digit too many is carried into the exponent, as it is in the bits. -/
theorem toNat_pack_carried (s : Sign) {r : ℕ} {t : ℤ} (hr : r ≤ 2 ^ 53) (hleast : -1074 ≤ t)
    (hnormal : t ≠ -1074 → 2 ^ 52 ≤ r) :
    (UnpackedFloat.pack Format.binary64 (carried Format.binary64 s r t)).toNat =
      s.toBitVec.toNat * 2 ^ 63 + min (2047 * 2 ^ 52) ((t + 1074).toNat * 2 ^ 52 + r) := by
  rcases Nat.lt_or_eq_of_le hr with hlt | rfl
  · have hfinal : shiftToTargetExponent Format.binary64 r t .exact = (⟨r, false, false⟩, t) :=
      shiftToExponent_of_le (targetExponent_le hlt hleast)
    simp only [carried, hfinal]
    split
    · next h0 =>
      have ht : t = -1074 := by
        by_contra hne
        have := hnormal hne
        omega
      rw [UnpackedFloat.pack, packedZero, toNat_packComponents,
        show (0 : BitVec 11).toNat = 0 from rfl, show (0 : BitVec 52).toNat = 0 from rfl, h0, ht]
      simp
    · next h0 =>
      refine Binary.toNat_pack_finite s _ hlt hleast ?_
      by_cases ht : t = -1074
      · exact .inl ht
      · exact .inr (hnormal ht)
  · have htarget : Format.binary64.targetExponent (totalExponent (2 ^ 53) t) = t + 1 := by
      have hmin : Format.binary64.minExponent = -1074 := rfl
      have hb : (Format.binary64.mantissaBits : ℤ) = 53 := rfl
      rw [Format.targetExponent, totalExponent, hmin, hb, Nat.log2_two_pow]
      push_cast
      omega
    have hfinal : shiftToTargetExponent Format.binary64 (2 ^ 53) t .exact =
        (⟨2 ^ 52, false, false⟩, t + 1) := by
      have hone : (t + 1 - t).toNat = 1 := by omega
      rw [shiftToTargetExponent, htarget, shiftToExponent, hone]
      rfl
    simp only [carried, hfinal]
    rw [dif_neg (by norm_num), Binary.toNat_pack_finite s (by norm_num) (by norm_num)
      (by omega) (.inr le_rfl), Binary.bitsOf]
    omega

/-- An exact result is packed into the bits nearest to it. -/
theorem toNat_pack_roundWithAccuracy {num den : ℕ} (s : Sign) (hm : 0 < m) (hden : 0 < den)
    (hq : (num : ℚ) / den = m * 2 ^ e) (hle : e ≤ Binary.unitExponent (m * 2 ^ e)) :
    (UnpackedFloat.pack Format.binary64
      (roundWithAccuracy Format.binary64 s m e .exact)).toNat =
        s.toBitVec.toNat * 2 ^ 63 + Binary.nearestBits num den := by
  obtain ⟨hshift, hround⟩ := roundedMantissa_eq hm hden hq hle
  have hnum : 0 < num := by
    refine Nat.pos_of_ne_zero fun h0 => ?_
    have hm' : (0 : ℚ) < m := by exact_mod_cast hm
    rw [h0, Nat.cast_zero, zero_div] at hq
    exact (mul_pos hm' (Binary.two_zpow_pos e)).ne hq
  have hr := Binary.mantissaAt_unit_le num hden
  have hnormal := Binary.le_mantissaAt_unit hnum hden
  rw [hq] at hr hnormal
  rw [Binary.nearestBits_eq hnum hden, hq, Binary.infinityBits_eq, roundWithAccuracy_eq_carried,
    hshift, hround]
  exact toNat_pack_carried s hr (unitExponent_least _) hnormal

theorem toNat_pack_normalize {num den : ℕ} {i : ℤ} (hi : i ≠ 0) (hden : 0 < den)
    (hq : (num : ℚ) / den = i.natAbs * 2 ^ e) :
    (UnpackedFloat.pack Format.binary64
      (UnpackedFloat.normalize Format.binary64 i e .positive)).toNat =
        (decide (i < 0)).toNat * 2 ^ 63 + Binary.nearestBits num den := by
  have hround : ∀ (s : Sign) {n : ℕ}, 0 < n → (num : ℚ) / den = n * 2 ^ e →
      (UnpackedFloat.pack Format.binary64 (UnpackedFloat.round Format.binary64 s n e)).toNat =
        s.toBitVec.toNat * 2 ^ 63 + Binary.nearestBits num den := by
    intro s n hn hq
    set k := (e - Binary.unitExponent (n * 2 ^ e)).toNat with hk
    have hvalue : (num : ℚ) / den = (n * 2 ^ k : ℕ) * 2 ^ (e - k) := by
      rw [hq, zpow_sub₀ two_ne_zero, zpow_natCast]
      push_cast
      field_simp
    have hunit : Binary.unitExponent ((n * 2 ^ k : ℕ) * 2 ^ (e - k)) =
        Binary.unitExponent (n * 2 ^ e) := by rw [← hvalue, hq]
    rw [UnpackedFloat.round, targetExponent_eq hn, decreaseExponent, ← hk, Nat.shiftLeft_eq]
    refine toNat_pack_roundWithAccuracy s (by positivity) hden hvalue ?_
    rw [hunit]
    omega
  unfold UnpackedFloat.normalize
  rcases lt_trichotomy i 0 with hneg | h0 | hpos
  · rw [show compare i 0 = .lt from compare_lt_iff_lt.mpr hneg]
    have hn : (-i).toNat = i.natAbs := by omega
    simp only [hn]
    rw [hround .negative (by omega) hq, decide_eq_true hneg]
    rfl
  · exact absurd h0 hi
  · rw [show compare i 0 = .gt from compare_gt_iff_gt.mpr hpos]
    have hn : i.toNat = i.natAbs := by omega
    simp only [hn]
    rw [hround .positive (by omega) hq, decide_eq_false (by omega)]
    rfl

/-! ### Exact values -/

/-- The number is finite and has this exact value. -/
def Holds (x : Float) (q : ℚ) : Prop :=
  ∃ b, Binary.ofFloat? x = some b ∧ b.toRat = q

end Double

namespace Binary

/-- A magnitude under a sign. -/
def signedRat (negative : Bool) (q : ℚ) : ℚ :=
  if negative then -q else q

theorem toRat_eq (b : Binary) : b.toRat = signedRat b.negative b.magnitude := by
  rw [toRat, Rat.mkRat_eq_div, magnitude_eq, withSign, signedRat]
  split <;> push_cast <;> ring

theorem magnitude_nonneg (b : Binary) : 0 ≤ b.magnitude :=
  mul_nonneg (Nat.cast_nonneg _) (two_zpow_pos _).le

theorem abs_signedRat (negative : Bool) (q : ℚ) : |signedRat negative q| = |q| := by
  cases negative <;> simp [signedRat]

theorem signedRat_sub (negative : Bool) (p q : ℚ) :
    signedRat negative p - signedRat negative q = signedRat negative (p - q) := by
  cases negative
  · rfl
  · simp only [signedRat, if_pos]
    ring

theorem signedRat_natAbs (n : ℤ) : signedRat (decide (n < 0)) n.natAbs = n := by
  rw [signedRat, Nat.cast_natAbs, Int.cast_abs]
  by_cases hneg : n < 0
  · rw [decide_eq_true hneg, if_pos rfl, abs_of_neg (by exact_mod_cast hneg), neg_neg]
  · rw [decide_eq_false hneg, if_neg Bool.false_ne_true,
      abs_of_nonneg (by exact_mod_cast not_lt.mp hneg)]

theorem abs_toRat (b : Binary) : |b.toRat| = b.magnitude := by
  rw [toRat_eq, abs_signedRat, abs_of_nonneg b.magnitude_nonneg]

theorem apply_signOf (negative : Bool) (n : ℕ) (q : ℚ) :
    ((Double.signOf negative).apply n : ℚ) * q = signedRat negative (n * q) := by
  cases negative <;> simp [Double.signOf, Sign.apply, signedRat]

end Binary

namespace Double

open Binary

variable {x y : Float} {p q : ℚ}

theorem holds_of_ofFloat? {b : Binary} (h : ofFloat? x = some b) : Holds x b.toRat :=
  ⟨b, h, rfl⟩

theorem Holds.unique (hp : Holds x p) (hq : Holds x q) : p = q := by
  obtain ⟨b, hb, rfl⟩ := hp
  obtain ⟨c, hc, rfl⟩ := hq
  rw [Option.some.inj (hb.symm.trans hc)]

theorem unpack_of_ofFloat? {b : Binary} (h : ofFloat? x = some b) : x.toModel.unpack = b.unpacked :=
  unpack_of_decode? h

theorem toNat_toBits_pack (u : UnpackedFloat) :
    (Float.ofModel (Float.Model.pack u)).toBits.toNat =
      (UnpackedFloat.pack Format.binary64 u).toNat := rfl

/-- A double with the bits nearest to a number is the one nearest to it. -/
theorem eq_ofRat {z : Float} {d : ℚ}
    (h : z.toBits.toNat = (decide (d < 0)).toNat * 2 ^ 63 + nearestBits d.num.natAbs d.den) :
    z = ofRat d := by
  refine eq_of_toBits ?_
  rw [h, ofRat, nearest, toBits_signed _ (nearestBits_le _ _), Nat.add_comm]
  simp only [Rat.num_neg]

theorem natAbs_div_den (d : ℚ) : (d.num.natAbs : ℚ) / d.den = |d| := by
  rw [Nat.cast_natAbs, Int.cast_abs, ← Nat.abs_cast d.den, ← abs_div, Rat.num_div_den]

/-- A difference of magnitudes under signs, at the smaller exponent. -/
theorem sub_finite (negative₁ negative₂ : Bool) {m₁ m₂ : ℕ} (e₁ e₂ : ℤ) (h₁ : 0 < m₁)
    (h₂ : 0 < m₂) : ∃ i : ℤ,
      UnpackedFloat.sub Format.binary64 (.finite (signOf negative₁) m₁ e₁ h₁)
        (.finite (signOf negative₂) m₂ e₂ h₂) =
          UnpackedFloat.normalize Format.binary64 i (min e₁ e₂) .positive ∧
      signedRat negative₁ (m₁ * 2 ^ e₁) - signedRat negative₂ (m₂ * 2 ^ e₂) =
        i * 2 ^ min e₁ e₂ := by
  refine ⟨_, rfl, ?_⟩
  have hshift : ∀ (negative : Bool) (m : ℕ) (e : ℤ), min e₁ e₂ ≤ e →
      signedRat negative (m * 2 ^ e) =
        (signOf negative).apply ((m <<< (e - min e₁ e₂).toNat : ℕ)) * 2 ^ min e₁ e₂ := by
    intro negative m e hle
    have hpow : (2 : ℚ) ^ e = 2 ^ (e - min e₁ e₂).toNat * 2 ^ min e₁ e₂ := by
      rw [← zpow_natCast, ← zpow_add₀ two_ne_zero]
      congr 1
      omega
    rw [apply_signOf, Nat.shiftLeft_eq, hpow]
    push_cast
    ring_nf
  rw [hshift negative₁ m₁ e₁ (min_le_left _ _), hshift negative₂ m₂ e₂ (min_le_right _ _), ← sub_mul]
  push_cast
  rfl

theorem neg_signOf (negative : Bool) : -signOf negative = signOf (!negative) := by
  cases negative <;> rfl

theorem unpacked_pos {b : Binary} (h : 0 < b.mantissa) :
    b.unpacked = .finite (signOf b.negative) b.mantissa b.exponent h := dif_pos h

theorem unpacked_zero {b : Binary} (h : b.mantissa = 0) :
    b.unpacked = .zero (signOf b.negative) := dif_neg (by omega)

theorem toRat_zero {b : Binary} (h : b.mantissa = 0) : b.toRat = 0 := by
  rw [toRat_eq, magnitude, h]
  cases b.negative <;> simp [signedRat]

theorem magnitude_pos {b : Binary} (h : 0 < b.mantissa) : 0 < b.magnitude :=
  mul_pos (by exact_mod_cast h) (two_zpow_pos _)

theorem mantissa_pos_of_magnitude_pos {b : Binary} (h : 0 < b.magnitude) : 0 < b.mantissa := by
  refine Nat.pos_of_ne_zero fun h0 => h.ne' ?_
  rw [magnitude, h0, Nat.cast_zero, zero_mul]

/-- Of numbers of the same value both are zero, or none. -/
theorem mantissa_pos_iff_of_toRat_eq {b c : Binary} (h : b.toRat = c.toRat) :
    0 < b.mantissa ↔ 0 < c.mantissa := by
  have habs : b.magnitude = c.magnitude := by rw [← abs_toRat, ← abs_toRat, h]
  exact ⟨fun hb => mantissa_pos_of_magnitude_pos (habs ▸ magnitude_pos hb),
    fun hc => mantissa_pos_of_magnitude_pos (habs ▸ magnitude_pos hc)⟩

theorem signedRat_neg_iff {negative : Bool} {r : ℚ} (h : 0 < r) :
    signedRat negative r < 0 ↔ negative = true := by
  cases negative
  · simp [signedRat, h.le]
  · simp [signedRat, h]

theorem toNat_signOf_of_pos {negative : Bool} {d r : ℚ} (hr : 0 < r) (hd : d = signedRat negative r) :
    (signOf negative).toBitVec.toNat = (decide (d < 0)).toNat := by
  rw [toNat_signOf, hd]
  congr 1
  rw [Bool.eq_iff_iff, decide_eq_true_iff, signedRat_neg_iff hr]

/-- A double that is not 0 has the bits nearest to its value. -/
theorem toNat_pack_of_canonical {negative : Bool} {m : ℕ} {e : ℤ} {d : ℚ} (hm : 0 < m)
    (hc : Canonical m e) (hd : d = signedRat negative (m * 2 ^ e)) :
    (UnpackedFloat.pack Format.binary64 (.finite (signOf negative) m e hm)).toNat =
      (decide (d < 0)).toNat * 2 ^ 63 + nearestBits d.num.natAbs d.den := by
  have hpos : (0 : ℚ) < m * 2 ^ e := mul_pos (by exact_mod_cast hm) (two_zpow_pos e)
  have habs : |d| = m * 2 ^ e := by rw [hd, abs_signedRat, abs_of_pos hpos]
  rw [toNat_pack_finite _ hm hc.lt hc.least hc.normal, toNat_signOf_of_pos hpos hd,
    hc.nearestBits_eq d.den_pos ((natAbs_div_den d).trans habs),
    min_eq_right (bitsOf_lt_of_le hc.lt hc.most).le]

/-- A difference of numbers that are not 0 has the bits nearest to it. -/
theorem toNat_pack_sub {b c : Binary} (hb : 0 < b.mantissa) (hc : 0 < c.mantissa)
    (h : b.toRat ≠ c.toRat) :
    (UnpackedFloat.pack Format.binary64
      (UnpackedFloat.sub Format.binary64 b.unpacked c.unpacked)).toNat =
        (decide (b.toRat - c.toRat < 0)).toNat * 2 ^ 63 +
          nearestBits (b.toRat - c.toRat).num.natAbs (b.toRat - c.toRat).den := by
  obtain ⟨i, hsub, hi⟩ := sub_finite b.negative c.negative b.exponent c.exponent hb hc
  have hd : b.toRat - c.toRat = i * 2 ^ min b.exponent c.exponent := by
    rw [toRat_eq, toRat_eq, magnitude, magnitude, hi]
  have hpos := two_zpow_pos (min b.exponent c.exponent)
  have hi0 : i ≠ 0 := by
    rintro rfl
    rw [Int.cast_zero, zero_mul, sub_eq_zero] at hd
    exact h hd
  have habs : |b.toRat - c.toRat| = i.natAbs * 2 ^ min b.exponent c.exponent := by
    rw [hd, abs_mul, abs_of_pos hpos, Nat.cast_natAbs, Int.cast_abs]
  have hneg : i < 0 ↔ b.toRat - c.toRat < 0 := by
    rw [hd]
    constructor
    · intro h
      exact mul_neg_of_neg_of_pos (by exact_mod_cast h) hpos
    · intro h
      exact_mod_cast neg_of_mul_neg_left h hpos.le
  rw [unpacked_pos hb, unpacked_pos hc, hsub,
    toNat_pack_normalize hi0 (b.toRat - c.toRat).den_pos ((natAbs_div_den _).trans habs)]
  simp only [hneg]

/-- A difference other than 0 is rounded once. -/
theorem Holds.sub_eq (hx : Holds x p) (hy : Holds y q) (h : p ≠ q) : x - y = ofRat (p - q) := by
  obtain ⟨b, hb, rfl⟩ := hx
  obtain ⟨c, hc, rfl⟩ := hy
  refine eq_ofRat ?_
  show (Float.ofModel (Float.Model.pack (UnpackedFloat.sub Format.binary64 x.toModel.unpack
    y.toModel.unpack))).toBits.toNat = _
  rw [toNat_toBits_pack, unpack_of_ofFloat? hb, unpack_of_ofFloat? hc]
  have hcb := canonical_of_decode? hb
  have hcc := canonical_of_decode? hc
  rcases Nat.eq_zero_or_pos b.mantissa with hb0 | hbm <;>
    rcases Nat.eq_zero_or_pos c.mantissa with hc0 | hcm
  · rw [toRat_zero hb0, toRat_zero hc0] at h
    exact absurd rfl h
  · have hd : b.toRat - c.toRat = signedRat (!c.negative) c.magnitude := by
      rw [toRat_zero hb0, toRat_eq c, signedRat, signedRat]
      cases c.negative <;> simp
    rw [unpacked_zero hb0, unpacked_pos hcm, UnpackedFloat.sub, neg_signOf]
    exact toNat_pack_of_canonical hcm hcc hd
  · have hd : b.toRat - c.toRat = signedRat b.negative b.magnitude := by
      rw [toRat_zero hc0, sub_zero, toRat_eq]
    rw [unpacked_pos hbm, unpacked_zero hc0]
    exact toNat_pack_of_canonical hbm hcb hd
  · exact toNat_pack_sub hbm hcm h

theorem holds_zero {s : Sign} :
    Holds (Float.ofModel (Float.Model.pack (.zero s))) 0 := by
  cases s
  · exact ⟨⟨true, 0, -1074⟩, rfl, by simp [toRat, withSign, numerator]⟩
  · exact ⟨⟨false, 0, -1074⟩, rfl, by simp [toRat, withSign, numerator]⟩

/-- Numbers of the same value have the difference 0. -/
theorem Holds.sub_self (hx : Holds x p) (hy : Holds y p) : Holds (x - y) 0 := by
  obtain ⟨b, hb, rfl⟩ := hx
  obtain ⟨c, hc, hbc⟩ := hy
  have hmantissa := mantissa_pos_iff_of_toRat_eq hbc.symm
  have hsub : ∃ s, UnpackedFloat.sub Format.binary64 x.toModel.unpack y.toModel.unpack = .zero s := by
    rw [unpack_of_ofFloat? hb, unpack_of_ofFloat? hc]
    rcases Nat.eq_zero_or_pos b.mantissa with hb0 | hbm
    · have hc0 : c.mantissa = 0 := by omega
      rw [unpacked_zero hb0, unpacked_zero hc0, UnpackedFloat.sub]
      split
      · exact ⟨_, rfl⟩
      · exact ⟨_, rfl⟩
    · have hcm := hmantissa.mp hbm
      obtain ⟨i, hsub, hi⟩ := sub_finite b.negative c.negative b.exponent c.exponent hbm hcm
      have hi0 : i = 0 := by
        rw [toRat_eq, toRat_eq, magnitude, magnitude] at hbc
        rw [hbc, sub_eq_zero_of_eq rfl, eq_comm, mul_eq_zero] at hi
        exact_mod_cast hi.resolve_right (two_zpow_pos _).ne'
      rw [unpacked_pos hbm, unpacked_pos hcm, hsub, hi0]
      exact ⟨.positive, rfl⟩
  obtain ⟨s, hs⟩ := hsub
  have heq : x - y = Float.ofModel (Float.Model.pack (.zero s)) := by
    show Float.ofModel (Float.Model.pack (UnpackedFloat.sub Format.binary64 x.toModel.unpack
      y.toModel.unpack)) = _
    rw [hs]
  rw [heq]
  exact holds_zero

theorem signOf_mul (negative₁ negative₂ : Bool) :
    signOf negative₁ * signOf negative₂ = signOf (negative₁ ^^ negative₂) := by
  cases negative₁ <;> cases negative₂ <;> rfl

theorem signedRat_mul (negative₁ negative₂ : Bool) (q₁ q₂ : ℚ) :
    signedRat negative₁ q₁ * signedRat negative₂ q₂ =
      signedRat (negative₁ ^^ negative₂) (q₁ * q₂) := by
  cases negative₁ <;> cases negative₂ <;> simp [signedRat]

/-- A product of doubles has more digits than fit, or the smallest exponent. -/
theorem add_exponents_le {m₁ m₂ : ℕ} {e₁ e₂ : ℤ} (h₁ : 0 < m₁) (h₂ : 0 < m₂)
    (hc₁ : Canonical m₁ e₁) (hc₂ : Canonical m₂ e₂) :
    e₁ + e₂ ≤ unitExponent ((m₁ * m₂ : ℕ) * 2 ^ (e₁ + e₂)) := by
  have hpos : 0 < m₁ * m₂ := Nat.mul_pos h₁ h₂
  have hlog : 2 ^ 52 ≤ m₁ ∨ 2 ^ 52 ≤ m₂ → 52 ≤ (m₁ * m₂).log2 := by
    rintro (h | h)
    · exact (Nat.le_log2 hpos.ne').mpr (h.trans (Nat.le_mul_of_pos_right _ h₂))
    · exact (Nat.le_log2 hpos.ne').mpr (h.trans (Nat.le_mul_of_pos_left _ h₁))
  rw [unitExponent, log_mul_zpow hpos]
  rcases hc₁.normal with he₁ | hm₁
  · rcases hc₂.normal with he₂ | hm₂
    · omega
    · have := hlog (.inr hm₂)
      omega
  · have := hlog (.inl hm₁)
    omega

/-- A product other than 0 is rounded once. -/
theorem Holds.mul_eq (hx : Holds x p) (hy : Holds y q) (hp : p ≠ 0) (hq : q ≠ 0) :
    x * y = ofRat (p * q) := by
  obtain ⟨b, hb, rfl⟩ := hx
  obtain ⟨c, hc, rfl⟩ := hy
  have hbm : 0 < b.mantissa := by
    by_contra h
    exact hp (toRat_zero (by omega))
  have hcm : 0 < c.mantissa := by
    by_contra h
    exact hq (toRat_zero (by omega))
  have hd : b.toRat * c.toRat = signedRat (b.negative ^^ c.negative)
      ((b.mantissa * c.mantissa : ℕ) * 2 ^ (b.exponent + c.exponent)) := by
    rw [toRat_eq, toRat_eq, signedRat_mul, magnitude, magnitude, zpow_add₀ two_ne_zero]
    push_cast
    ring_nf
  have hpos : (0 : ℚ) < (b.mantissa * c.mantissa : ℕ) * 2 ^ (b.exponent + c.exponent) :=
    mul_pos (by exact_mod_cast Nat.mul_pos hbm hcm) (two_zpow_pos _)
  have habs : |b.toRat * c.toRat| =
      (b.mantissa * c.mantissa : ℕ) * 2 ^ (b.exponent + c.exponent) := by
    rw [hd, abs_signedRat, abs_of_pos hpos]
  refine eq_ofRat ?_
  show (Float.ofModel (Float.Model.pack (UnpackedFloat.mul Format.binary64 x.toModel.unpack
    y.toModel.unpack))).toBits.toNat = _
  rw [toNat_toBits_pack, unpack_of_ofFloat? hb, unpack_of_ofFloat? hc, unpacked_pos hbm,
    unpacked_pos hcm, UnpackedFloat.mul, signOf_mul,
    toNat_pack_roundWithAccuracy _ (Nat.mul_pos hbm hcm) (b.toRat * c.toRat).den_pos
      ((natAbs_div_den _).trans habs)
      (add_exponents_le hbm hcm (canonical_of_decode? hb) (canonical_of_decode? hc)),
    toNat_signOf_of_pos hpos hd]

/-! ### Comparison -/

/-- Of two magnitudes of doubles the one with the larger exponent is larger. -/
theorem magnitude_lt_of_exponent {m₁ m₂ : ℕ} {e₁ e₂ : ℤ} (hc₁ : Canonical m₁ e₁)
    (hc₂ : Canonical m₂ e₂) (h : e₁ < e₂) : (m₁ : ℚ) * 2 ^ e₁ < m₂ * 2 ^ e₂ := by
  have hm₂ : 2 ^ 52 ≤ m₂ := hc₂.normal.resolve_left (by have := hc₁.least; omega)
  have h₁ : (m₁ : ℚ) < 2 ^ (53 : ℕ) := by exact_mod_cast hc₁.lt
  have h₂ : (2 : ℚ) ^ (52 : ℕ) ≤ m₂ := by exact_mod_cast hm₂
  calc (m₁ : ℚ) * 2 ^ e₁ < 2 ^ (53 : ℕ) * 2 ^ e₁ :=
        mul_lt_mul_of_pos_right h₁ (two_zpow_pos e₁)
    _ = 2 ^ (52 : ℕ) * 2 ^ (e₁ + 1) := by rw [zpow_add_one₀ two_ne_zero]; ring
    _ ≤ m₂ * 2 ^ e₂ :=
        mul_le_mul h₂ (zpow_le_zpow_right₀ one_le_two (by omega)) (two_zpow_pos _).le
          (Nat.cast_nonneg _)

/-- Magnitudes of doubles compare by their exponents first. -/
theorem compare_magnitudes {m₁ m₂ : ℕ} {e₁ e₂ : ℤ} (hc₁ : Canonical m₁ e₁)
    (hc₂ : Canonical m₂ e₂) :
    (compare e₁ e₂).then (compare m₁ m₂) = compare ((m₁ : ℚ) * 2 ^ e₁) (m₂ * 2 ^ e₂) := by
  rcases lt_trichotomy e₁ e₂ with h | rfl | h
  · rw [compare_lt_iff_lt.mpr h, compare_lt_iff_lt.mpr (magnitude_lt_of_exponent hc₁ hc₂ h)]
    rfl
  · have hpos := two_zpow_pos e₁
    rw [compare_eq_iff_eq.mpr rfl]
    show compare m₁ m₂ = _
    rcases lt_trichotomy m₁ m₂ with hm | rfl | hm
    · rw [compare_lt_iff_lt.mpr hm, compare_lt_iff_lt.mpr
        (mul_lt_mul_of_pos_right (by exact_mod_cast hm) hpos)]
    · rw [compare_eq_iff_eq.mpr rfl, compare_eq_iff_eq.mpr rfl]
    · rw [compare_gt_iff_gt.mpr hm, compare_gt_iff_gt.mpr
        (mul_lt_mul_of_pos_right (by exact_mod_cast hm) hpos)]
  · rw [compare_gt_iff_gt.mpr h, compare_gt_iff_gt.mpr (magnitude_lt_of_exponent hc₂ hc₁ h)]
    rfl

theorem compare_neg (r s : ℚ) : compare (-r) (-s) = (compare r s).swap := by
  rcases lt_trichotomy r s with h | rfl | h
  · rw [compare_lt_iff_lt.mpr h, compare_gt_iff_gt.mpr (neg_lt_neg h)]; rfl
  · rw [compare_eq_iff_eq.mpr rfl, compare_eq_iff_eq.mpr rfl]; rfl
  · rw [compare_gt_iff_gt.mpr h, compare_lt_iff_lt.mpr (neg_lt_neg h)]; rfl

/-- Doubles compare as their values do. -/
theorem Holds.compare_eq (hx : Holds x p) (hy : Holds y q) :
    x.toModel.unpack.compare y.toModel.unpack = some (compare p q) := by
  obtain ⟨b, hb, rfl⟩ := hx
  obtain ⟨c, hc, rfl⟩ := hy
  have hmagnitudes := compare_magnitudes (canonical_of_decode? hb) (canonical_of_decode? hc)
  rw [unpack_of_ofFloat? hb, unpack_of_ofFloat? hc]
  rcases Nat.eq_zero_or_pos b.mantissa with hb0 | hbm <;>
    rcases Nat.eq_zero_or_pos c.mantissa with hc0 | hcm
  · rw [unpacked_zero hb0, unpacked_zero hc0, toRat_zero hb0, toRat_zero hc0,
      compare_eq_iff_eq.mpr rfl]
    rfl
  · have hpos := magnitude_pos hcm
    rw [unpacked_zero hb0, unpacked_pos hcm, toRat_zero hb0, toRat_eq]
    cases c.negative
    · rw [compare_lt_iff_lt.mpr (show (0 : ℚ) < signedRat false c.magnitude from hpos)]; rfl
    · rw [compare_gt_iff_gt.mpr (show signedRat true c.magnitude < 0 from neg_neg_of_pos hpos)]; rfl
  · have hpos := magnitude_pos hbm
    rw [unpacked_pos hbm, unpacked_zero hc0, toRat_zero hc0, toRat_eq]
    cases b.negative
    · rw [compare_gt_iff_gt.mpr (show (0 : ℚ) < signedRat false b.magnitude from hpos)]; rfl
    · rw [compare_lt_iff_lt.mpr (show signedRat true b.magnitude < 0 from neg_neg_of_pos hpos)]; rfl
  · have hbpos := magnitude_pos hbm
    have hcpos := magnitude_pos hcm
    rw [unpacked_pos hbm, unpacked_pos hcm, toRat_eq, toRat_eq]
    cases b.negative <;> cases c.negative
    · exact congrArg some hmagnitudes
    · rw [compare_gt_iff_gt.mpr (show signedRat true c.magnitude < signedRat false b.magnitude from
        (neg_neg_of_pos hcpos).trans hbpos)]
      rfl
    · rw [compare_lt_iff_lt.mpr (show signedRat true b.magnitude < signedRat false c.magnitude from
        (neg_neg_of_pos hbpos).trans hcpos)]
      rfl
    · exact congrArg some ((congrArg Ordering.swap hmagnitudes).trans (compare_neg _ _).symm)

theorem Holds.lt_iff (hx : Holds x p) (hy : Holds y q) : x < y ↔ p < q := by
  show decide (x.toModel < y.toModel) = true ↔ p < q
  rw [decide_eq_true_iff]
  show (x.toModel.unpack.lt y.toModel.unpack) = true ↔ p < q
  rw [UnpackedFloat.lt, hx.compare_eq hy, ← compare_lt_iff_lt]
  cases compare p q <;> decide

theorem Holds.le_iff (hx : Holds x p) (hy : Holds y q) : x ≤ y ↔ p ≤ q := by
  show decide (x.toModel ≤ y.toModel) = true ↔ p ≤ q
  rw [decide_eq_true_iff]
  show (x.toModel.unpack.le y.toModel.unpack) = true ↔ p ≤ q
  rw [UnpackedFloat.le, hx.compare_eq hy, ← compare_le_iff_le]
  cases compare p q <;> decide

theorem Holds.beq_iff (hx : Holds x p) (hy : Holds y q) : (x == y) = true ↔ p = q := by
  show (x.toModel.unpack.beq y.toModel.unpack) = true ↔ p = q
  rw [UnpackedFloat.beq, hx.compare_eq hy, beq_iff_eq, Option.some_inj]
  exact compare_eq_iff_eq

/-! ### Sign -/

theorem ofFloat?_of_canonical {negative : Bool} {m : ℕ} {e : ℤ} (h : Canonical m e) :
    ofFloat? (signed negative (bitsOf m e)) = some ⟨negative, m, e⟩ := by
  have hlt := h.lt
  have hleast := h.least
  have hmost := h.most
  have hnormal := h.normal
  rw [ofFloat?_eq_decode?, toBits_signed _ h.bitsOf_lt.le, bitsOf, decode?]
  have hsign : decide (2 ^ 63 ≤ (e + 1074).toNat * 2 ^ 52 + m + negative.toNat * 2 ^ 63) =
      negative := by
    cases negative
    · exact decide_eq_false (by rw [Bool.toNat_false]; omega)
    · exact decide_eq_true (by rw [Bool.toNat_true]; omega)
  have hsign' : negative.toNat ≤ 1 := Bool.toNat_le negative
  rw [hsign, if_neg (by omega)]
  split
  · next h0 =>
    rw [Option.some_inj, Binary.mk.injEq]
    exact ⟨rfl, by omega, by omega⟩
  · next h0 =>
    rw [Option.some_inj, Binary.mk.injEq]
    exact ⟨rfl, by omega, by omega⟩

/-- A change of the sign of a double changes that of its value. -/
theorem holds_resigned {b : Binary} (hb : ofFloat? x = some b) (negative : Bool)
    {u : UnpackedFloat} (hu : u = ({ b with negative := negative } : Binary).unpacked) :
    Holds (Float.ofModel (Float.Model.pack u)) (signedRat negative b.magnitude) := by
  have hc := canonical_of_decode? hb
  have hbits : Float.ofModel (Float.Model.pack u) = signed negative (bitsOf b.mantissa b.exponent) := by
    refine eq_of_toBits ?_
    rw [toNat_toBits_pack, hu, toNat_pack_unpacked (b := ⟨negative, _, _⟩) hc, toBits_signed _ hc.bitsOf_lt.le]
  rw [hbits]
  exact ⟨_, ofFloat?_of_canonical hc, toRat_eq _⟩

theorem Holds.neg (hx : Holds x p) : Holds (-x) (-p) := by
  obtain ⟨b, hb, rfl⟩ := hx
  have hvalue : -b.toRat = signedRat (!b.negative) b.magnitude := by
    rw [toRat_eq, signedRat, signedRat]
    cases b.negative <;> simp
  rw [hvalue]
  refine holds_resigned hb (!b.negative) ?_
  rw [unpack_of_ofFloat? hb]
  rcases Nat.eq_zero_or_pos b.mantissa with h0 | hm
  · rw [unpacked_zero h0, UnpackedFloat.neg, neg_signOf]
    exact (unpacked_zero (b := ⟨!b.negative, _, _⟩) h0).symm
  · rw [unpacked_pos hm, UnpackedFloat.neg, neg_signOf]
    exact (unpacked_pos (b := ⟨!b.negative, _, _⟩) hm).symm

theorem Holds.abs (hx : Holds x p) : Holds x.abs |p| := by
  obtain ⟨b, hb, rfl⟩ := hx
  rw [abs_toRat]
  refine holds_resigned hb false ?_
  rw [unpack_of_ofFloat? hb]
  rcases Nat.eq_zero_or_pos b.mantissa with h0 | hm
  · rw [unpacked_zero h0]
    exact (unpacked_zero (b := ⟨false, _, _⟩) h0).symm
  · rw [unpacked_pos hm]
    exact (unpacked_pos (b := ⟨false, _, _⟩) hm).symm

/-! ### The error of rounding -/

/-- What a quotient below the overflow limit is rounded to. -/
theorem exists_canonical_nearest {num den : ℕ} (hden : 0 < den)
    (h : (num : ℚ) / den < (2 ^ 54 - 1) * 2 ^ (970 : ℤ)) :
    ∃ m e, Canonical m e ∧ nearestBits num den = bitsOf m e ∧
      |(m : ℚ) * 2 ^ e - num / den| ≤
        max ((num : ℚ) / den / 2 ^ (53 : ℕ)) ((2 : ℚ) ^ (-1075 : ℤ)) := by
  have hlt := nearestBits_lt hden h
  rcases Nat.eq_zero_or_pos num with rfl | hnum
  · refine ⟨0, -1074, ⟨by norm_num, le_rfl, by norm_num, .inl rfl⟩, by simp [nearestBits, bitsOf], ?_⟩
    simp
  · have hle := mantissaAt_unit_le num hden
    have hnormal := le_mantissaAt_unit hnum hden
    have herror := abs_nearest_sub_le hnum hden
    have hleast := unitExponent_least ((num : ℚ) / den)
    have hbits := nearestBits_eq hnum hden
    rw [hbits, infinityBits_eq] at hlt
    rw [hbits, infinityBits_eq, min_eq_right (by omega)]
    generalize unitExponent ((num : ℚ) / den) = t at *
    generalize mantissaAt num den t = r at *
    rcases Nat.lt_or_eq_of_le hle with hr | rfl
    · refine ⟨r, t, ⟨hr, hleast, by omega, ?_⟩, rfl, herror⟩
      by_cases ht : t = -1074
      · exact .inl ht
      · exact .inr (hnormal ht)
    · have hvalue : ((2 ^ 53 : ℕ) : ℚ) * 2 ^ t = (2 ^ 52 : ℕ) * 2 ^ (t + 1) := by
        rw [zpow_add_one₀ two_ne_zero]
        push_cast
        ring
      rw [hvalue] at herror
      refine ⟨2 ^ 52, t + 1, ⟨by norm_num, by omega, by omega, .inr le_rfl⟩, ?_, herror⟩
      rw [bitsOf]
      omega

/-- The double nearest to a quotient below the overflow limit. -/
theorem holds_nearest (negative : Bool) {num den : ℕ} (hden : 0 < den)
    (h : (num : ℚ) / den < (2 ^ 54 - 1) * 2 ^ (970 : ℤ)) :
    ∃ r : ℚ, Holds (nearest negative num den) (signedRat negative r) ∧ 0 ≤ r ∧
      |r - num / den| ≤ max ((num : ℚ) / den / 2 ^ (53 : ℕ)) ((2 : ℚ) ^ (-1075 : ℤ)) := by
  obtain ⟨m, e, hc, hbits, herror⟩ := exists_canonical_nearest hden h
  refine ⟨m * 2 ^ e, ⟨_, ?_, toRat_eq ⟨negative, m, e⟩⟩,
    mul_nonneg (Nat.cast_nonneg _) (two_zpow_pos e).le, herror⟩
  rw [nearest, hbits]
  exact ofFloat?_of_canonical hc

/-- The double nearest to a rational number below the overflow limit. -/
theorem holds_ofRat {d : ℚ} (h : |d| < (2 ^ 54 - 1) * 2 ^ (970 : ℤ)) :
    ∃ r, Holds (ofRat d) r ∧ |r - d| ≤ max (|d| / 2 ^ (53 : ℕ)) ((2 : ℚ) ^ (-1075 : ℤ)) := by
  have hd := natAbs_div_den d
  obtain ⟨r, hr, -, herror⟩ := holds_nearest (decide (d.num < 0)) d.den_pos (hd.trans_lt h)
  rw [hd] at herror
  refine ⟨_, hr, ?_⟩
  by_cases hneg : d < 0
  · have habs : |-r - d| = |r - (|d|)| := by
      rw [abs_of_neg hneg, ← abs_neg, neg_sub, sub_neg_eq_add, sub_neg_eq_add, add_comm]
    rwa [decide_eq_true (Rat.num_neg.mpr hneg), signedRat, if_pos rfl, habs]
  · have habs : |r - d| = |r - (|d|)| := by rw [abs_of_nonneg (not_lt.mp hneg)]
    rwa [decide_eq_false (mt Rat.num_neg.mp hneg), signedRat, if_neg Bool.false_ne_true, habs]

/-- A double is the nearest one to its value. -/
theorem nearest_self {b : Binary} (h : ofFloat? x = some b) :
    nearest b.negative b.numerator b.denominator = x := by
  have hc := canonical_of_decode? h
  rw [nearest, hc.nearestBits_eq b.denominator_pos (magnitude_eq b).symm]
  exact (eq_signed_of_ofFloat? h).symm

end Double
end NumericAnswer
