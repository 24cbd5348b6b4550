/-
# Limits of distances

A distance of two doubles is computed with one rounding and compared with a
tolerance. Rounding is monotone, so what is found to be below the tolerance is
below it exactly; and the distance to the nearest whole number is exact, so for
that nothing is missed either.

Key definitions: `Json.limit?`, `Double.Limits`.
Key theorems: `Binary.nearestBits_mono`, `Double.holds_offWhole`,
`Json.exists_threshold`.
-/
import NumericAnswer.Proofs.Rounded

namespace NumericAnswer

open Binary

/-! ### Rounding is monotone -/

/-- A larger number has no smaller nearest whole number. -/
theorem NearestEven.mono {q q' : ℚ} {m m' : ℤ} (hm : NearestEven q m) (hm' : NearestEven q' m')
    (h : q ≤ q') : m ≤ m' := by
  by_contra hlt
  have hstep : (m' : ℚ) + 1 ≤ m := by exact_mod_cast not_le.mp hlt
  have hclose := (abs_le.mp hm.close).1
  have hclose' := (abs_le.mp hm'.close).2
  -- Then both are half-way between the two.
  have heq : q = q' := le_antisymm h (by linarith)
  subst heq
  exact hlt (hm.unique hm').le

namespace Binary

variable {num den num' den' : ℕ}

theorem mantissaAt_mono (hden : 0 < den) (hden' : 0 < den') (h : (num : ℚ) / den ≤ num' / den')
    (e : ℤ) : mantissaAt num den e ≤ mantissaAt num' den' e := by
  have hm := nearestEven_roundQuotient (num * 2 ^ (-e).toNat)
    (show 0 < den * 2 ^ e.toNat by positivity)
  have hm' := nearestEven_roundQuotient (num' * 2 ^ (-e).toNat)
    (show 0 < den' * 2 ^ e.toNat by positivity)
  rw [scaled_eq] at hm hm'
  have hmono := hm.mono hm' (div_le_div_of_nonneg_right h (two_zpow_pos e).le)
  exact_mod_cast hmono

theorem unitExponent_mono {q q' : ℚ} (hq : 0 < q) (h : q ≤ q') :
    unitExponent q ≤ unitExponent q' :=
  max_le_max_right _ (sub_le_sub_right (Int.log_mono_right hq h) _)

theorem nearestBits_mono (hden : 0 < den) (hden' : 0 < den')
    (h : (num : ℚ) / den ≤ num' / den') : nearestBits num den ≤ nearestBits num' den' := by
  rcases Nat.eq_zero_or_pos num with rfl | hnum
  · simp [nearestBits]
  · have hq : (0 : ℚ) < num / den := by positivity
    have hnum' : 0 < num' := by
      refine Nat.pos_of_ne_zero fun h0 => ?_
      rw [h0, Nat.cast_zero, zero_div] at h
      exact absurd hq (not_lt.mpr h)
    rw [nearestBits_eq hnum hden, nearestBits_eq hnum' hden']
    refine min_le_min_left _ ?_
    have hunit := unitExponent_mono hq h
    have hleast := Double.unitExponent_least ((num : ℚ) / den)
    rcases hunit.eq_or_lt with heq | hlt
    · have hmantissa := mantissaAt_mono hden hden' h (unitExponent (num / den))
      rw [← heq]
      omega
    · -- A mantissa is below two units of the next one.
      have hhigh := mantissaAt_unit_le num hden
      have hlow := le_mantissaAt_unit hnum' hden' (by omega)
      omega

/-- Magnitudes of doubles compare as their bits do. -/
theorem Canonical.le_of_bitsOf_le {m m' : ℕ} {e e' : ℤ} (h : Canonical m e) (h' : Canonical m' e')
    (hle : bitsOf m e ≤ bitsOf m' e') : (m : ℚ) * 2 ^ e ≤ m' * 2 ^ e' := by
  have hleast := h.least
  have hleast' := h'.least
  unfold bitsOf at hle
  rcases lt_trichotomy e e' with hlt | rfl | hgt
  · exact (Double.magnitude_lt_of_exponent h h' hlt).le
  · have hm : (m : ℚ) ≤ m' := by exact_mod_cast (by omega : m ≤ m')
    exact mul_le_mul_of_nonneg_right hm (two_zpow_pos e).le
  · have hnormal := h.normal.resolve_left (by omega)
    have hlt := h'.lt
    omega

end Binary

namespace Double

variable {x y t : Float} {d d' p q v r : ℚ}

/-- The bits of a rounded number that is finite. -/
theorem exists_canonical_of_holds (h : Holds (ofRat d) r) :
    ∃ m e, Canonical m e ∧ nearestBits d.num.natAbs d.den = bitsOf m e ∧
      r = signedRat (decide (d.num < 0)) (m * 2 ^ e) := by
  obtain ⟨b, hb, rfl⟩ := h
  have hc := canonical_of_decode? hb
  have hbits := congrArg (fun x : Float => x.toBits.toNat) (eq_signed_of_ofFloat? hb)
  simp only [ofRat, nearest] at hbits
  rw [toBits_signed _ (nearestBits_le _ _), toBits_signed _ hc.bitsOf_lt.le] at hbits
  have hle := nearestBits_le d.num.natAbs d.den
  have hlt := hc.bitsOf_lt
  have hsign := Bool.toNat_le (decide (d.num < 0))
  have hsign' := Bool.toNat_le b.negative
  rw [infinityBits_eq] at hle hlt
  have hsame : ∀ s s' : Bool, s.toNat = s'.toNat → s = s' := by decide
  have hnegative : b.negative = decide (d.num < 0) := hsame _ _ (by omega)
  exact ⟨_, _, hc, by omega, by rw [toRat_eq, hnegative, magnitude]⟩

theorem Holds.ofRat_nonneg (h : Holds (ofRat d) r) (hd : 0 ≤ d) : 0 ≤ r := by
  obtain ⟨m, e, -, -, rfl⟩ := exists_canonical_of_holds h
  rw [decide_eq_false (mt Rat.num_neg.mp (not_lt.mpr hd))]
  exact mul_nonneg (Nat.cast_nonneg _) (two_zpow_pos e).le

/-- What is no larger than a number that is rounded to a finite double is rounded
to one that is no larger. -/
theorem exists_holds_of_le (h : |d| ≤ |d'|) (hr : Holds (ofRat d') r) :
    ∃ s, Holds (ofRat d) s ∧ |s| ≤ |r| := by
  obtain ⟨m', e', hc', hbits', hr'⟩ := exists_canonical_of_holds hr
  rw [← natAbs_div_den, ← natAbs_div_den] at h
  have hle := nearestBits_mono d.den_pos d'.den_pos h
  rw [hbits'] at hle
  have hfinite : (ofRat d).isFinite = true := isFinite_nearest (hle.trans_lt hc'.bitsOf_lt)
  rw [isFinite_eq] at hfinite
  obtain ⟨b, hb⟩ := Option.isSome_iff_exists.mp hfinite
  obtain ⟨m, e, hc, hbits, hs⟩ := exists_canonical_of_holds (holds_of_ofFloat? hb)
  refine ⟨b.toRat, holds_of_ofFloat? hb, ?_⟩
  rw [hbits] at hle
  rw [hs, hr', abs_signedRat, abs_signedRat, abs_of_nonneg, abs_of_nonneg]
  · exact hc.le_of_bitsOf_le hc' hle
  · exact mul_nonneg (Nat.cast_nonneg _) (two_zpow_pos e').le
  · exact mul_nonneg (Nat.cast_nonneg _) (two_zpow_pos e).le

/-! ### Exact differences -/

variable {b : Binary}

theorem magnitude_pos_of_ne_zero (h : b.toRat ≠ 0) : 0 < b.magnitude := by
  rw [← abs_toRat]
  exact abs_pos.mpr h

/-- The sign of a double other than zero is that of its value. -/
theorem negative_eq (h : b.toRat ≠ 0) : b.negative = decide (b.toRat < 0) := by
  rw [Bool.eq_iff_iff, decide_eq_true_iff, toRat_eq, signedRat_neg_iff (magnitude_pos_of_ne_zero h)]

/-- A double other than zero is the one nearest to its value. -/
theorem Holds.eq_ofRat (hx : Holds x v) (hv : v ≠ 0) : x = ofRat v := by
  obtain ⟨b, hb, rfl⟩ := hx
  have hc := canonical_of_decode? hb
  have hbits := hc.nearestBits_eq b.toRat.den_pos ((natAbs_div_den b.toRat).trans (abs_toRat b))
  rw [ofRat, nearest, hbits, decide_eq_decide.mpr Rat.num_neg, ← negative_eq hv]
  exact eq_signed_of_ofFloat? hb

theorem holds_ofRat_one : Holds (ofRat 1) 1 :=
  holds_ofRat_of_canonical (m := 2 ^ 52) (e := -52) ⟨by norm_num, by norm_num, by norm_num, .inr le_rfl⟩
    (by norm_num)

/-- A double without binary places after the point is a whole number. -/
theorem toRat_eq_roundEven (h : 0 ≤ b.exponent) : b.toRat = b.roundEven := by
  have hden : b.denominator = 1 := by
    rw [denominator, show (-b.exponent).toNat = 0 by omega]
  have hvalue : b.toRat = b.withSign b.numerator := by
    rw [toRat, Rat.mkRat_eq_div, hden, Nat.cast_one, div_one]
  have hself := b.nearestEven_roundEven.le (b.withSign b.numerator)
  rw [← hvalue, sub_self, abs_zero] at hself
  exact sub_eq_zero.mp (abs_eq_zero.mp (le_antisymm hself (abs_nonneg _)))

/-- A double with a fractional part is small. -/
theorem abs_toRat_lt (hb : ofFloat? x = some b) (h : b.toRat ≠ b.roundEven) :
    |b.toRat| < 2 ^ 52 := by
  have hexponent : b.exponent ≤ -1 := by
    by_contra hlt
    exact h (toRat_eq_roundEven (by omega))
  have hmantissa : (b.mantissa : ℚ) < 2 ^ 53 := by exact_mod_cast (canonical_of_decode? hb).lt
  rw [abs_toRat, magnitude]
  calc (b.mantissa : ℚ) * 2 ^ b.exponent ≤ b.mantissa * 2 ^ (-1 : ℤ) :=
        mul_le_mul_of_nonneg_left (zpow_le_zpow_right₀ one_le_two hexponent) (Nat.cast_nonneg _)
    _ < 2 ^ 53 * 2 ^ (-1 : ℤ) := mul_lt_mul_of_pos_right hmantissa (two_zpow_pos _)
    _ = 2 ^ 52 := by norm_num

/-- What is left of a double less its nearest whole number has no more digits than
the double. -/
theorem exists_canonical_sub_roundEven (hb : ofFloat? x = some b) :
    ∃ m e, Canonical m e ∧ |b.toRat - b.roundEven| = m * 2 ^ e := by
  have hc := canonical_of_decode? hb
  rcases le_or_gt 0 b.exponent with hle | hlt
  · refine ⟨0, -1074, ⟨by norm_num, le_rfl, by norm_num, .inl rfl⟩, ?_⟩
    rw [toRat_eq_roundEven hle, sub_self, abs_zero, Nat.cast_zero, zero_mul]
  · obtain ⟨n, hn⟩ : ∃ n : ℕ, -b.exponent = n := Int.eq_ofNat_of_zero_le (by omega)
    have hpow : (2 : ℚ) ^ n * 2 ^ b.exponent = 1 := by
      rw [← zpow_natCast, ← hn, ← zpow_add₀ two_ne_zero, neg_add_cancel,
        zpow_zero]
    have hvalue : b.toRat = b.withSign b.mantissa * 2 ^ b.exponent := by
      rw [toRat_eq, signedRat, withSign, magnitude]
      split <;> push_cast <;> ring
    have hsub : b.toRat - b.roundEven =
        ((b.withSign b.mantissa - b.roundEven * 2 ^ n : ℤ) : ℚ) * 2 ^ b.exponent := by
      rw [hvalue]
      push_cast
      linear_combination (b.roundEven : ℚ) * hpow
    have habs : |b.toRat - b.roundEven| =
        ((b.withSign b.mantissa - b.roundEven * 2 ^ n).natAbs : ℚ) * 2 ^ b.exponent := by
      rw [hsub, abs_mul, abs_of_pos (two_zpow_pos _), Nat.cast_natAbs, Int.cast_abs]
    -- Zero is not nearer.
    have hle := b.nearestEven_roundEven.le 0
    rw [habs, Int.cast_zero, sub_zero, abs_toRat, magnitude,
      mul_le_mul_iff_left₀ (two_zpow_pos _)] at hle
    have hlt : (b.withSign b.mantissa - b.roundEven * 2 ^ n).natAbs < 2 ^ 53 :=
      lt_of_le_of_lt (by exact_mod_cast hle) hc.lt
    have hleast := hc.least
    obtain ⟨m, e, hc', h⟩ := exists_canonical hlt (b.exponent + 1074).toNat (by omega) hc.most
    exact ⟨m, e, hc', habs.trans h.symm⟩

/-- The distance to the nearest whole number is exact. -/
theorem holds_offWhole (hb : ofFloat? x = some b) :
    Holds (Display.offWhole x b.roundEven) |b.toRat - b.roundEven| := by
  have hx := holds_of_ofFloat? hb
  have hm := holds_roundEven hb
  refine Holds.abs ?_
  by_cases heq : b.toRat = b.roundEven
  · have hself := hx.sub_self (heq ▸ hm)
    rwa [heq, sub_self]
  · obtain ⟨m, e, hc, h⟩ := exists_canonical_sub_roundEven hb
    rw [hx.sub_eq hm heq]
    exact holds_ofRat_of_canonical hc h

/-! ### Infinity -/

open Float.Model Float.Model.UnpackedFloat

/-- Only a finite number has a magnitude below another number. -/
theorem isFinite_of_abs_lt (h : x.abs < t) : x.isFinite = true := by
  have h : (Float.ofModel (Float.Model.pack x.toModel.unpack.abs)).toModel.unpack.lt
      t.toModel.unpack = true := of_decide_eq_true h
  rw [unpack_ofModel_pack] at h
  show x.toModel.unpack.isFinite = true
  cases hx : x.toModel.unpack with
  | zero s => rfl
  | finite s m e hm => rfl
  | infinity s =>
    have habs : UnpackedFloat.unpack Format.binary64 (UnpackedFloat.pack Format.binary64
        (UnpackedFloat.infinity s).abs) = .infinity .positive := by cases s <;> rfl
    rw [hx, habs] at h
    cases ht : t.toModel.unpack with
    | infinity s => cases s <;> simp [ht, UnpackedFloat.lt, UnpackedFloat.compare] at h
    | _ => simp [ht, UnpackedFloat.lt, UnpackedFloat.compare] at h
  | notANumber =>
    have habs : UnpackedFloat.unpack Format.binary64 (UnpackedFloat.pack Format.binary64
        UnpackedFloat.notANumber.abs) = .notANumber := rfl
    rw [hx, habs] at h
    simp [UnpackedFloat.lt, UnpackedFloat.compare] at h

/-- A finite number is not finitely far from another one. -/
theorem isFinite_of_sub (hx : x.isFinite = true) (h : (y - x).isFinite = true) :
    y.isFinite = true := by
  have hx : x.toModel.unpack.isFinite = true := hx
  have h : (Float.ofModel (Float.Model.pack (UnpackedFloat.sub Format.binary64 y.toModel.unpack
    x.toModel.unpack))).toModel.unpack.isFinite = true := h
  rw [unpack_ofModel_pack] at h
  show y.toModel.unpack.isFinite = true
  cases hy : y.toModel.unpack with
  | zero s => rfl
  | finite s m e hm => rfl
  | infinity s =>
    have hsub : UnpackedFloat.sub Format.binary64 (.infinity s) x.toModel.unpack = .infinity s := by
      cases hu : x.toModel.unpack with
      | infinity s => simp [hu, UnpackedFloat.isFinite] at hx
      | notANumber => simp [hu, UnpackedFloat.isFinite] at hx
      | _ => rfl
    rw [hy, hsub] at h
    cases s <;> cases h
  | notANumber =>
    have hsub : UnpackedFloat.sub Format.binary64 .notANumber x.toModel.unpack = .notANumber := by
      cases x.toModel.unpack <;> rfl
    rw [hy, hsub] at h
    cases h

/-- A number above 0 that is not finite is infinity. -/
theorem unpack_of_infinite (hpos : 0 < t) (ht : ofFloat? t = none) :
    t.toModel.unpack = .infinity .positive := by
  have hinfinite : t.isFinite = false := by
    rw [isFinite_eq, ht]
    rfl
  have hinfinite : t.toModel.unpack.isFinite = false := hinfinite
  have hpos : (UnpackedFloat.zero .positive).lt t.toModel.unpack = true := of_decide_eq_true hpos
  cases hu : t.toModel.unpack with
  | zero s => simp [hu, UnpackedFloat.isFinite] at hinfinite
  | finite s m e hm => simp [hu, UnpackedFloat.isFinite] at hinfinite
  | notANumber => simp [hu, UnpackedFloat.lt, UnpackedFloat.compare] at hpos
  | infinity s =>
    cases s with
    | negative => simp [hu, UnpackedFloat.lt, UnpackedFloat.compare] at hpos
    | positive => rfl

/-- Every finite number is below infinity. -/
theorem Holds.lt_of_infinite (hy : Holds y q) (hpos : 0 < t) (ht : ofFloat? t = none) : y < t := by
  have hy : y.toModel.unpack.isFinite = true := hy.isFinite
  show decide (y.toModel < t.toModel) = true
  rw [decide_eq_true_iff]
  show y.toModel.unpack.lt t.toModel.unpack = true
  rw [unpack_of_infinite hpos ht]
  cases hv : y.toModel.unpack with
  | infinity s => simp [hv, UnpackedFloat.isFinite] at hy
  | notANumber => simp [hv, UnpackedFloat.isFinite] at hy
  | _ => rfl

/-- A positive number that is too large is rounded to positive infinity. -/
theorem ofRat_pos_of_infinite (hd : 0 < d) (h : ofFloat? (ofRat d) = none) : 0 < ofRat d := by
  have hbits : nearestBits d.num.natAbs d.den = infinityBits := by
    refine (nearestBits_le _ _).eq_of_not_lt fun hlt => ?_
    have hfinite : (ofRat d).isFinite = true := isFinite_nearest hlt
    rw [isFinite_eq, h] at hfinite
    cases hfinite
  rw [ofRat, nearest, hbits, decide_eq_false (mt Rat.num_neg.mp hd.le.not_gt)]
  decide +kernel

/-! ### Limits -/

/-- Comparing a computed distance with the double `t` decides as far as needed how
the exact one compares with `limit`, which is infinite at the top. -/
structure Limits (t : Float) (limit : WithTop ℚ) : Prop where
  lt_iff {y : Float} {q : ℚ} (hy : Holds y q) (hq : q < 1) : y < t ↔ (q : WithTop ℚ) < limit
  lt_of_sub {x y : Float} {v : ℚ} (hx : Holds x v) (h : (y - x).abs < t) :
    ∃ p, Holds y p ∧ ((|p - v| : ℚ) : WithTop ℚ) < limit

theorem limits_top (hpos : 0 < t) (ht : ofFloat? t = none) : Limits t ⊤ where
  lt_iff hy _ := iff_of_true (hy.lt_of_infinite hpos ht) (WithTop.coe_lt_top _)
  lt_of_sub {x y v} hx h := by
    have hfinite := isFinite_of_sub hx.isFinite (isFinite_of_abs_lt h)
    rw [isFinite_eq] at hfinite
    obtain ⟨b, hb⟩ := Option.isSome_iff_exists.mp hfinite
    exact ⟨b.toRat, holds_of_ofFloat? hb, WithTop.coe_lt_top _⟩

/-- A limit that is rounded stays above what is below 1, if it is not a double. -/
theorem limits_ofRat {limit : ℚ} (hpos : 0 < limit)
    (h : Holds (ofRat limit) limit ∨ 1 ≤ limit) : Limits (ofRat limit) limit where
  lt_iff {y q} hy hq := by
    rw [WithTop.coe_lt_coe]
    rcases h with h | h
    · exact hy.lt_iff h
    · refine iff_of_true ?_ (hq.trans_le h)
      cases hr : ofFloat? (ofRat limit) with
      | none => exact hy.lt_of_infinite (ofRat_pos_of_infinite hpos hr) hr
      | some b =>
        have hlimit := holds_of_ofFloat? hr
        obtain ⟨s, hs, hle⟩ := exists_holds_of_le (d := 1) (by rwa [abs_one, abs_of_pos hpos]) hlimit
        rw [hs.unique holds_ofRat_one, abs_one, abs_of_nonneg (hlimit.ofRat_nonneg hpos.le)] at hle
        exact (hy.lt_iff hlimit).mpr (hq.trans_le hle)
  lt_of_sub {x y v} hx h := by
    have hfinite := isFinite_of_abs_lt h
    have hy := isFinite_of_sub hx.isFinite hfinite
    rw [isFinite_eq] at hfinite hy
    obtain ⟨b, hb⟩ := Option.isSome_iff_exists.mp hy
    obtain ⟨c, hc⟩ := Option.isSome_iff_exists.mp hfinite
    refine ⟨b.toRat, holds_of_ofFloat? hb, ?_⟩
    rw [WithTop.coe_lt_coe]
    by_cases heq : b.toRat = v
    · rwa [heq, sub_self, abs_zero]
    · by_contra hle
      have hsub := holds_of_ofFloat? hc
      rw [(holds_of_ofFloat? hb).sub_eq hx heq] at hsub
      have hlimit : |limit| ≤ |b.toRat - v| := by
        rw [abs_of_pos hpos]
        exact not_lt.mp hle
      obtain ⟨s, hs, hle⟩ := exists_holds_of_le hlimit hsub
      rw [(holds_of_ofFloat? hb).sub_eq hx heq] at h
      have hlt := (hsub.abs.lt_iff hs).mp h
      exact absurd ((le_abs_self s).trans hle) (not_le.mpr hlt)

end Double

/-! ### Settings -/

namespace Json

open Double

/-- The exact limit that a setting is: a number, or infinity. -/
def limit? : Json → Option (WithTop ℚ)
  | bool b => some (if b then 1 else 0)
  | integer i => some (i : ℚ)
  | float x =>
    match ofFloat? x with
    | some b => some b.toRat
    | none => if 0 < x then some ⊤ else none
  | _ => none

theorem limit?_float {x : Float} {q : ℚ} (h : Holds x q) :
    (float x).limit? = some (q : WithTop ℚ) := by
  obtain ⟨b, hb, rfl⟩ := h
  simp only [limit?, hb]

/-- Values are compared with a limit above 0 as it is. -/
theorem exists_threshold {value : Json} {limit : WithTop ℚ} (h : value.limit? = some limit)
    (hpos : 0 < limit) : ∃ t, value.threshold = .ok t ∧ Limits t limit := by
  cases value with
  | bool b =>
    obtain rfl := Option.some.inj h
    cases b with
    | false => exact absurd hpos (lt_irrefl _)
    | true =>
      have hone : (1 : Float) = ofRat 1 := eq_of_toBits (by decide +kernel)
      refine ⟨1, rfl, ?_⟩
      rw [hone]
      exact limits_ofRat zero_lt_one (.inr le_rfl)
  | integer i =>
    obtain rfl := Option.some.inj h
    have hi : (0 : ℚ) < i := WithTop.coe_lt_coe.mp hpos
    have hone : (1 : ℚ) ≤ i := by exact_mod_cast hi
    have hlimits : Limits (ofRat (i : ℚ)) ((i : ℚ) : WithTop ℚ) := limits_ofRat hi (.inr hone)
    exact ⟨ofInt i, rfl, hlimits⟩
  | float x =>
    cases hx : ofFloat? x with
    | some b =>
      simp only [limit?, hx] at h
      obtain rfl := Option.some.inj h
      have hb : 0 < b.toRat := WithTop.coe_lt_coe.mp hpos
      have hself := (holds_of_ofFloat? hx).eq_ofRat hb.ne'
      refine ⟨x, rfl, ?_⟩
      rw [hself]
      exact limits_ofRat hb (.inl (hself ▸ holds_of_ofFloat? hx))
    | none =>
      simp only [limit?, hx] at h
      split at h
      · next hinfinite =>
        obtain rfl := Option.some.inj h
        exact ⟨x, rfl, limits_top hinfinite hx⟩
      · cases h
  | _ => cases h

end Json

/-- The built-in tolerance is a limit above 0. -/
theorem Settings.Builtin.exists_limit {settings : Settings} (h : settings.Builtin) :
    ∃ limit, (settings.get .integerTolerance).limit? = some limit ∧ 0 < limit := by
  obtain ⟨t, ht, hpos, -⟩ := Display.holds_integerTolerance
  refine ⟨t, ?_, WithTop.coe_pos.mpr hpos⟩
  rw [h .integerTolerance]
  exact Json.limit?_float ht

end NumericAnswer
