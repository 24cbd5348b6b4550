/-
# The hints of values

A fraction is a hint only if it is the closest one that the bound admits and its
double is within the tolerance, a multiple of π only if its double is. A value
within the tolerance of a whole number has no hint; so no hint is a whole number,
which would be the closest one.

Under the built-in settings every simple fraction is recognised: fractions with
denominators up to 100 are farther apart than a double is from what it rounds.

Key definitions: `Display.FractionHint`, `Display.MultipleHint`.
Key theorems: `Display.two_le_den`, `Access.hint_sound`, `Access.hint_simple_fraction`.
-/
import NumericAnswer.Proofs.Closest
import NumericAnswer.Proofs.Copying
import NumericAnswer.Proofs.Limits

namespace NumericAnswer

open Binary Double

/-! ### Bounds of denominators -/

namespace Double

variable {t : Float} {y : Float} {q : ℚ}

theorem not_lt_of_infinite (hy : Holds y q) (hpos : 0 < t) (ht : ofFloat? t = none) : ¬t < y := by
  intro hlt
  have hlt : t.toModel.unpack.lt y.toModel.unpack = true := of_decide_eq_true hlt
  have hy : y.toModel.unpack.isFinite = true := hy.isFinite
  rw [unpack_of_infinite hpos ht] at hlt
  cases hv : y.toModel.unpack with
  | infinity s => simp [hv, Float.Model.UnpackedFloat.isFinite] at hy
  | notANumber => simp [hv, Float.Model.UnpackedFloat.isFinite] at hy
  | _ => simp [hv, Float.Model.UnpackedFloat.lt, Float.Model.UnpackedFloat.compare] at hlt

theorem isNaN_of_infinite (hpos : 0 < t) (ht : ofFloat? t = none) : t.isNaN = false := by
  show t.toModel.unpack.isNaN = false
  rw [unpack_of_infinite hpos ht]
  rfl

end Double

namespace Display

variable {M limit : WithTop ℚ} {v r : ℚ}

/-- The bound `bound` stands for the denominators up to `M`. -/
structure Bounds (bound : DenominatorBound) (M : WithTop ℚ) : Prop where
  den_le {v r : ℚ} (h : closestWithin bound v = .ok r) : (r.den : WithTop ℚ) ≤ M
  closest {v r : ℚ} (h : closestWithin bound v = .ok r) {s : ℚ} (hs : (s.den : WithTop ℚ) ≤ M) :
    |r - v| ≤ |s - v|

theorem bounds_whole {n : ℕ} (hn : 1 ≤ n) : Bounds (.whole n) (n : ℚ) where
  den_le {v r} h := by
    obtain rfl := Except.ok.inj h
    exact_mod_cast (closestFraction_spec hn v).1
  closest {v r} h {s} hs := by
    obtain rfl := Except.ok.inj h
    exact (closestFraction_spec hn v).2 s (by exact_mod_cast hs)

/-- A bound that is no whole number admits only the number itself. -/
theorem bounds_fractional {x : Float}
    (h : ∀ b, ofFloat? x = some b → ∀ q : ℕ, q ≤ b.truncated → (q : WithTop ℚ) ≤ M)
    (htop : ofFloat? x = none → M = ⊤) : Bounds (.fractional x) M := by
  have hself : ∀ {v r : ℚ}, closestWithin (.fractional x) v = .ok r →
      r = v ∧ (r.den : WithTop ℚ) ≤ M := by
    intro v r hr
    unfold closestWithin at hr
    cases hx : ofFloat? x with
    | none =>
      simp only [hx] at hr
      exact ⟨(Except.ok.inj hr).symm, htop hx ▸ le_top⟩
    | some b =>
      simp only [hx] at hr
      split at hr
      · next hle =>
        obtain rfl := Except.ok.inj hr
        exact ⟨rfl, h b hx _ hle⟩
      · cases hr
  refine ⟨fun hr => (hself hr).2, fun hr s _ => ?_⟩
  rw [(hself hr).1, sub_self, abs_zero]
  exact abs_nonneg _

end Display

theorem Binary.truncated_le (b : Binary) : (b.truncated : ℚ) ≤ b.magnitude := by
  rw [magnitude_eq, truncated]
  exact Nat.cast_div_le

/-- A setting from 1 on is a bound of denominators. -/
theorem Json.exists_denominatorBound {value : Json} {M : WithTop ℚ} (h : value.limit? = some M)
    (hM : 1 ≤ M) : ∃ bound, value.denominatorBound = .ok bound ∧ Display.Bounds bound M := by
  cases value with
  | bool b =>
    obtain rfl := Option.some.inj h
    cases b with
    | false => exact absurd hM (not_le.mpr zero_lt_one)
    | true => exact ⟨.whole 1, rfl, by simpa using Display.bounds_whole le_rfl⟩
  | integer i =>
    obtain rfl := Option.some.inj h
    have hi : 1 ≤ i := by exact_mod_cast hM
    obtain ⟨n, rfl⟩ := Int.eq_ofNat_of_zero_le (by omega : 0 ≤ i)
    refine ⟨.whole n, ?_, ?_⟩
    · rw [denominatorBound, if_neg (by omega)]
      rfl
    · exact_mod_cast Display.bounds_whole (n := n) (by omega)
  | float x =>
    cases hx : ofFloat? x with
    | some b =>
      simp only [limit?, hx] at h
      obtain rfl := Option.some.inj h
      have hb : 1 ≤ b.toRat := by exact_mod_cast hM
      have hlt : ¬x < 1 := fun hlt =>
        absurd (((holds_of_ofFloat? hx).lt_iff holds_one).mp hlt) (not_lt.mpr hb)
      refine ⟨.fractional x, ?_, Display.bounds_fractional (fun c hc q hq => ?_) fun hnone => ?_⟩
      · rw [denominatorBound, if_neg hlt, isNaN_of_isFinite (holds_of_ofFloat? hx).isFinite]
        rfl
      · obtain rfl := Option.some.inj (hx.symm.trans hc)
        have hq : (q : ℚ) ≤ b.toRat := by
          rw [← abs_of_nonneg (zero_le_one.trans hb), abs_toRat]
          exact le_trans (by exact_mod_cast hq) b.truncated_le
        exact_mod_cast hq
      · rw [hx] at hnone
        cases hnone
    | none =>
      simp only [limit?, hx] at h
      split at h
      · next hpos =>
        obtain rfl := Option.some.inj h
        refine ⟨.fractional x, ?_, Display.bounds_fractional (fun c hc => ?_) fun _ => rfl⟩
        · rw [denominatorBound, if_neg (not_lt_of_infinite holds_one hpos hx),
            isNaN_of_infinite hpos hx]
          rfl
        · rw [hx] at hc
          cases hc
      · cases h
  | _ => cases h

/-! ### Hints -/

namespace Display

variable {M limit : WithTop ℚ} {v r : ℚ} {t x : Float} {b : Binary}

/-- The fraction `p / q` as a hint for `v`. -/
structure FractionHint (limit M : WithTop ℚ) (v : ℚ) (p : ℤ) (q : ℕ) : Prop where
  coprime : p.natAbs.Coprime q
  two_le : 2 ≤ q
  le : (q : WithTop ℚ) ≤ M
  closest : ∀ s : ℚ, (s.den : WithTop ℚ) ≤ M → |p / q - v| ≤ |s - v|
  near : ∃ y, Holds (Binary.ofRat (p / q)) y ∧ ((|y - v| : ℚ) : WithTop ℚ) < limit

/-- The multiple `n / d` of π as a hint for `v`. -/
structure MultipleHint (limit : WithTop ℚ) (v : ℚ) (n : ℤ) (d : ℕ) : Prop where
  coprime : n.natAbs.Coprime d
  ne_zero : n ≠ 0
  one_le : 1 ≤ d
  le : d ≤ 12
  near : ∃ y, Holds (Binary.ofRat (n / d) * Constant.pi.value) y ∧
    ((|y - v| : ℚ) : WithTop ℚ) < limit

/-- A value that is not within the tolerance of a whole number has no whole number
as the closest fraction. -/
theorem two_le_den (hb : ofFloat? x = some b) (hpos : 0 < limit) (hlimits : Limits t limit)
    (hoff : ¬offWhole x b.roundEven < t) (hclosest : |r - b.toRat| ≤ |b.roundEven - b.toRat|)
    (hnear : (Binary.ofRat r - x).abs < t) : 2 ≤ r.den := by
  have hhalf := b.nearestEven_roundEven.close
  have hoff : ¬((|b.toRat - b.roundEven| : ℚ) : WithTop ℚ) < limit := fun hlt =>
    hoff ((hlimits.lt_iff (holds_offWhole hb) (hhalf.trans_lt (by norm_num))).mpr hlt)
  have hne : b.toRat ≠ b.roundEven := fun heq => hoff (by rwa [heq, sub_self, abs_zero])
  by_contra hlt
  have hden : r.den = 1 := by
    have hr := r.den_pos
    omega
  obtain ⟨k, rfl⟩ : ∃ k : ℤ, r = k := ⟨r.num, (Rat.den_eq_one_iff r).mp hden |>.symm⟩
  have hk : Holds (Binary.ofRat k) k := by
    refine holds_ofInt_of_lt (n := k) ?_
    have hsmall := abs_toRat_lt hb hne
    have htriangle := abs_sub_abs_le_abs_sub (k : ℚ) b.toRat
    rw [abs_sub_comm (b.roundEven : ℚ)] at hclosest
    have hlt : (k.natAbs : ℚ) < 2 ^ 53 := by
      rw [Nat.cast_natAbs, Int.cast_abs]
      linarith
    exact_mod_cast hlt
  obtain ⟨y, hy, hlt⟩ := hlimits.lt_of_sub (holds_of_ofFloat? hb) hnear
  rw [hy.unique hk, abs_sub_comm] at hlt
  exact hoff (lt_of_le_of_lt (WithTop.coe_le_coe.mpr (b.nearestEven_roundEven.le k)) hlt)

theorem pi_notMem_fractionText (r : ℚ) : 'π' ∉ fractionText r := by
  have hnumeral : ∀ n, 'π' ∉ numeral n := fun n hmem =>
    absurd (isDigit_of_mem_numeral n _ hmem) (by decide)
  have hinteger : 'π' ∉ integerText r.num := by
    unfold integerText
    split
    · simpa using hnumeral _
    · exact hnumeral _
  simp [fractionText, hinteger, hnumeral]

theorem pi_mem_piMultiple (r : ℚ) : 'π' ∈ piMultiple r := by
  simp [piMultiple]

/-- The hint that a multiple of π is. -/
theorem multipleHint_of_piHint (hx : Holds x v) (hlimits : Limits t limit) {shown : Text}
    (h : piHint t x = some shown) :
    ∃ (n : ℤ) (d : ℕ), shown = piMultiple (n / d) ∧ MultipleHint limit v n d := by
  unfold piHint at h
  obtain ⟨quotient, -, h⟩ := Option.bind_eq_some_iff.mp h
  have hle := (closestFraction_spec (show 1 ≤ piDenominator by decide) quotient.toRat).1
  simp only at h
  generalize closestFraction piDenominator quotient.toRat = r at h hle
  split at h
  · next hcond =>
    rw [Bool.and_eq_true, decide_eq_true_iff, decide_eq_true_iff] at hcond
    have hnear := hlimits.lt_of_sub hx hcond.2
    obtain rfl := Option.some.inj h
    refine ⟨r.num, r.den, by rw [Rat.num_div_den], r.reduced, Rat.num_ne_zero.mpr hcond.1, r.den_pos,
      hle, ?_⟩
    rwa [Rat.num_div_den]
  · cases h

/-- The hint for a finite value, for any tolerance above 0 and any bound from 1
on. -/
theorem finiteHint_sound {settings : Settings}
    (hlimit : (settings.get .integerTolerance).limit? = some limit) (hpos : 0 < limit)
    (hbound : (settings.get .fractionMaxDenominator).limit? = some M) (hM : 1 ≤ M)
    (hb : ofFloat? x = some b) :
    (∀ k : ℤ, ((|b.toRat - k| : ℚ) : WithTop ℚ) < limit → finiteHint settings x b = .ok none) ∧
    ∀ shown, finiteHint settings x b = .ok (some shown) →
      ('π' ∉ shown → ∃ (p : ℤ) (q : ℕ), shown = integerText p ++ '/' :: numeral q ∧
        FractionHint limit M b.toRat p q) ∧
      ('π' ∈ shown → ∃ (n : ℤ) (d : ℕ), shown = piMultiple (n / d) ∧
        MultipleHint limit b.toRat n d) := by
  obtain ⟨t, ht, hlimits⟩ := Json.exists_threshold hlimit hpos
  obtain ⟨bound, hwithin, hbounds⟩ := Json.exists_denominatorBound hbound hM
  have hx := holds_of_ofFloat? hb
  have hoff := hlimits.lt_iff (holds_offWhole hb)
    (b.nearestEven_roundEven.close.trans_lt (by norm_num))
  have hhint : finiteHint settings x b =
      if offWhole x b.roundEven < t then .ok none
      else closestWithin bound b.toRat >>= fun r =>
        if (Binary.ofRat r - x).abs < t then .ok (some (fractionText r))
        else .ok (piHint t x) := by
    rw [finiteHint, ht, hwithin]
    rfl
  rw [hhint]
  constructor
  · intro k hk
    have hnearest := WithTop.coe_le_coe.mpr (b.nearestEven_roundEven.le k)
    rw [if_pos (hoff.mpr (hnearest.trans_lt hk))]
  · intro shown hshown
    split at hshown
    · cases hshown
    · next hfar =>
      obtain ⟨r, hr, hshown⟩ := exists_of_bind_ok hshown
      split at hshown
      · next hnear =>
        obtain rfl := Option.some.inj (Except.ok.inj hshown)
        refine ⟨fun _ => ⟨r.num, r.den, rfl, ?_⟩, fun hpi => absurd hpi (pi_notMem_fractionText r)⟩
        have hone : (((b.roundEven : ℚ).den : ℕ) : WithTop ℚ) ≤ M := by
          rw [Rat.den_intCast]
          exact_mod_cast hM
        refine ⟨r.reduced, two_le_den hb hpos hlimits hfar (hbounds.closest hr hone) hnear,
          hbounds.den_le hr, fun s hs => ?_, ?_⟩
        · rw [Rat.num_div_den]
          exact hbounds.closest hr hs
        · rw [Rat.num_div_den]
          exact hlimits.lt_of_sub hx hnear
      · obtain ⟨n, d, rfl, hmultiple⟩ := multipleHint_of_piHint hx hlimits (Except.ok.inj hshown)
        exact ⟨fun hpi => absurd (pi_mem_piMultiple _) hpi, fun _ => ⟨n, d, rfl, hmultiple⟩⟩

end Display

namespace Access

/-- **Hints are sound.** A value within the tolerance of a whole number has no hint;
a hint without π is a proper fraction in lowest terms, the closest one, and a hint
with π a multiple by a small fraction, and the double of either is within the
tolerance. -/
theorem hint_sound {store : Store} {settings : Settings} (hstore : store.read.1 = .ok settings)
    {limit M : WithTop ℚ} (hlimit : (settings.get .integerTolerance).limit? = some limit)
    (hpos : 0 < limit) (hbound : (settings.get .fractionMaxDenominator).limit? = some M)
    (hM : 1 ≤ M) {x : Float} {b : Binary} (hb : ofFloat? x = some b) :
    (∀ k : ℤ, ((|b.toRat - k| : ℚ) : WithTop ℚ) < limit → (hint x store).1 = .ok none) ∧
    ∀ shown, (hint x store).1 = .ok (some shown) →
      ('π' ∉ shown → ∃ (p : ℤ) (q : ℕ), shown = integerText p ++ '/' :: numeral q ∧
        Display.FractionHint limit M b.toRat p q) ∧
      ('π' ∈ shown → ∃ (n : ℤ) (d : ℕ), shown = Display.piMultiple (n / d) ∧
        Display.MultipleHint limit b.toRat n d) := by
  have hhint : (hint x store).1 = Display.finiteHint settings x b := by
    rw [← Request.access_describeQuery, Query.access_eq, hstore, Request.describeQuery, hb]
    rfl
  rw [hhint]
  exact Display.finiteHint_sound hlimit hpos hbound hM hb

/-- Two thirds of π, under the built-in settings. -/
theorem hint_sound_pi : ∃ limit : WithTop ℚ,
    (Settings.default.get .integerTolerance).limit? = some limit ∧ 0 < limit ∧
      (hint (Float.ofBits 0x4000c152382d7365) (Store.initial none true)).1 =
        .ok (some "2π/3".toList) ∧
      ∃ (n : ℤ) (d : ℕ), "2π/3".toList = Display.piMultiple (n / d) ∧
        Display.MultipleHint limit (Binary.toRat ⟨false, 4716158501352293, -51⟩) n d := by
  obtain ⟨limit, hlimit, hpos⟩ := Settings.builtin_default.exists_limit
  have hbound : (Settings.default.get .fractionMaxDenominator).limit? =
      some (((100 : ℤ) : ℚ) : WithTop ℚ) := rfl
  have hM : (1 : WithTop ℚ) ≤ ((100 : ℤ) : ℚ) := WithTop.one_le_coe.mpr (by norm_num)
  have hbits : Binary.ofFloat? (Float.ofBits 0x4000c152382d7365) =
      some ⟨false, 4716158501352293, -51⟩ := by decide +kernel
  have hshown : (hint (Float.ofBits 0x4000c152382d7365) (Store.initial none true)).1.toOption =
      some (some "2π/3".toList) := by decide +kernel
  cases hresult : (hint (Float.ofBits 0x4000c152382d7365) (Store.initial none true)).1 with
  | error f =>
    rw [hresult] at hshown
    cases hshown
  | ok shown =>
    rw [hresult] at hshown
    obtain rfl := Option.some.inj hshown
    exact ⟨limit, hlimit, hpos, rfl,
      ((hint_sound rfl hlimit hpos hbound hM hbits).2 _ hresult).2 (by decide)⟩

end Access

/-! ### Simple fractions -/

/-- Different fractions are apart. -/
theorem one_div_le_abs_sub {r s : ℚ} (h : r ≠ s) : 1 / (r.den * s.den : ℚ) ≤ |r - s| := by
  have hr : (0 : ℚ) < r.den := by exact_mod_cast r.den_pos
  have hs : (0 : ℚ) < s.den := by exact_mod_cast s.den_pos
  have hsub : r - s = ((r.num * s.den - s.num * r.den : ℤ) : ℚ) / (r.den * s.den) := by
    conv_lhs => rw [← Rat.num_div_den r, ← Rat.num_div_den s]
    rw [div_sub_div _ _ hr.ne' hs.ne']
    push_cast
    ring
  have hne : r.num * s.den - s.num * r.den ≠ 0 := fun h0 => h (sub_eq_zero.mp (by
    rw [hsub, h0, Int.cast_zero, zero_div]))
  have hone : (1 : ℚ) ≤ |((r.num * s.den - s.num * r.den : ℤ) : ℚ)| := by
    exact_mod_cast Int.one_le_abs hne
  rw [hsub, abs_div, abs_of_pos (mul_pos hr hs)]
  exact div_le_div_of_nonneg_right hone (mul_pos hr hs).le

namespace Display

variable {r f : ℚ} {b : Binary} {x : Float}

/-- The double nearest to a number that is not too large is close to it. -/
theorem exists_ofFloat?_ofRat (h : |f| < 10 ^ 10) :
    ∃ b, ofFloat? (Binary.ofRat f) = some b ∧ |b.toRat - f| < 2 / 10 ^ 5 := by
  have hlarge : |f| < 2 ^ (1023 : ℤ) :=
    h.trans ((by norm_num : (10 : ℚ) ^ 10 < 2 ^ (34 : ℤ)).trans_le
      (zpow_le_zpow_right₀ one_le_two (by norm_num)))
  obtain ⟨v, ⟨b, hb, rfl⟩, herror⟩ := holds_ofRat (lt_overflow hlarge)
  refine ⟨b, hb, (herror.trans (error_le (abs_nonneg f))).trans_lt ?_⟩
  linarith

/-- A fraction with a small denominator is the closest one to what is near it. -/
theorem closestFraction_eq (hden : f.den ≤ 100) (h : |r - f| < 2 / 10 ^ 5) :
    closestFraction 100 r = f := by
  obtain ⟨hle, hclosest⟩ := closestFraction_spec (show 1 ≤ 100 by norm_num) r
  by_contra hne
  have hclose := hclosest f hden
  have hapart := one_div_le_abs_sub hne
  have htriangle := abs_sub_le (closestFraction 100 r) r f
  have hdens : ((closestFraction 100 r).den * f.den : ℚ) ≤ 100 * 100 := by
    exact_mod_cast Nat.mul_le_mul hle hden
  have hpos : (0 : ℚ) < (closestFraction 100 r).den * f.den := by
    exact_mod_cast Nat.mul_pos (closestFraction 100 r).den_pos f.den_pos
  have hleast : (1 : ℚ) / (100 * 100) ≤ 1 / ((closestFraction 100 r).den * f.den) :=
    one_div_le_one_div_of_le hpos hdens
  rw [abs_sub_comm f] at hclose
  linarith

/-- The double nearest to a proper fraction with a small denominator is not close to
a whole number. -/
theorem not_offWhole_lt (hlow : 2 ≤ f.den) (hhigh : f.den ≤ 100) (hb : ofFloat? x = some b)
    (h : |b.toRat - f| < 2 / 10 ^ 5) : ¬offWhole x b.roundEven < 1e-10 := by
  obtain ⟨t, ht, -, hsmall⟩ := holds_integerTolerance
  rw [(holds_offWhole hb).lt_iff ht, not_lt]
  have hne : f ≠ b.roundEven := by
    rintro rfl
    rw [Rat.den_intCast] at hlow
    omega
  have hapart := one_div_le_abs_sub hne
  rw [Rat.den_intCast, Nat.cast_one, mul_one] at hapart
  have hleast : (1 : ℚ) / 100 ≤ 1 / f.den :=
    one_div_le_one_div_of_le (by exact_mod_cast f.den_pos) (by exact_mod_cast hhigh)
  have htriangle := abs_sub_le f b.toRat b.roundEven
  rw [abs_sub_comm b.toRat] at h
  linarith

end Display

/-- **Simple fractions are recognised.** Under the built-in settings the hint for the
double nearest to a proper fraction with a denominator up to 100 is the fraction. -/
theorem Access.hint_simple_fraction {store : Store} (hstore : store.ReadsBuiltin) {p : ℤ} {q : ℕ}
    (hcoprime : p.natAbs.Coprime q) (hlow : 2 ≤ q) (hhigh : q ≤ 100)
    (hsmall : |(p : ℚ) / q| < 10 ^ 10) :
    (hint (Binary.ofRat (p / q)) store).1 = .ok (some (integerText p ++ '/' :: numeral q)) := by
  obtain ⟨settings, hread, hs⟩ := hstore
  have hq : (0 : ℤ) < q := by omega
  have hnum : ((p : ℚ) / q).num = p := by
    exact_mod_cast Rat.num_div_eq_of_coprime hq (by simpa using hcoprime)
  have hden : ((p : ℚ) / q).den = q := by
    exact_mod_cast Rat.den_div_eq_of_coprime hq (by simpa using hcoprime)
  obtain ⟨b, hb, hclose⟩ := Display.exists_ofFloat?_ofRat hsmall
  obtain ⟨t, ht, hpos, -⟩ := Display.holds_integerTolerance
  have hx := holds_of_ofFloat? hb
  have hfar := Display.not_offWhole_lt (by rwa [hden]) (by rwa [hden]) hb hclose
  have hself : (Binary.ofRat (p / q) - Binary.ofRat (p / q)).abs < 1e-10 := by
    rw [(hx.sub_self hx).abs.lt_iff ht, abs_zero]
    exact hpos
  rw [← Request.access_describeQuery, Query.access_eq, hread, Request.describeQuery, hb]
  show Display.finiteHint settings _ b = _
  rw [Display.finiteHint_eq_of_builtin hs, if_neg hfar]
  simp only [Display.closestFraction_eq (by rwa [hden]) hclose, if_pos hself]
  rw [Display.fractionText, hnum, hden]

/-- A negative third. -/
theorem Access.hint_simple_fraction_third :
    (hint (Binary.ofRat ((-1 : ℤ) / (3 : ℕ))) (Store.initial none true)).1 =
      .ok (some (integerText (-1) ++ '/' :: numeral 3)) :=
  hint_simple_fraction (Store.readsBuiltin_initial true) (by norm_num) (by norm_num) (by norm_num)
    (by norm_num [abs_div])
end NumericAnswer
