/-
# Displayed values

Under the built-in settings a finite value is displayed as a sign and a
literal: 0, the whole number that the value is close to, or the value rounded
to ten significant digits. The literal writes a number close to the value; it
is too large for a double only if the value is beyond `Decimal.copyLimit`.

Key definitions: `Settings.Builtin`, `Literal.Shows`.
Key theorems: `Display.text_builtin`, `Literal.Shows.exists_holds`,
`Literal.Shows.isFinite_value`.
-/
import Mathlib
import NumericAnswer.Display
import NumericAnswer.Proofs.Readback
import NumericAnswer.Proofs.Significant
import NumericAnswer.Proofs.Tolerance

namespace NumericAnswer

open Binary Double

/-- Every setting that the library uses has its built-in value. -/
def Settings.Builtin (settings : Settings) : Prop :=
  ∀ s, settings.get s = s.default

theorem Settings.builtin_default : Settings.default.Builtin := by
  intro s
  cases s <;> rfl

/-- What is shown of a number: a literal that is off by little more than half a
unit of the tenth digit, and too large for a double only beyond the limit. -/
structure Literal.Shows (l : Literal) (negative : Bool) (q : ℚ) : Prop where
  formed : l.Formed
  close : |signedRat negative (l.decimal false).magnitude - q| ≤ max 1 |q| * (51 / 10 ^ 11)
  lt : |q| ≤ Decimal.copyLimit → (l.decimal false).magnitude < (2 ^ 54 - 1) * 2 ^ (970 : ℤ)
  le : Decimal.copyLimit < |q| → 2 ^ (1024 : ℤ) ≤ (l.decimal false).magnitude

/-! ### Whole numbers -/

namespace Double

variable {x : Float} {b : Binary}

/-- A few binary digits at a place of the doubles are the digits of one. -/
theorem exists_canonical {k : ℕ} (hk : k < 2 ^ 53) : ∀ (n : ℕ) {e : ℤ}, e + 1074 = n → e ≤ 971 →
    ∃ m e', Canonical m e' ∧ (m : ℚ) * 2 ^ e' = k * 2 ^ e := by
  intro n
  induction n generalizing k with
  | zero => exact fun {e} he hmost => ⟨k, e, ⟨hk, by omega, hmost, .inl (by omega)⟩, rfl⟩
  | succ n ih =>
    intro e he hmost
    rcases Nat.lt_or_ge k (2 ^ 52) with hlt | hge
    · obtain ⟨m, e', hc, h⟩ := ih (k := 2 * k) (by omega) (e := e - 1) (by omega) (by omega)
      refine ⟨m, e', hc, h.trans ?_⟩
      rw [zpow_sub_one₀ two_ne_zero]
      push_cast
      ring
    · exact ⟨k, e, ⟨hk, by omega, hmost, .inr hge⟩, rfl⟩

/-- What a double can hold is rounded to itself. -/
theorem holds_ofRat_of_canonical {d : ℚ} {m : ℕ} {e : ℤ} (hc : Canonical m e)
    (h : |d| = m * 2 ^ e) : Holds (ofRat d) d := by
  have hbits : nearestBits d.num.natAbs d.den = bitsOf m e :=
    hc.nearestBits_eq d.den_pos ((natAbs_div_den d).trans h)
  refine ⟨⟨decide (d.num < 0), m, e⟩, ?_, ?_⟩
  · rw [ofRat, nearest, hbits]
    exact ofFloat?_of_canonical hc
  · rw [toRat_eq, magnitude, ← h, signedRat]
    split_ifs with hneg
    · rw [decide_eq_true_iff, Rat.num_neg] at hneg
      rw [abs_of_neg hneg, neg_neg]
    · rw [decide_eq_true_iff, Rat.num_neg] at hneg
      exact abs_of_nonneg (not_lt.mp hneg)

theorem holds_ofInt_of_canonical {n : ℤ} {m : ℕ} {e : ℤ} (hc : Canonical m e)
    (h : (n.natAbs : ℚ) = m * 2 ^ e) : Holds (ofInt n) n := by
  have hself : Holds (ofRat (n : ℚ)) n :=
    holds_ofRat_of_canonical hc (by rw [← Int.cast_abs, ← Nat.cast_natAbs, h])
  exact hself

theorem holds_ofInt_of_lt {n : ℤ} (h : n.natAbs < 2 ^ 53) : Holds (ofInt n) n := by
  obtain ⟨m, e, hc, hvalue⟩ := exists_canonical h 1074 (zero_add _) (by norm_num)
  exact holds_ofInt_of_canonical hc (by rw [hvalue, zpow_zero, mul_one])

theorem natAbs_roundEven (b : Binary) :
    b.roundEven.natAbs = roundQuotient b.numerator b.denominator := by
  rw [roundEven, withSign]
  split <;> omega

/-- The nearest whole number is half a unit away at most. -/
theorem abs_roundEven_sub_le (b : Binary) : |(b.roundEven : ℚ) - b.toRat| ≤ 1 / 2 := by
  have h := abs_roundQuotient_sub_le b.numerator b.denominator_pos
  have hvalue : (b.roundEven : ℚ) = signedRat b.negative (roundQuotient b.numerator b.denominator) := by
    rw [roundEven, withSign, signedRat]
    split <;> push_cast <;> rfl
  rw [← magnitude_eq] at h
  rwa [hvalue, toRat_eq, signedRat_sub, abs_signedRat]

/-- The whole number nearest to a double is a double. -/
theorem holds_roundEven (hb : ofFloat? x = some b) : Holds (ofInt b.roundEven) b.roundEven := by
  have hc := canonical_of_decode? hb
  rcases le_or_gt 0 b.exponent with hle | hlt
  · refine holds_ofInt_of_canonical hc ?_
    have hden : b.denominator = 1 := by
      rw [denominator, show (-b.exponent).toNat = 0 by omega]
    have hself := roundQuotient_mul b.numerator one_pos
    rw [mul_one] at hself
    rw [natAbs_roundEven, hden, hself, ← magnitude, magnitude_eq, hden, Nat.cast_one, div_one]
  · refine holds_ofInt_of_lt ?_
    have hhalf : (2 : ℚ) ^ b.exponent ≤ 1 / 2 := by
      have h := zpow_le_zpow_right₀ (one_le_two (α := ℚ)) (show b.exponent ≤ -1 by omega)
      rwa [zpow_neg_one, ← one_div] at h
    have hmantissa : (b.mantissa : ℚ) < 2 ^ 53 := by exact_mod_cast hc.lt
    have hmagnitude : |b.toRat| ≤ b.mantissa * (1 / 2) := by
      rw [abs_toRat, magnitude]
      exact mul_le_mul_of_nonneg_left hhalf (Nat.cast_nonneg _)
    have habs : (b.roundEven.natAbs : ℚ) < 2 ^ 53 := by
      have hsub := abs_roundEven_sub_le b
      have htriangle := abs_sub_abs_le_abs_sub (b.roundEven : ℚ) b.toRat
      rw [Nat.cast_natAbs, Int.cast_abs]
      linarith
    exact_mod_cast habs

end Double

/-! ### The displayed text -/

namespace Json

theorem formed_wholeLiteral (n : ℕ) : (wholeLiteral n).Formed :=
  (plain_wholeLiteral n).formed (by simp [wholeLiteral])

theorem magnitude_wholeLiteral (negative : Bool) (n : ℕ) :
    ((wholeLiteral n).decimal negative).magnitude = n := by
  simp [wholeLiteral, Literal.decimal, Decimal.magnitude, digitsValue_numeral]

end Json

theorem integerText_eq (n : ℤ) :
    integerText n = (Json.wholeLiteral n.natAbs).signedText (decide (n < 0)) := by
  rw [integerText, Literal.signedText, Json.text_wholeLiteral]
  split
  · next h => rw [decide_eq_true h]; rfl
  · next h => rw [decide_eq_false h]; rfl

namespace Display

variable {x : Float} {b : Binary}

/-- The tolerance of whole numbers. -/
theorem holds_integerTolerance : ∃ t : ℚ, Holds 1e-10 t ∧ 0 < t ∧ t < 2 / 10 ^ 10 := by
  have hbits : Binary.ofFloat? (1e-10 : Float) = some ⟨false, 7737125245533627, -86⟩ := by
    decide +kernel
  refine ⟨_, ⟨_, hbits, rfl⟩, ?_, ?_⟩ <;> rw [toRat_eq, magnitude, signedRat] <;> norm_num

/-- A whole number within the tolerance is close. -/
theorem abs_sub_roundEven_le (hb : ofFloat? x = some b) (h : offWhole x b.roundEven < 1e-10) :
    |b.toRat - b.roundEven| ≤ 3 / 10 ^ 10 := by
  obtain ⟨t, ht, -, hsmall⟩ := holds_integerTolerance
  have hhalf := abs_roundEven_sub_le b
  rw [abs_sub_comm] at hhalf
  obtain ⟨r, hr, herror⟩ := (holds_of_ofFloat? hb).abs_sub (holds_roundEven hb)
    (hhalf.trans_lt (one_half_lt_one.trans (one_lt_zpow₀ one_lt_two (by norm_num))))
  have hlt := (hr.lt_iff ht).mp h
  have herror := (abs_le.mp herror).1
  linarith

/-- Zero is displayed as it is. -/
theorem shows_zero : (Json.wholeLiteral 0).Shows false 0 where
  formed := Json.formed_wholeLiteral 0
  close := by
    rw [Json.magnitude_wholeLiteral]
    norm_num [signedRat]
  lt _ := by
    rw [Json.magnitude_wholeLiteral]
    norm_num
  le h := by
    rw [abs_zero] at h
    exact absurd h (by norm_num [Decimal.copyLimit])

/-- A value close to a whole number is displayed as that number. -/
theorem shows_whole (hb : ofFloat? x = some b) (h : offWhole x b.roundEven < 1e-10)
    (hlimit : b.roundEven.natAbs < wholeLimit) :
    (Json.wholeLiteral b.roundEven.natAbs).Shows (decide (b.roundEven < 0)) b.toRat where
  formed := Json.formed_wholeLiteral _
  close := by
    have hclose := abs_sub_roundEven_le hb h
    have hone : 1 ≤ max 1 |b.toRat| := le_max_left ..
    rw [Json.magnitude_wholeLiteral, signedRat_natAbs, abs_sub_comm]
    linarith
  lt _ := by
    rw [Json.magnitude_wholeLiteral]
    refine lt_overflow ?_
    calc (b.roundEven.natAbs : ℚ) < wholeLimit := by exact_mod_cast hlimit
      _ ≤ 2 ^ (70 : ℤ) := by norm_num [wholeLimit]
      _ ≤ 2 ^ (1023 : ℤ) := zpow_le_zpow_right₀ one_le_two (by norm_num)
  le h := by
    have hhalf := (abs_le.mp (abs_abs_sub_abs_le (b.roundEven : ℚ) b.toRat)).1
    have hclose := abs_roundEven_sub_le b
    have hwhole : |(b.roundEven : ℚ)| < wholeLimit := by
      rw [← Int.cast_abs, ← Nat.cast_natAbs]
      exact_mod_cast hlimit
    have hbound : ((wholeLimit + 1 : ℕ) : ℚ) ≤ Decimal.copyLimit := by
      rw [Decimal.copyLimit_eq]
      exact Nat.cast_le.mpr (by decide +kernel)
    rw [Nat.cast_add, Nat.cast_one] at hbound
    linarith

/-- Any other value is displayed rounded to ten digits. -/
theorem shows_rounded (hb : ofFloat? x = some b) :
    ((layout 10).literal ((Decimal.ofBinary b).round 10)).Shows b.negative b.toRat where
  formed := ((layout 10).plain_literal _).formed fun p hp => .inr ((layout 10).mark_literal _ p hp)
  close := by
    have hround := Decimal.abs_magnitude_round_sub_le_mul (show 0 < 10 by norm_num) (Decimal.ofBinary b)
    rw [Decimal.magnitude_ofBinary, ← abs_signedRat b.negative, ← signedRat_sub, ← toRat_eq,
      show 10 - 1 = 9 from rfl] at hround
    have hone : 1 ≤ max 1 |b.toRat| := le_max_left ..
    have hmax : b.magnitude ≤ max 1 |b.toRat| := (abs_toRat b).symm.le.trans (le_max_right ..)
    rw [Layout.magnitude_literal]
    linarith
  lt h := by
    rw [Layout.magnitude_literal]
    refine Decimal.magnitude_round_lt ?_
    rwa [Decimal.magnitude_ofBinary, ← abs_toRat]
  le h := by
    rw [Layout.magnitude_literal]
    refine Decimal.le_magnitude_round (min_le_right ..) ?_ ?_
    · rwa [Decimal.magnitude_ofBinary, ← abs_toRat]
    · rw [Decimal.magnitude_ofBinary, ← abs_toRat]
      have hlt : ((2 ^ 1024 : ℕ) : ℚ) < (10 ^ 309 : ℕ) := Nat.cast_lt.mpr (by decide +kernel)
      rw [Nat.cast_pow, Nat.cast_pow, ← zpow_natCast] at hlt
      exact (holds_of_ofFloat? hb).abs_lt.trans hlt

theorem rounded_eq {places : ℕ} (h : places ≤ maxPlaces) (b : Binary) : rounded places b =
    .ok (((layout places).literal ((Decimal.ofBinary b).round places)).signedText b.negative) := by
  have hmax : maxPlaces < Nat.pow 2 63 := by norm_num [maxPlaces]
  rw [rounded, if_neg (by omega), if_neg (by omega), Layout.render_eq]
  rfl

theorem rounded_ten (b : Binary) : rounded 10 b =
    .ok (((layout 10).literal ((Decimal.ofBinary b).round 10)).signedText b.negative) :=
  rounded_eq (by norm_num [maxPlaces]) b

/-- Every finite value has a displayed text. -/
theorem text_builtin {settings : Settings} (hs : settings.Builtin) (hb : ofFloat? x = some b) :
    ∃ (l : Literal) (negative : Bool),
      text settings none x = .ok (l.signedText negative) ∧ l.Shows negative b.toRat := by
  have htext : text settings none x =
      if x == 0 then .ok ['0']
      else if b.roundEven = 0 then rounded 10 b
      else if offWhole x b.roundEven < 1e-10 && b.roundEven.natAbs < wholeLimit then
        .ok (integerText b.roundEven)
      else rounded 10 b := by
    rw [text, Option.getD_none, hs, hs, hb]
    rfl
  rw [htext]
  split_ifs with hzero hsmall hwhole
  · have hvalue : b.toRat = 0 := ((holds_of_ofFloat? hb).beq_iff holds_zero).mp hzero
    refine ⟨Json.wholeLiteral 0, false, ?_, hvalue ▸ shows_zero⟩
    rw [Literal.signedText, Json.text_wholeLiteral, numeral_zero]
    rfl
  · exact ⟨_, _, rounded_ten b, shows_rounded hb⟩
  · simp only [Bool.and_eq_true, decide_eq_true_eq] at hwhole
    exact ⟨_, _, congrArg Except.ok (integerText_eq b.roundEven), shows_whole hb hwhole.1 hwhole.2⟩
  · exact ⟨_, _, rounded_ten b, shows_rounded hb⟩

end Display

/-! ### The value that is read back -/

/-- A number below the overflow limit is rounded to one close to it. -/
theorem Decimal.exists_holds_toFloat {d : Decimal} (h : d.magnitude < (2 ^ 54 - 1) * 2 ^ (970 : ℤ)) :
    ∃ r, Holds d.toFloat (signedRat d.negative r) ∧
      |r - d.magnitude| ≤ d.magnitude / 10 ^ 15 + 1 / 10 ^ 20 := by
  have hlt := h
  rw [magnitude_eq] at hlt
  obtain ⟨r, hr, -, herror⟩ := holds_nearest d.negative (by positivity) hlt
  rw [← magnitude_eq] at herror
  rw [← toFloat_eq] at hr
  exact ⟨r, hr, herror.trans (error_le d.magnitude_nonneg)⟩

theorem Decimal.toFloat_of_le {d : Decimal} (h : 2 ^ (1024 : ℤ) ≤ d.magnitude) :
    d.toFloat = infinity d.negative := by
  rw [magnitude_eq] at h
  rw [toFloat_eq, nearest, nearestBits_of_ge (by positivity) h, infinity]

theorem Literal.holds_signedValue {l : Literal} {r : ℚ} (hr : Holds l.value r) (negative : Bool) :
    Holds (l.signedValue negative) (signedRat negative r) := by
  cases negative
  · exact hr
  · exact hr.neg

namespace Literal.Shows

variable {l : Literal} {negative : Bool} {q : ℚ}

/-- What is displayed of a value below the limit is read as a value close to it. -/
theorem exists_holds (h : l.Shows negative q) (hq : |q| ≤ Decimal.copyLimit) :
    ∃ r, Holds l.value r ∧ |signedRat negative r - q| ≤ max 1 |q| * (7 / 10 ^ 10) := by
  obtain ⟨r, hr, herror⟩ := Decimal.exists_holds_toFloat (h.lt hq)
  refine ⟨r, hr, ?_⟩
  have hmagnitude : |signedRat negative (l.decimal false).magnitude| = (l.decimal false).magnitude := by
    rw [abs_signedRat, abs_of_nonneg (Decimal.magnitude_nonneg _)]
  rw [← abs_signedRat negative, ← signedRat_sub] at herror
  -- The literal is at most twice the scale, so that its rounding is of no account.
  have hone : 1 ≤ max 1 |q| := le_max_left ..
  have hscale : |q| ≤ max 1 |q| := le_max_right ..
  have hclose := h.close
  have hlarge := abs_sub_abs_le_abs_sub (signedRat negative (l.decimal false).magnitude) q
  have htriangle := abs_sub_le (signedRat negative r)
    (signedRat negative (l.decimal false).magnitude) q
  linarith

/-- What is displayed of a value beyond the limit is read as infinity. -/
theorem isFinite_value (h : l.Shows negative q) (hq : Decimal.copyLimit < |q|) :
    l.value.isFinite = false := by
  have hinfinity : (infinity false).isFinite = false := by decide +kernel
  rw [value, Decimal.toFloat_of_le (h.le hq)]
  exact hinfinity

end Literal.Shows
end NumericAnswer
