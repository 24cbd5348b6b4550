/-
# The notation of displayed values

A value is displayed as zero, as the whole number that it is within the tolerance
of, or as the correctly rounded decimal. A rounded value is written without
superfluous zeros: positionally if its first digit stands at most seven places
after the point and within the digits asked for, else with one digit before the
point and a power of ten. What is displayed reads as one number.

Key definitions: `Literal.number`, `Literal.Neat`, `Display.Shown`.
Key theorems: `Layout.neat_literal`, `Display.text_shown`, `Access.displayText_shown`.
-/
import NumericAnswer.Proofs.Limits
import NumericAnswer.Proofs.Queries

namespace NumericAnswer

open Binary Double

/-! ### Digits -/

theorem getLast?_numeral (n : ℕ) : (numeral n).getLast? = some (Nat.digitChar (n % 10)) := by
  rw [numeral]
  split
  · next h => rw [Nat.mod_eq_of_lt h, List.getLast?_singleton]
  · rw [List.getLast?_concat]

/-- A numeral ends in a zero only if the number is a multiple of ten. -/
theorem getLast?_numeral_ne {n : ℕ} (h : n % 10 ≠ 0) : (numeral n).getLast? ≠ some '0' := by
  have hdigit : ∀ k < 10, k ≠ 0 → Nat.digitChar k ≠ '0' := by decide
  rw [getLast?_numeral]
  exact fun heq => hdigit _ (Nat.mod_lt n (by norm_num)) h (Option.some.inj heq)

namespace Decimal

theorem trimmed_mod (e : ℤ) {c : ℕ} (hc : c ≠ 0) : (trimmed c e).1 % 10 ≠ 0 := by
  induction c, e using trimmed.induct with
  | case1 e => exact absurd rfl hc
  | case2 c e _ hdiv ih =>
    rw [trimmed, if_neg hc, if_pos hdiv]
    exact ih (by omega)
  | case3 c e _ hdiv => rwa [trimmed, if_neg hc, if_neg hdiv]

/-- A number other than zero is not rounded to zero. -/
theorem coefficient_round_pos {places : ℕ} (hplaces : 0 < places) {d : Decimal}
    (h : 0 < d.coefficient) : 0 < (d.round places).coefficient := by
  have hexcess : d.digits.length - places ≤ (numeral d.coefficient).length - 1 :=
    Nat.sub_le_sub_left hplaces _
  have hle : 10 ^ (d.digits.length - places) ≤ d.coefficient :=
    (Nat.pow_le_pow_right (by norm_num) hexcess).trans (pow_length_numeral_le h)
  have hpos : 0 < 10 ^ (d.digits.length - places) := by positivity
  have hlt : (2 * 0 + 1) * 10 ^ (d.digits.length - places) < 2 * d.coefficient := by omega
  exact lt_roundQuotient hpos hlt

/-- The exponent of the first digit is the logarithm of the number. -/
theorem log_magnitude {d : Decimal} (h : 0 < d.coefficient) : Int.log 10 d.magnitude = d.leading := by
  have hlength : 0 < d.digits.length := List.length_pos_iff.mpr (numeral_ne_nil _)
  have hlow : (10 : ℚ) ^ (d.digits.length - 1) ≤ d.coefficient := by
    exact_mod_cast pow_length_numeral_le h
  have hhigh : (d.coefficient : ℚ) < 10 ^ d.digits.length := by
    exact_mod_cast lt_pow_length_numeral d.coefficient
  have hpos : 0 < d.magnitude := mul_pos (by exact_mod_cast h) (by positivity)
  have hexponent : (0 : ℚ) < 10 ^ d.exponent := by positivity
  refine le_antisymm (Int.lt_add_one_iff.mp ?_) ?_
  · rw [← Int.lt_zpow_iff_log_lt (by norm_num) hpos, leading, sub_add_cancel, add_comm,
      Nat.cast_ofNat, zpow_add₀ (by norm_num), zpow_natCast]
    exact mul_lt_mul_of_pos_right hhigh hexponent
  · rw [← Int.zpow_le_iff_le_log (by norm_num) hpos, leading,
      show d.exponent + d.digits.length - 1 = (d.digits.length - 1 : ℕ) + d.exponent by omega,
      Nat.cast_ofNat, zpow_add₀ (by norm_num), zpow_natCast]
    exact mul_le_mul_of_nonneg_right hlow hexponent.le

end Decimal

/-! ### Literals -/

namespace Literal

/-- The number that a literal writes, as a rational number. -/
def number (l : Literal) : ℚ :=
  (l.decimal false).magnitude

/-- The literal is in the notation of displayed values. -/
structure Neat (places : ℕ) (l : Literal) : Prop where
  plain : l.Plain
  positional : l.power = none ↔ -7 ≤ Int.log 10 l.number ∧ Int.log 10 l.number < places
  scientific : ∀ p ∈ l.power, p.mark = 'E' ∧ p.value = Int.log 10 l.number ∧
    l.whole.length = 1 ∧ l.whole ≠ ['0']
  fraction : l.fraction.getLast? ≠ some '0'

end Literal

namespace Layout

variable {layout : Layout} {digits : Text} {leading : ℤ}

theorem power_positionalLiteral (layout : Layout) (digits : Text) (leading : ℤ) :
    (layout.positionalLiteral digits leading).power = none := by
  unfold positionalLiteral
  split
  · rfl
  · simp only
    split
    · split <;> rfl
    · rfl

theorem power_scientificLiteral (layout : Layout) (digits : Text) (leading : ℤ) :
    (layout.scientificLiteral digits leading).power = some (layout.powerLiteral leading) := by
  unfold scientificLiteral
  split <;> rfl

/-- The digits after the point end as all digits do. -/
theorem getLast?_fraction_positionalLiteral (hmarks : layout.marksWhole = false)
    (hdigits : digits ≠ []) (h : digits.getLast? ≠ some '0') :
    (layout.positionalLiteral digits leading).fraction.getLast? ≠ some '0' := by
  unfold positionalLiteral
  split
  · rwa [List.getLast?_append_of_ne_nil _ hdigits]
  · simp only
    split
    · rw [if_neg (by simp [hmarks])]
      simp
    · next hdrop =>
      rwa [List.getLast?_drop, if_neg (mt List.drop_eq_nil_of_le hdrop)]

theorem getLast?_fraction_scientificLiteral (h : digits.getLast? ≠ some '0') :
    (layout.scientificLiteral digits leading).fraction.getLast? ≠ some '0' := by
  unfold scientificLiteral
  split
  · rwa [List.getLast?_cons_cons] at h
  · simp

/-- One digit is before the point, the first one. -/
theorem whole_scientificLiteral {n : ℕ} (hn : 0 < n) :
    (layout.scientificLiteral (numeral n) leading).whole.length = 1 ∧
      (layout.scientificLiteral (numeral n) leading).whole ≠ ['0'] := by
  have hhead := head_numeral hn
  unfold scientificLiteral
  split
  · next heq =>
    rw [heq] at hhead
    exact ⟨rfl, fun h => hhead (by rw [List.head?_cons, (List.cons.inj h).1])⟩
  · next hdigits =>
    cases hd : numeral n with
    | nil => exact absurd hd (numeral_ne_nil n)
    | cons c s =>
      cases s with
      | nil =>
        rw [hd] at hhead
        exact ⟨rfl, fun h => hhead (congrArg List.head? h)⟩
      | cons c' s => exact absurd hd (hdigits c c' s)

/-- A rounded number other than zero is written in the notation of displayed
values. -/
theorem neat_literal (places : ℕ) {d : Decimal} (hd : 0 < d.coefficient) :
    ((Display.layout places).literal d).Neat places := by
  have hmod := Decimal.trimmed_mod d.exponent hd.ne'
  have htrim : 0 < d.trim.coefficient := Nat.pos_of_ne_zero fun h0 => hmod (by
    rw [show (Decimal.trimmed d.coefficient d.exponent).1 = 0 from h0])
  have hlast : d.trim.digits.getLast? ≠ some '0' := getLast?_numeral_ne hmod
  have hlog : Int.log 10 ((Display.layout places).literal d).number = d.trim.leading := by
    rw [Literal.number, magnitude_literal, ← Decimal.magnitude_trim, Decimal.log_magnitude htrim]
  have hplain := (Display.layout places).plain_literal d
  constructor
  · exact hplain
  all_goals unfold literal at hlog ⊢
  · rw [hlog]
    split
    · next h =>
      rw [Bool.and_eq_true, decide_eq_true_iff, decide_eq_true_iff] at h
      exact iff_of_true (power_positionalLiteral ..) h
    · next h =>
      rw [Bool.and_eq_true, decide_eq_true_iff, decide_eq_true_iff] at h
      rw [power_scientificLiteral]
      exact iff_of_false (Option.some_ne_none _) h
  · rw [hlog]
    split
    · rw [power_positionalLiteral]
      simp
    · rw [power_scientificLiteral]
      rintro p ⟨rfl⟩
      exact ⟨rfl, value_powerLiteral _ _, whole_scientificLiteral htrim⟩
  · split
    · exact getLast?_fraction_positionalLiteral rfl (numeral_ne_nil _) hlast
    · exact getLast?_fraction_scientificLiteral hlast

end Layout

/-! ### Displayed values -/

/-- The display of a value `v` whose nearest whole number is `m`. -/
inductive Display.Shown (limit : WithTop ℚ) (places : ℕ) (v : ℚ) (m : ℤ) : Text → Prop where
  | zero (hv : v = 0) : Shown limit places v m ['0']
  /-- The value is close to a whole number other than zero, and not too large. -/
  | whole (hv : v ≠ 0) (hm : m ≠ 0) (hclose : ((|v - m| : ℚ) : WithTop ℚ) < limit)
      (hlarge : |m| < 10 ^ 21) : Shown limit places v m (integerText m)
  /-- Any other value is correctly rounded and keeps its sign. -/
  | rounded (hv : v ≠ 0)
      (hm : ¬(m ≠ 0 ∧ ((|v - m| : ℚ) : WithTop ℚ) < limit ∧ |m| < 10 ^ 21)) {l : Literal}
      (hl : l.Neat places) (hl0 : l.number ≠ 0)
      (hround : Decimal.RoundsTo places v (signedRat (decide (v < 0)) l.number)) :
      Shown limit places v m (l.signedText (decide (v < 0)))

/-- The text is a number literal with a minus sign at most, other than `-0`. -/
def Literal.Reads (text : Text) : Prop :=
  text ≠ ['-', '0'] ∧ ∃ (l : Literal) (negative : Bool), text = l.signedText negative ∧
    (∃ ts, tokens text = .ok ts ∧
      symbolsOf ts = (if negative then [.operator .minus] else []) ++ [.number l]) ∧
    Expr.parse text = .ok (l.signedExpr negative)

namespace Literal

variable {l : Literal} {negative : Bool}

theorem Formed.exists_tokens (h : l.Formed) (negative : Bool) :
    ∃ ts, tokens (l.signedText negative) = .ok ts ∧
      symbolsOf ts = (if negative then [.operator .minus] else []) ++ [.number l] := by
  cases negative with
  | false => exact (Written.number l h.read?_text).exists_tokens_text
  | true => exact (Written.neg (.number l h.read?_text)).exists_tokens_text

/-- Only a negative zero is written as `-0`. -/
theorem Formed.signedText_ne (h : l.Formed) (hzero : l.number = 0 → negative = false) :
    l.signedText negative ≠ ['-', '0'] := by
  intro htext
  have hread := h.read?_text
  cases negative with
  | false =>
    rw [show l.text = ['-', '0'] from htext] at hread
    cases hread
  | true =>
    rw [show l.text = ['0'] from (List.cons.inj htext).2] at hread
    have hl : l = ⟨['0'], false, [], none⟩ := (Prod.mk.inj (Option.some.inj hread)).1.symm
    have hnumber : l.number = 0 := by
      rw [hl]
      exact zero_mul _
    cases hzero hnumber

theorem Formed.reads (h : l.Formed) (hzero : l.number = 0 → negative = false) :
    Reads (l.signedText negative) :=
  ⟨h.signedText_ne hzero, l, negative, rfl, h.exists_tokens negative, h.parse_signedText negative⟩

end Literal

theorem reads_integerText (m : ℤ) : Literal.Reads (integerText m) := by
  rw [integerText_eq]
  refine (Json.formed_wholeLiteral _).reads fun h => ?_
  rw [Literal.number, Json.magnitude_wholeLiteral, Nat.cast_eq_zero, Int.natAbs_eq_zero] at h
  rw [h]
  rfl

namespace Display

variable {limit : WithTop ℚ} {places : ℕ} {v : ℚ} {m : ℤ} {shown : Text}

/-- What is displayed reads as one number. -/
theorem Shown.reads (h : Shown limit places v m shown) : Literal.Reads shown := by
  cases h with
  | zero =>
    have hzero : integerText 0 = ['0'] := numeral_zero
    exact hzero ▸ reads_integerText 0
  | whole => exact reads_integerText m
  | rounded _ _ hl hl0 _ =>
    refine (hl.plain.formed fun p hp => .inr (hl.scientific p hp).1).reads fun h => ?_
    exact absurd h hl0

/-- A value other than zero, rounded. -/
theorem exists_rounded (hplaces : 0 < places) (hmax : places ≤ maxPlaces) {b : Binary}
    (hb : b.toRat ≠ 0) : ∃ l : Literal, l.Neat places ∧ l.number ≠ 0 ∧
      Decimal.RoundsTo places b.toRat (signedRat (decide (b.toRat < 0)) l.number) ∧
      rounded places b = .ok (l.signedText (decide (b.toRat < 0))) := by
  have hpos := magnitude_pos_of_ne_zero hb
  have hsign := negative_eq hb
  have hround := Decimal.roundsTo_round hplaces (Decimal.ofBinary b)
  rw [Decimal.magnitude_ofBinary, show (Decimal.ofBinary b).negative = b.negative from rfl,
    ← toRat_eq] at hround
  have hcoefficient : 0 < ((Decimal.ofBinary b).round places).coefficient := by
    refine Decimal.coefficient_round_pos hplaces (Nat.pos_of_ne_zero fun h0 => hpos.ne' ?_)
    rw [← Decimal.magnitude_ofBinary, Decimal.magnitude, h0, Nat.cast_zero, zero_mul]
  refine ⟨(layout places).literal ((Decimal.ofBinary b).round places),
    Layout.neat_literal places hcoefficient, ?_, ?_, ?_⟩
  · rw [Literal.number, Layout.magnitude_literal]
    exact (mul_pos (by exact_mod_cast hcoefficient) (by positivity)).ne'
  · rw [Literal.number, Layout.magnitude_literal, ← hsign]
    exact hround
  · rw [rounded_eq hmax, hsign]

/-- The display of a finite value, for any digits and any tolerance above 0. -/
theorem text_shown {settings : Settings} {x : Float} {b : Binary}
    (hlimit : (settings.get .integerTolerance).limit? = some limit) (hpos : 0 < limit)
    (hplaces : 0 < places) (hmax : places ≤ maxPlaces) (hb : ofFloat? x = some b)
    (hm : NearestEven b.toRat m) :
    ∃ shown, text settings (some (.integer places)) x = .ok shown ∧
      Shown limit places b.toRat m shown := by
  obtain ⟨t, ht, hlimits⟩ := Json.exists_threshold hlimit hpos
  obtain rfl := hm.unique b.nearestEven_roundEven
  have htext : text settings (some (.integer places)) x =
      if x == 0 then .ok ['0']
      else if b.roundEven = 0 then rounded places b
      else if offWhole x b.roundEven < t && b.roundEven.natAbs < wholeLimit then
        .ok (integerText b.roundEven)
      else rounded places b := by
    have hplaces : placesOf (.integer places) = .ok places := by
      show Except.ok (max 1 (places : ℤ).toNat) = _
      rw [Int.toNat_natCast, max_eq_right hplaces]
    rw [text, Option.getD_some, hplaces, hb, ht]
    rfl
  have hclose : offWhole x b.roundEven < t ↔ ((|b.toRat - b.roundEven| : ℚ) : WithTop ℚ) < limit :=
    hlimits.lt_iff (holds_offWhole hb) (b.nearestEven_roundEven.close.trans_lt (by norm_num))
  have hlarge : b.roundEven.natAbs < wholeLimit ↔ |b.roundEven| < 10 ^ 21 := by
    rw [Int.abs_eq_natAbs, wholeLimit, Nat.pow_eq]
    exact_mod_cast Iff.rfl
  rw [htext]
  split_ifs with hzero hsmall hwhole
  · exact ⟨_, rfl, .zero (((holds_of_ofFloat? hb).beq_iff holds_zero).mp hzero)⟩
  all_goals
    have hv : b.toRat ≠ 0 := fun hv =>
      hzero (((holds_of_ofFloat? hb).beq_iff holds_zero).mpr hv)
    obtain ⟨l, hl, hl0, hround, hrounded⟩ := exists_rounded hplaces hmax hv
  · exact ⟨_, hrounded, .rounded hv (fun h => h.1 hsmall) hl hl0 hround⟩
  · rw [Bool.and_eq_true, decide_eq_true_iff, decide_eq_true_iff, hclose, hlarge] at hwhole
    exact ⟨_, rfl, .whole hv hsmall hwhole.1 hwhole.2⟩
  · rw [Bool.and_eq_true, decide_eq_true_iff, decide_eq_true_iff, hclose, hlarge] at hwhole
    exact ⟨_, hrounded, .rounded hv (fun h => hwhole h.2) hl hl0 hround⟩

end Display

namespace Access

/-- **Correct rounding and notation.** A finite value is displayed as zero, as a
whole number within the tolerance or as the correctly rounded decimal, and what
is displayed reads as one number. -/
theorem displayText_shown {store : Store} {settings : Settings}
    (hstore : store.read.1 = .ok settings) {limit : WithTop ℚ}
    (hlimit : (settings.get .integerTolerance).limit? = some limit) (hpos : 0 < limit) {places : ℕ}
    (hleast : 1 ≤ places) (hmost : places ≤ 10 ^ 6) {x : Float} {b : Binary}
    (hb : ofFloat? x = some b) {m : ℤ} (hm : NearestEven b.toRat m) :
    ∃ shown, (displayText (some (.integer places)) x store).1 = .ok shown ∧
      Display.Shown limit places b.toRat m shown ∧ Literal.Reads shown := by
  have hmax : places ≤ Display.maxPlaces := hmost.trans (by norm_num [Display.maxPlaces])
  obtain ⟨shown, htext, hshown⟩ := Display.text_shown hlimit hpos hleast hmax hb hm
  refine ⟨shown, ?_, hshown, hshown.reads⟩
  rw [← Request.access_formatQuery, Query.access_eq, hstore]
  exact htext

/-- A third, with four digits. -/
theorem displayText_shown_third : ∃ limit : WithTop ℚ,
    (Settings.default.get .integerTolerance).limit? = some limit ∧ 0 < limit ∧
      ∃ shown, (displayText (some (.integer (4 : ℕ))) (Float.ofBits 0x3fd5555555555555)
          (Store.initial none true)).1 = .ok shown ∧
        Display.Shown limit 4 (Binary.toRat ⟨false, 6004799503160661, -54⟩) 0 shown ∧
        Literal.Reads shown := by
  obtain ⟨limit, hlimit, hpos⟩ := Settings.builtin_default.exists_limit
  have hbits : Binary.ofFloat? (Float.ofBits 0x3fd5555555555555) =
      some ⟨false, 6004799503160661, -54⟩ := by decide +kernel
  have hwhole : Binary.roundEven ⟨false, 6004799503160661, -54⟩ = 0 := by decide +kernel
  exact ⟨limit, hlimit, hpos, displayText_shown rfl hlimit hpos (by norm_num) (by norm_num) hbits
    (hwhole ▸ Binary.nearestEven_roundEven _)⟩

end Access
end NumericAnswer
