/-
# Written numbers read back

A number is read up to where it ends: the literal of a whole number gives the
number, any other the double nearest to what it writes. The text of a double
has a point or a power of ten, and its digits were chosen to read back, so it
is read as the double; what is not finite has words of its own.

Key definition: `Json.EndsNumber`.
Key theorems: `Json.readNumber_text`, `Shortest.toFloat_decimal`,
`Json.floatText_eq`.
-/
import Mathlib
import NumericAnswer.Json.Reader
import NumericAnswer.Json.Writer
import NumericAnswer.Proofs.Arithmetic
import NumericAnswer.Proofs.Rendering

namespace NumericAnswer

/-! ### The parts of a number -/

namespace Json

/-- The text does not go on with a number. -/
def EndsNumber (s : Text) : Prop :=
  ∀ c ∈ s.head?, c.isDigit = false ∧ c ≠ '.' ∧ c ≠ 'e' ∧ c ≠ 'E'

theorem span_digits_append {digits rest : Text} (hd : ∀ c ∈ digits, c.isDigit = true)
    (hr : ∀ c ∈ rest.head?, c.isDigit = false) :
    (digits ++ rest).span Char.isDigit = (digits, rest) := by
  have hrest : rest.takeWhile Char.isDigit = [] ∧ rest.dropWhile Char.isDigit = rest := by
    cases rest with
    | nil => exact ⟨rfl, rfl⟩
    | cons c rest =>
      have hc := hr c rfl
      exact ⟨List.takeWhile_cons_of_neg (by simp [hc]), List.dropWhile_cons_of_neg (by simp [hc])⟩
  rw [List.span_eq_takeWhile_dropWhile, List.takeWhile_append_of_pos hd,
    List.dropWhile_append_of_pos hd, hrest.1, hrest.2, List.append_nil]

section Literal

variable {l : Literal} {rest : Text}

theorem spanWhole_append (hl : l.Plain) (hr : ∀ c ∈ rest.head?, c.isDigit = false) :
    spanWhole (l.whole ++ rest) = (l.whole, rest) := by
  rcases hl.leading with hzero | hne
  · rw [hzero]
    rfl
  · have hspan := span_digits_append hl.whole hr
    cases hw : l.whole with
    | nil => exact absurd hw hl.ne_nil
    | cons c whole =>
      rw [hw] at hne hspan
      have hc : c ≠ '0' := fun h => hne (by rw [h]; rfl)
      rw [← hspan, List.cons_append, spanWhole]
      rintro s ⟨rfl, -⟩
      exact hc rfl

/-- The power of ten of a literal, if it has one, is read up to its end. -/
theorem spanPower_append (hl : l.Plain) (hmark : ∀ p ∈ l.power, p.mark = 'e' ∨ p.mark = 'E')
    (hr : EndsNumber rest) :
    spanPower ((l.power.map Literal.Power.text).getD [] ++ rest) =
      (l.power.map Literal.Power.value, rest) := by
  cases hp : l.power with
  | none =>
    cases rest with
    | nil => rfl
    | cons c rest =>
      obtain ⟨-, -, he, hE⟩ := hr c rfl
      simp [spanPower, he, hE]
  | some p =>
    obtain ⟨mark, sign, digits⟩ := p
    obtain ⟨hne, hdigits⟩ := hl.digits _ hp
    have hmark : (mark = 'e' || mark = 'E') = true := by simpa using hmark _ hp
    have hspan := span_digits_append hdigits fun c hc => (hr c hc).1
    cases hd : digits with
    | nil => exact absurd hd hne
    | cons d digits =>
      simp only [hd] at hspan
      rcases hl.sign _ hp with hs | hs
      · obtain rfl : sign = some '-' := hs
        simp only [Option.map_some, Option.getD_some, Literal.Power.text, Option.toList_some,
          List.cons_append, List.nil_append, spanPower, hmark, if_true]
        rw [← List.cons_append, hspan]
        rfl
      · obtain rfl : sign = some '+' := hs
        simp only [Option.map_some, Option.getD_some, Literal.Power.text, Option.toList_some,
          List.cons_append, List.nil_append, spanPower, hmark, if_true]
        rw [← List.cons_append, hspan]
        rfl

/-- What comes after the fraction of a literal goes on with no digit and no point. -/
theorem head_power (hmark : ∀ p ∈ l.power, p.mark = 'e' ∨ p.mark = 'E') (hr : EndsNumber rest) :
    ∀ c ∈ ((l.power.map Literal.Power.text).getD [] ++ rest).head?, c.isDigit = false ∧ c ≠ '.' := by
  cases hp : l.power with
  | none => exact fun c hc => ⟨(hr c hc).1, (hr c hc).2.1⟩
  | some p =>
    intro c hc
    obtain rfl : p.mark = c := Option.some.inj hc
    rcases hmark p hp with h | h <;> rw [h] <;> decide

theorem spanFraction_append (hl : l.Plain)
    (hr : ∀ c ∈ rest.head?, c.isDigit = false ∧ c ≠ '.') :
    spanFraction ((if l.point then ['.'] else []) ++ (l.fraction ++ rest)) =
      (l.fraction, rest) := by
  by_cases hpoint : l.point = true
  · have hspan := span_digits_append hl.fraction fun c hc => (hr c hc).1
    have hne := hl.point.mp hpoint
    cases hf : l.fraction with
    | nil => exact absurd hf hne
    | cons c fraction =>
      rw [hf] at hspan
      rw [if_pos hpoint, List.singleton_append, spanFraction, hspan]
  · have hnil : l.fraction = [] := by
      by_contra hne
      exact hpoint (hl.point.mpr hne)
    rw [if_neg hpoint, hnil, List.nil_append, List.nil_append, spanFraction]
    rintro s rfl
    exact (hr '.' rfl).2 rfl

/-- A literal is read up to its end. -/
theorem readNumber_text (hl : l.Plain) (hmark : ∀ p ∈ l.power, p.mark = 'e' ∨ p.mark = 'E')
    (hr : EndsNumber rest) (negative : Bool) :
    readNumber negative (l.text ++ rest) =
      if l.fraction.isEmpty && l.power.isNone then
        if digitLimit < l.whole.length then .error (.longInteger l.whole.length)
        else .ok (.integer (if negative then -(digitsValue l.whole : Int)
          else digitsValue l.whole), rest)
      else .ok (.float (l.decimal negative).toFloat, rest) := by
  have hpower := head_power hmark hr
  have hfraction := spanFraction_append hl hpower
  have hafter : ∀ c ∈ ((if l.point then ['.'] else []) ++ (l.fraction ++
      ((l.power.map Literal.Power.text).getD [] ++ rest))).head?, c.isDigit = false := by
    by_cases hpoint : l.point = true
    · rw [if_pos hpoint]
      rintro c ⟨rfl⟩
      rfl
    · have hnil : l.fraction = [] := by
        by_contra hne
        exact hpoint (hl.point.mpr hne)
      rw [if_neg hpoint, hnil]
      exact fun c hc => (hpower c hc).1
  have htext : l.text ++ rest = l.whole ++ ((if l.point then ['.'] else []) ++ (l.fraction ++
      ((l.power.map Literal.Power.text).getD [] ++ rest))) := by
    simp [Literal.text]
  rw [readNumber, htext, spanWhole_append hl hafter]
  cases hw : l.whole with
  | nil => exact absurd hw hl.ne_nil
  | cons c whole =>
    simp only [hfraction, spanPower_append hl hmark hr]
    simp [Decimal.toFloat, Literal.decimal, hw]

end Literal

/-! ### Whole numbers -/

/-- The literal of a natural number. -/
def wholeLiteral (n : ℕ) : Literal :=
  ⟨numeral n, false, [], none⟩

theorem text_wholeLiteral (n : ℕ) : (wholeLiteral n).text = numeral n := by
  simp [wholeLiteral, Literal.text]

theorem plain_wholeLiteral (n : ℕ) : (wholeLiteral n).Plain where
  whole := isDigit_of_mem_numeral n
  ne_nil := numeral_ne_nil n
  leading := by
    rcases Nat.eq_zero_or_pos n with rfl | hn
    · exact .inl numeral_zero
    · exact .inr (head_numeral hn)
  fraction := by simp [wholeLiteral]
  point := by simp [wholeLiteral]
  sign := by simp [wholeLiteral]
  digits := by simp [wholeLiteral]

theorem readNumber_numeral {n : ℕ} {rest : Text} (hn : (numeral n).length ≤ digitLimit)
    (hr : EndsNumber rest) (negative : Bool) :
    readNumber negative (numeral n ++ rest) =
      .ok (.integer (if negative then -(n : Int) else n), rest) := by
  have h := readNumber_text (plain_wholeLiteral n) (by simp [wholeLiteral]) hr negative
  rw [text_wholeLiteral] at h
  rw [h]
  simp only [wholeLiteral, List.isEmpty_nil, Option.isNone_none, Bool.and_self, if_true,
    if_neg (Nat.not_lt.mpr hn), digitsValue_numeral]

end Json

/-! ### Doubles -/

/-- The decimal form of a double is exact. -/
theorem Decimal.magnitude_ofBinary (b : Binary) : (ofBinary b).magnitude = b.magnitude := by
  simp only [Decimal.magnitude, Decimal.ofBinary, Binary.magnitude_eq, Binary.denominator,
    Nat.pow_eq]
  rcases Int.le_total 0 b.exponent with he | he
  · have hz : (-b.exponent).toNat = 0 := by omega
    rw [hz, min_eq_right he]
    simp
  · obtain ⟨n, hn⟩ := Int.eq_ofNat_of_zero_le (Int.neg_nonneg.mpr he)
    have hexp : b.exponent = -(n : ℤ) := by omega
    rw [min_eq_left he, hexp, neg_neg, Int.toNat_natCast, zpow_neg, zpow_natCast]
    push_cast
    rw [show (10 : ℚ) = 5 * 2 by norm_num, mul_pow]
    field_simp

namespace Shortest

/-- The exact decimal form rounds to the double itself. -/
theorem toFloat_ofBinary {x : Float} {b : Binary} (h : Binary.ofFloat? x = some b) :
    (Decimal.ofBinary b).toFloat = x := by
  have hvalue := Decimal.magnitude_ofBinary b
  rw [Decimal.toFloat_eq, ← Double.nearest_self h]
  refine Binary.nearest_congr b.negative (by positivity) b.denominator_pos ?_
  rw [Decimal.magnitude_eq, Binary.magnitude_eq, div_eq_div_iff (by positivity)
    (by exact_mod_cast b.denominator_pos.ne')] at hvalue
  exact_mod_cast hvalue

theorem negative_of_candidate? {x : Float} {d c : Decimal} {places : ℕ}
    (h : candidate? x d places = some c) : c.negative = d.negative ∧ c.toFloat = x := by
  have hmem := List.mem_of_find?_eq_some h
  have hbits := List.find?_some h
  constructor
  · simp only [List.mem_cons, List.not_mem_nil, or_false] at hmem
    rcases hmem with rfl | rfl <;> rfl
  · exact Binary.eq_of_toBits (congrArg UInt64.toNat (of_decide_eq_true hbits))

/-- The chosen decimal form reads back, under the sign of the double. -/
theorem toFloat_decimal {x : Float} {b : Binary} (h : Binary.ofFloat? x = some b) :
    (decimal x (Decimal.ofBinary b)).negative = b.negative ∧
      (decimal x (Decimal.ofBinary b)).toFloat = x := by
  unfold decimal
  cases hc : (List.range 17).findSome? fun n => candidate? x (Decimal.ofBinary b) (n + 1) with
  | none => exact ⟨rfl, toFloat_ofBinary h⟩
  | some c =>
    obtain ⟨n, -, hn⟩ := List.exists_of_findSome?_eq_some hc
    exact negative_of_candidate? hn

end Shortest

namespace Json

/-- The literal of a double is no whole number. -/
theorem not_whole_literal (d : Decimal) :
    ((shortestLayout.literal d).fraction.isEmpty && (shortestLayout.literal d).power.isNone) =
      false := by
  unfold Layout.literal
  split
  · unfold Layout.positionalLiteral
    split
    · simp [Decimal.digits, numeral_ne_nil]
    · simp only
      split
      · rfl
      · next fraction hne => simpa using hne
  · unfold Layout.scientificLiteral
    split <;> simp

/-- The text of a finite double is a sign and a literal that stands for the double. -/
theorem floatText_eq {x : Float} {b : Binary} (h : Binary.ofFloat? x = some b) :
    ∃ l : Literal, l.Plain ∧ (∀ p ∈ l.power, p.mark = 'e' ∨ p.mark = 'E') ∧
      (l.fraction.isEmpty && l.power.isNone) = false ∧
      floatText x = (if b.negative then ['-'] else []) ++ l.text ∧
      (l.decimal b.negative).toFloat = x := by
  obtain ⟨hneg, hvalue⟩ := Shortest.toFloat_decimal h
  set d := Shortest.decimal x (Decimal.ofBinary b)
  refine ⟨shortestLayout.literal d, shortestLayout.plain_literal d,
    fun p hp => .inl (shortestLayout.mark_literal d p hp), not_whole_literal d, ?_, ?_⟩
  · rw [floatText, h, ← hneg]
    exact shortestLayout.render_eq d
  · rw [← hneg, shortestLayout.toFloat_literal, hvalue]

/-! ### What is not finite -/

end Json

namespace Double

open Float.Model Float.Model.UnpackedFloat

theorem unpackExponent_eq_iff (v : BitVec 64) :
    @unpackExponent Format.binary64 v = -1#11 ↔ v.toNat / 2 ^ 52 % 2 ^ 11 = 2047 := by
  rw [← toNat_unpackExponent]
  exact ⟨fun h => by rw [h]; rfl, fun h => BitVec.eq_of_toNat_eq h⟩

theorem isFinite_eq (x : Float) : x.isFinite = (Binary.ofFloat? x).isSome := by
  show x.toModel.unpack.isFinite = _
  rw [Bool.eq_iff_iff, Float.Model.unpack, isFinite_unpack, decide_eq_true_iff,
    Option.isSome_iff_ne_none, Binary.ofFloat?_eq_decode?]
  exact not_congr ((unpackExponent_eq_iff _).trans Binary.decode?_eq_none_iff.symm)

theorem Holds.isFinite {x : Float} {q : ℚ} (h : Holds x q) : x.isFinite = true := by
  obtain ⟨b, hb, -⟩ := h
  rw [isFinite_eq, hb]
  rfl

/-- There is one double that is no number. -/
theorem eq_of_isNaN {x : Float} (h : x.isNaN = true) : x = Float.ofBits 0x7ff8000000000000 := by
  have hnan : x.toModel.unpack.isNaN = true := h
  rw [Float.Model.unpack, isNaN_unpack, decide_eq_true_iff] at hnan
  have hbits := x.toModel.valid.eq_packedNaN hnan.1 hnan.2
  refine Binary.eq_of_toBits ?_
  show x.toModel.toBits.toBitVec.toNat = _
  rw [hbits]
  rfl

/-- What is neither finite nor no number is an infinity. -/
theorem eq_infinity {x : Float} (hf : x.isFinite = false) (hn : x.isNaN = false) :
    x = Binary.infinity (decide (x < 0)) := by
  obtain ⟨v, hv⟩ : ∃ v, v = x.toModel.toBits.toBitVec := ⟨_, rfl⟩
  have hf' : (UnpackedFloat.unpack Format.binary64 v).isFinite = false := by rw [hv]; exact hf
  have hn' : (UnpackedFloat.unpack Format.binary64 v).isNaN = false := by rw [hv]; exact hn
  rw [isFinite_unpack, decide_eq_false_iff_not, not_not] at hf'
  rw [isNaN_unpack, decide_eq_false_iff_not, not_and, not_not] at hn'
  have hexponent : v.toNat / 2 ^ 52 % 2 ^ 11 = 2047 := (unpackExponent_eq_iff v).mp hf'
  have hmantissa : v.toNat % 2 ^ 52 = 0 := by
    rw [← toNat_unpackMantissa v, hn' hf']
    rfl
  have hlt : v.toNat < 2 ^ 64 := v.isLt
  obtain ⟨negative, hbits⟩ : ∃ negative : Bool, v.toNat = 2047 * 2 ^ 52 + negative.toNat * 2 ^ 63 := by
    by_cases hs : 2 ^ 63 ≤ v.toNat
    · exact ⟨true, by rw [Bool.toNat_true]; omega⟩
    · exact ⟨false, by rw [Bool.toNat_false]; omega⟩
  have hunpack : x.toModel.unpack = .infinity (signOf negative) := by
    rw [Float.Model.unpack, ← hv]
    exact Binary.unpack_of_infinite hbits
  have hsign : decide (x < 0) = negative := by
    have hlt : x < 0 ↔ x.toModel.unpack.lt (.zero .positive) = true := by
      show decide (x.toModel < (0 : Float).toModel) = true ↔ _
      rw [decide_eq_true_iff]
      rfl
    rw [Bool.eq_iff_iff, decide_eq_true_iff, hlt, hunpack]
    cases negative <;> decide
  refine Binary.eq_of_toBits ?_
  rw [hsign, Binary.infinity, Binary.toBits_signed _ le_rfl, Binary.infinityBits_eq, ← hbits, hv]
  rfl

end Double
end NumericAnswer
