/-
# Written numbers as literals

A number in a layout is a sign and a literal of ASCII digits. The literal
writes the number itself: what the layout does with the digits, the point and
the power of ten changes no value, and a number with the same value rounds to
the same double.

Key definitions: `Decimal.magnitude`, `Layout.literal`, `Literal.Plain`.
Key theorems: `Layout.render_eq`, `Layout.plain_literal`,
`Layout.magnitude_literal`, `Decimal.toFloat_congr`.
-/
import Mathlib
import NumericAnswer.Number.Shortest
import NumericAnswer.Proofs.Literals
import NumericAnswer.Proofs.Nearest

namespace NumericAnswer

/-! ### Rows of digits -/

theorem digitsValue_append (s t : Text) :
    digitsValue (s ++ t) = digitsValue s * 10 ^ t.length + digitsValue t := by
  induction t using List.reverseRecOn with
  | nil => simp [digitsValue]
  | append_singleton t c ih =>
    rw [← List.append_assoc, digitsValue_append_singleton, digitsValue_append_singleton, ih,
      List.length_append, List.length_singleton, pow_succ]
    ring

theorem digitsValue_replicate_zero (n : ℕ) : digitsValue (List.replicate n '0') = 0 := by
  induction n with
  | zero => rfl
  | succ n ih =>
    have hz : digitValue? '0' = some 0 := by decide
    rw [List.replicate_succ', digitsValue_append_singleton, ih, hz]
    rfl

theorem numeral_zero : numeral 0 = ['0'] := by
  rw [numeral]
  rfl

theorem isDigit_digitChar : ∀ n < 10, (Nat.digitChar n).isDigit = true := by
  decide

/-- A numeral has ASCII digits only. -/
theorem isDigit_of_mem_numeral (n : ℕ) : ∀ c ∈ numeral n, c.isDigit = true := by
  induction n using Nat.strongRecOn with
  | _ n ih =>
    intro c hc
    rw [numeral] at hc
    split at hc
    · next h =>
      rw [List.mem_singleton] at hc
      exact hc ▸ isDigit_digitChar n h
    · next h =>
      rcases List.mem_append.mp hc with hc | hc
      · exact ih (n / 10) (by omega) c hc
      · rw [List.mem_singleton] at hc
        exact hc ▸ isDigit_digitChar _ (Nat.mod_lt _ (by omega))

/-- A numeral begins with a zero only if it is that of zero. -/
theorem head_numeral {n : ℕ} (hn : 0 < n) : (numeral n).head? ≠ some '0' := by
  induction n using Nat.strongRecOn with
  | _ n ih =>
    rw [numeral]
    split
    · next h =>
      have hdigit : ∀ k < 10, 0 < k → Nat.digitChar k ≠ '0' := by decide
      simpa using hdigit n h hn
    · next h =>
      rw [List.head?_append_of_ne_nil _ (numeral_ne_nil _)]
      exact ih (n / 10) (by omega) (by omega)

theorem isDecimalDigit_of_isDigit {c : Char} (h : c.isDigit = true) : isDecimalDigit c = true := by
  have hrange : 48 ≤ c.toNat ∧ c.toNat ≤ 57 := by
    simpa [Char.isDigit, UInt32.le_iff_toNat_le] using h
  have hfirst : (0x30 ≤ c.toNat && c.toNat ≤ 0x30 + 9) = true := by
    simp only [Bool.and_eq_true, decide_eq_true_eq]
    omega
  rw [isDecimalDigit, digitValue?, Option.isSome_map, List.find?_isSome]
  exact ⟨0x30, List.mem_cons_self .., hfirst⟩

theorem getD_digitValue?_le (c : Char) : (digitValue? c).getD 0 ≤ 9 := by
  cases h : digitValue? c with
  | none => simp
  | some n => exact digitValue?_le h

theorem digitsValue_lt (s : Text) : digitsValue s < 10 ^ s.length := by
  induction s using List.reverseRecOn with
  | nil => simp [digitsValue]
  | append_singleton s c ih =>
    have hc := getD_digitValue?_le c
    rw [digitsValue_append_singleton, List.length_append, List.length_singleton, pow_succ]
    omega

theorem lt_pow_length_numeral (n : ℕ) : n < 10 ^ (numeral n).length := by
  have h := digitsValue_lt (numeral n)
  rwa [digitsValue_numeral] at h

theorem pow_length_numeral_le {n : ℕ} (hn : 0 < n) : 10 ^ ((numeral n).length - 1) ≤ n := by
  induction n using Nat.strongRecOn with
  | _ n ih =>
    rw [numeral]
    split
    · exact hn
    · next h =>
      have ih := ih (n / 10) (by omega) (by omega)
      have hpos : 0 < (numeral (n / 10)).length := List.length_pos_iff.mpr (numeral_ne_nil _)
      obtain ⟨k, hk⟩ := Nat.exists_eq_succ_of_ne_zero hpos.ne'
      rw [List.length_append, List.length_singleton, Nat.add_sub_cancel, hk, pow_succ]
      rw [hk, Nat.succ_sub_one] at ih
      omega

/-- No number has more digits than it was written with. -/
theorem length_numeral_digitsValue {s : Text} (hs : s ≠ []) :
    (numeral (digitsValue s)).length ≤ s.length := by
  rcases Nat.eq_zero_or_pos (digitsValue s) with h0 | hpos
  · rw [h0, numeral_zero]
    exact List.length_pos_iff.mpr hs
  · have hlt := (pow_length_numeral_le hpos).trans_lt (digitsValue_lt s)
    have := (Nat.pow_lt_pow_iff_right (by norm_num)).mp hlt
    omega

/-! ### Decimal numbers -/

namespace Decimal

/-- The magnitude as a rational number. -/
def magnitude (d : Decimal) : ℚ := d.coefficient * 10 ^ d.exponent

theorem magnitude_nonneg (d : Decimal) : 0 ≤ d.magnitude :=
  mul_nonneg (Nat.cast_nonneg _) (by positivity)

theorem ten_zpow_eq (e : ℤ) : (10 : ℚ) ^ e = 10 ^ e.toNat / 10 ^ (-e).toNat := by
  rcases Int.le_total 0 e with h | h
  · obtain ⟨n, rfl⟩ := Int.eq_ofNat_of_zero_le h
    simp
  · obtain ⟨n, hn⟩ := Int.eq_ofNat_of_zero_le (Int.neg_nonneg.mpr h)
    obtain rfl : e = -(n : ℤ) := by omega
    simp

theorem magnitude_eq (d : Decimal) :
    d.magnitude = (d.coefficient * 10 ^ d.exponent.toNat : ℕ) / (10 ^ (-d.exponent).toNat : ℕ) := by
  rw [magnitude, ten_zpow_eq]
  push_cast
  ring

theorem toFloat_eq (d : Decimal) : d.toFloat = Binary.nearest d.negative
    (d.coefficient * 10 ^ d.exponent.toNat) (10 ^ (-d.exponent).toNat) :=
  Binary.ofDecimal_eq_nearest _ _ _

/-- Numbers of the same sign and value round to the same double. -/
theorem toFloat_congr {d d' : Decimal} (hs : d.negative = d'.negative)
    (hm : d.magnitude = d'.magnitude) : d.toFloat = d'.toFloat := by
  rw [magnitude_eq, magnitude_eq, div_eq_div_iff (by positivity) (by positivity)] at hm
  rw [toFloat_eq, toFloat_eq, hs]
  exact Binary.nearest_congr _ (by positivity) (by positivity) (by exact_mod_cast hm)

theorem trimmed_spec (c : ℕ) (e : ℤ) :
    ((trimmed c e).1 : ℚ) * 10 ^ (trimmed c e).2 = c * 10 ^ e := by
  induction c, e using trimmed.induct with
  | case1 e => simp [trimmed]
  | case2 c e hc hdiv ih =>
    have hc' : ((c / 10 : ℕ) : ℚ) * 10 = c := by exact_mod_cast Nat.div_mul_cancel (Nat.dvd_of_mod_eq_zero hdiv)
    rw [trimmed, if_neg hc, if_pos hdiv, ih, zpow_add_one₀ (by norm_num)]
    linear_combination (10 : ℚ) ^ e * hc'
  | case3 c e hc hdiv => rw [trimmed, if_neg hc, if_neg hdiv]

@[simp] theorem magnitude_trim (d : Decimal) : d.trim.magnitude = d.magnitude :=
  trimmed_spec d.coefficient d.exponent

end Decimal

/-! ### Literals -/

/-- The literal has ASCII digits, one at least before the point, and no
superfluous zero in front. -/
structure Literal.Plain (l : Literal) : Prop where
  whole : ∀ c ∈ l.whole, c.isDigit = true
  ne_nil : l.whole ≠ []
  leading : l.whole = ['0'] ∨ l.whole.head? ≠ some '0'
  fraction : ∀ c ∈ l.fraction, c.isDigit = true
  point : l.point = true ↔ l.fraction ≠ []
  sign : ∀ p ∈ l.power, p.sign = some '-' ∨ p.sign = some '+'
  digits : ∀ p ∈ l.power, p.digits ≠ [] ∧ ∀ c ∈ p.digits, c.isDigit = true

namespace Layout

def positionalLiteral (layout : Layout) (digits : Text) (leading : ℤ) : Literal :=
  if leading < 0 then
    ⟨['0'], true, List.replicate (-leading - 1).toNat '0' ++ digits, none⟩
  else
    let places := leading.toNat + 1
    let whole := digits.take places ++ List.replicate (places - digits.length) '0'
    match digits.drop places with
    | [] => if layout.marksWhole then ⟨whole, true, ['0'], none⟩ else ⟨whole, false, [], none⟩
    | fraction => ⟨whole, true, fraction, none⟩

def powerLiteral (layout : Layout) (leading : ℤ) : Literal.Power where
  mark := layout.mark
  sign := some (if leading < 0 then '-' else '+')
  digits := List.replicate (layout.width - (numeral leading.natAbs).length) '0' ++
    numeral leading.natAbs

def scientificLiteral (layout : Layout) (digits : Text) (leading : ℤ) : Literal :=
  match digits with
  | first :: second :: more => ⟨[first], true, second :: more, some (layout.powerLiteral leading)⟩
  | digits => ⟨digits, false, [], some (layout.powerLiteral leading)⟩

/-- The literal that a number is written as, apart from its sign. -/
def literal (layout : Layout) (d : Decimal) : Literal :=
  if layout.least ≤ d.trim.leading && d.trim.leading < layout.below then
    layout.positionalLiteral d.trim.digits d.trim.leading
  else layout.scientificLiteral d.trim.digits d.trim.leading

theorem text_positionalLiteral (layout : Layout) (digits : Text) (leading : ℤ) :
    (layout.positionalLiteral digits leading).text = layout.positional digits leading := by
  unfold positionalLiteral positional
  split
  · simp [Literal.text]
  · simp only
    cases digits.drop (leading.toNat + 1) with
    | nil => cases layout.marksWhole <;> simp [Literal.text]
    | cons c fraction => simp [Literal.text]

theorem text_scientificLiteral (layout : Layout) (digits : Text) (leading : ℤ) :
    (layout.scientificLiteral digits leading).text = layout.scientific digits leading := by
  unfold scientificLiteral scientific
  split <;> simp [Literal.text, Literal.Power.text, powerLiteral, power]

/-- What a layout writes is a sign and a literal. -/
theorem render_eq (layout : Layout) (d : Decimal) :
    layout.render d = (if d.negative then ['-'] else []) ++ (layout.literal d).text := by
  have htext : (layout.literal d).text =
      if layout.least ≤ d.trim.leading && d.trim.leading < layout.below then
        layout.positional d.trim.digits d.trim.leading
      else layout.scientific d.trim.digits d.trim.leading := by
    rw [literal]
    split
    · exact text_positionalLiteral ..
    · exact text_scientificLiteral ..
  rw [htext, render]
  cases hn : d.negative <;> simp [Decimal.trim, hn]

/-! ### Digits -/

theorem plain_scientificLiteral (layout : Layout) {n : ℕ} (leading : ℤ) :
    (layout.scientificLiteral (numeral n) leading).Plain := by
  have hdigit := isDigit_of_mem_numeral n
  have hpower : (∀ p ∈ some (layout.powerLiteral leading), p.sign = some '-' ∨ p.sign = some '+') ∧
      ∀ p ∈ some (layout.powerLiteral leading), p.digits ≠ [] ∧ ∀ c ∈ p.digits, c.isDigit = true := by
    constructor
    · rintro p ⟨rfl⟩
      by_cases h : leading < 0
      · exact .inl (by simp [powerLiteral, h])
      · exact .inr (by simp [powerLiteral, h])
    · rintro p ⟨rfl⟩
      refine ⟨by simp [powerLiteral, numeral_ne_nil], ?_⟩
      intro c hc
      rcases List.mem_append.mp hc with hc | hc
      · rw [List.eq_of_mem_replicate hc]
        rfl
      · exact isDigit_of_mem_numeral _ c hc
  have hleading : numeral n = ['0'] ∨ (numeral n).head? ≠ some '0' := by
    rcases Nat.eq_zero_or_pos n with rfl | hn
    · exact .inl numeral_zero
    · exact .inr (head_numeral hn)
  unfold scientificLiteral
  split
  · next first second more heq =>
    rw [heq] at hdigit hleading
    exact ⟨by simpa using hdigit first (List.mem_cons_self ..), by simp,
      .inr (by simpa using hleading), fun c hc => hdigit c (List.mem_cons_of_mem _ hc), by simp,
      hpower.1, hpower.2⟩
  · exact ⟨hdigit, numeral_ne_nil n, hleading, by simp, by simp, hpower.1, hpower.2⟩

theorem isDigit_of_mem_replicate (k : ℕ) : ∀ c ∈ List.replicate k '0', c.isDigit = true := by
  intro c hc
  rw [List.eq_of_mem_replicate hc]
  rfl

/-- The digits before the point, filled up with zeros. -/
def wholePart (digits : Text) (places : ℕ) : Text :=
  digits.take places ++ List.replicate (places - digits.length) '0'

theorem isDigit_of_mem_wholePart (n places : ℕ) :
    ∀ c ∈ wholePart (numeral n) places, c.isDigit = true := by
  intro c hc
  rcases List.mem_append.mp hc with hc | hc
  · exact isDigit_of_mem_numeral n c (List.mem_of_mem_take hc)
  · exact isDigit_of_mem_replicate _ c hc

theorem wholePart_succ_ne_nil (n places : ℕ) : wholePart (numeral n) (places + 1) ≠ [] := by
  cases hd : numeral n with
  | nil => exact absurd hd (numeral_ne_nil n)
  | cons c s => simp [wholePart]

theorem head_wholePart {n : ℕ} (places : ℕ) (hzero : n = 0 → places = 0) :
    wholePart (numeral n) (places + 1) = ['0'] ∨
      (wholePart (numeral n) (places + 1)).head? ≠ some '0' := by
  rcases Nat.eq_zero_or_pos n with rfl | hn
  · rw [hzero rfl, numeral_zero]
    exact .inl rfl
  · have hhead := head_numeral hn
    right
    cases hd : numeral n with
    | nil => exact absurd hd (numeral_ne_nil n)
    | cons c s =>
      rw [hd] at hhead
      simpa [wholePart] using hhead

theorem plain_positionalLiteral (layout : Layout) {n : ℕ} {leading : ℤ}
    (hzero : n = 0 → leading = 0) : (layout.positionalLiteral (numeral n) leading).Plain := by
  have hdigit := isDigit_of_mem_numeral n
  unfold positionalLiteral
  split
  · refine ⟨by simp, by simp, .inl rfl, ?_, by simp [numeral_ne_nil], by simp, by simp⟩
    intro c hc
    rcases List.mem_append.mp hc with hc | hc
    · exact isDigit_of_mem_replicate _ c hc
    · exact hdigit c hc
  · have hwhole := isDigit_of_mem_wholePart n (leading.toNat + 1)
    have hne := wholePart_succ_ne_nil n leading.toNat
    have hhead := head_wholePart leading.toNat fun h => by rw [hzero h]; rfl
    simp only
    split
    · split
      · exact ⟨hwhole, hne, hhead, by simp, by simp, by simp, by simp⟩
      · exact ⟨hwhole, hne, hhead, by simp, by simp, by simp, by simp⟩
    · next hfraction =>
      exact ⟨hwhole, hne, hhead, fun c hc => hdigit c (List.mem_of_mem_drop hc),
        by simpa using hfraction, by simp, by simp⟩

theorem leading_trim_of_zero {d : Decimal} (h : d.trim.coefficient = 0) : d.trim.leading = 0 := by
  have hexp : d.trim.exponent = 0 := by
    have key : ∀ (c : ℕ) (e : ℤ), (Decimal.trimmed c e).1 = 0 → (Decimal.trimmed c e).2 = 0 := by
      intro c e
      induction c, e using Decimal.trimmed.induct with
      | case1 e => intro _; simp [Decimal.trimmed]
      | case2 c e hc hdiv ih => rwa [Decimal.trimmed, if_neg hc, if_pos hdiv]
      | case3 c e hc hdiv =>
        intro h0
        rw [Decimal.trimmed, if_neg hc, if_neg hdiv] at h0
        exact absurd h0 hc
    exact key d.coefficient d.exponent h
  rw [Decimal.leading, Decimal.digits, h, hexp, numeral_zero]
  rfl

theorem plain_literal (layout : Layout) (d : Decimal) : (layout.literal d).Plain := by
  unfold literal
  split
  · exact plain_positionalLiteral layout leading_trim_of_zero
  · exact plain_scientificLiteral layout _

theorem mark_literal (layout : Layout) (d : Decimal) :
    ∀ p ∈ (layout.literal d).power, p.mark = layout.mark := by
  unfold literal
  split
  · unfold positionalLiteral
    split
    · simp
    · simp only
      split
      · split <;> simp
      · simp
  · unfold scientificLiteral
    split <;> simp [powerLiteral]

/-! ### Value -/

theorem value_powerLiteral (layout : Layout) (leading : ℤ) :
    (layout.powerLiteral leading).value = leading := by
  have hdigits : digitsValue (layout.powerLiteral leading).digits = leading.natAbs := by
    rw [powerLiteral, digitsValue_append, digitsValue_replicate_zero, digitsValue_numeral]
    simp
  rw [Literal.Power.value, hdigits]
  by_cases h : leading < 0
  · rw [if_pos (by simp [powerLiteral, h])]
    omega
  · rw [if_neg (by simp [powerLiteral, h])]
    omega

/-- The number that a literal writes, apart from its sign. -/
theorem magnitude_decimal (negative : Bool) (l : Literal) :
    (l.decimal negative).magnitude =
      digitsValue (l.whole ++ l.fraction) * 10 ^ ((l.power.map Literal.Power.value).getD 0) /
        10 ^ l.fraction.length := by
  rw [Decimal.magnitude, Literal.decimal, zpow_sub₀ (by norm_num), zpow_natCast, mul_div_assoc]

theorem magnitude_scientificLiteral (layout : Layout) (negative : Bool) (n : ℕ) (leading : ℤ) :
    ((layout.scientificLiteral (numeral n) leading).decimal negative).magnitude =
      n * 10 ^ (leading + 1 - (numeral n).length) := by
  have hn := digitsValue_numeral n
  have hpow : ∀ k : ℕ, (10 : ℚ) ^ leading / 10 ^ k = 10 ^ (leading + 1 - (k + 1 : ℕ)) := by
    intro k
    rw [← zpow_natCast, ← zpow_sub₀ (by norm_num)]
    congr 1
    push_cast
    ring
  have hpower := value_powerLiteral layout leading
  rw [magnitude_decimal]
  unfold scientificLiteral
  split
  · next first second more heq =>
    rw [heq] at hn ⊢
    simp only [List.singleton_append, hn, Option.map_some, Option.getD_some, hpower]
    rw [mul_div_assoc, hpow]
    rfl
  · next hdigits =>
    have hlength : (numeral n).length = 1 := by
      cases hd : numeral n with
      | nil => exact absurd hd (numeral_ne_nil n)
      | cons c s =>
        cases s with
        | nil => rfl
        | cons c' s => exact absurd hd (hdigits c c' s)
    simp only [List.append_nil, hn, Option.map_some, Option.getD_some, hpower, hlength]
    rw [mul_div_assoc, List.length_nil, hpow]

theorem magnitude_of_no_power (negative : Bool) (whole fraction : Text) (point : Bool) :
    ((⟨whole, point, fraction, none⟩ : Literal).decimal negative).magnitude =
      digitsValue (whole ++ fraction) * 10 ^ (-(fraction.length : ℤ)) := by
  rw [magnitude_decimal, Option.map_none, Option.getD_none, zpow_zero, mul_one, div_eq_mul_inv,
    ← zpow_natCast, ← zpow_neg]

theorem digitsValue_wholePart {n places : ℕ} (h : (numeral n).length ≤ places) :
    digitsValue (wholePart (numeral n) places) = n * 10 ^ (places - (numeral n).length) := by
  rw [wholePart, List.take_of_length_le h, digitsValue_append, digitsValue_numeral,
    digitsValue_replicate_zero, List.length_replicate, Nat.add_zero]

theorem wholePart_append_drop {digits : Text} {places : ℕ} (h : places < digits.length) :
    wholePart digits places ++ digits.drop places = digits := by
  rw [wholePart, Nat.sub_eq_zero_of_le h.le, List.replicate_zero, List.append_nil,
    List.take_append_drop]

theorem magnitude_positionalLiteral (layout : Layout) (negative : Bool) (n : ℕ) (leading : ℤ) :
    ((layout.positionalLiteral (numeral n) leading).decimal negative).magnitude =
      n * 10 ^ (leading + 1 - (numeral n).length) := by
  have hzero : digitsValue ['0'] = 0 := by decide
  unfold positionalLiteral
  split
  · next hleading =>
    rw [magnitude_of_no_power, ← List.append_assoc, digitsValue_append, digitsValue_append, hzero,
      digitsValue_replicate_zero, digitsValue_numeral, Nat.zero_mul, Nat.zero_add, Nat.zero_mul,
      Nat.zero_add, List.length_append, List.length_replicate]
    congr 2
    push_cast
    omega
  · next hleading =>
    simp only
    split
    · next hdrop =>
      have hle : (numeral n).length ≤ leading.toNat + 1 := List.drop_eq_nil_iff.mp hdrop
      have hwhole : (digitsValue (wholePart (numeral n) (leading.toNat + 1)) : ℚ) =
          n * 10 ^ (leading + 1 - (numeral n).length) := by
        rw [digitsValue_wholePart hle, Nat.cast_mul, Nat.cast_pow, ← zpow_natCast]
        congr 2
        omega
      -- A digit after the point is a zero, and divides what it multiplies.
      split
      · rw [magnitude_of_no_power, digitsValue_append, hzero, Nat.add_zero, ← hwhole]
        simp [wholePart]
      · rw [magnitude_of_no_power, List.append_nil, ← hwhole]
        simp [wholePart]
    · next hdrop =>
      have hlt : leading.toNat + 1 < (numeral n).length := by
        by_contra h
        exact hdrop (List.drop_eq_nil_of_le (by omega))
      rw [magnitude_of_no_power, ← wholePart, wholePart_append_drop hlt, digitsValue_numeral,
        List.length_drop]
      congr 2
      omega

/-- The literal writes the number. -/
theorem magnitude_literal (layout : Layout) (negative : Bool) (d : Decimal) :
    ((layout.literal d).decimal negative).magnitude = d.magnitude := by
  have hexp : d.trim.exponent = d.trim.leading + 1 - (numeral d.trim.coefficient).length := by
    rw [Decimal.leading, Decimal.digits]
    omega
  have hmagnitude : d.magnitude = d.trim.coefficient *
      10 ^ (d.trim.leading + 1 - (numeral d.trim.coefficient).length) := by
    rw [← hexp, ← Decimal.magnitude_trim, Decimal.magnitude]
  rw [hmagnitude]
  unfold literal
  split
  · exact magnitude_positionalLiteral ..
  · exact magnitude_scientificLiteral ..

/-- What is written rounds to the same double. -/
theorem toFloat_literal (layout : Layout) (d : Decimal) :
    ((layout.literal d).decimal d.negative).toFloat = d.toFloat :=
  Decimal.toFloat_congr rfl (magnitude_literal layout d.negative d)

end Layout
end NumericAnswer
