/-
# Number literals

A literal is a row of digits with an optional point in it or at either end,
and an optional power of ten. The digits may be of any script.

Key definitions: `Literal`, `Literal.read?`, `Literal.value`, `readFloat?`.
Key theorem: `Literal.text_append_of_read?`.
-/
import NumericAnswer.Number.Decimal

namespace NumericAnswer

/-- The power of ten of a literal, as written. -/
structure Literal.Power where
  mark : Char
  sign : Option Char
  digits : Text
  deriving DecidableEq, Repr

/-- A number as written. -/
structure Literal where
  whole : Text
  point : Bool
  fraction : Text
  power : Option Literal.Power
  deriving DecidableEq, Repr

namespace Literal

def Power.text (p : Power) : Text :=
  p.mark :: (p.sign.toList ++ p.digits)

def Power.value (p : Power) : Int :=
  if p.sign = some '-' then -(digitsValue p.digits : Int) else digitsValue p.digits

def text (l : Literal) : Text :=
  l.whole ++ ((if l.point then ['.'] else []) ++ (l.fraction ++ ((l.power.map Power.text).getD [])))

/-- The digits at the front of a text and what follows them. -/
def spanDigits (s : Text) : Text × Text :=
  (s.takeWhile isDecimalDigit, s.dropWhile isDecimalDigit)

/-- A sign at the front of a text and what follows it. -/
def spanSign : Text → Option Char × Text
  | '+' :: s => (some '+', s)
  | '-' :: s => (some '-', s)
  | s => (none, s)

/-- The power of ten at the front of a text. It needs a digit. -/
def readPower? : Text → Option Power × Text
  | [] => (none, [])
  | c :: s =>
    if c = 'e' || c = 'E' then
      let (sign, afterSign) := spanSign s
      match spanDigits afterSign with
      | ([], _) => (none, c :: s)
      | (digits, rest) => (some ⟨c, sign, digits⟩, rest)
    else (none, c :: s)

/-- The longest literal at the front of a text. -/
def read? (s : Text) : Option (Literal × Text) :=
  match spanDigits s with
  | ([], '.' :: afterPoint) =>
    match spanDigits afterPoint with
    | ([], _) => none
    | (fraction, rest) => some (⟨[], true, fraction, (readPower? rest).1⟩, (readPower? rest).2)
  | ([], _) => none
  | (whole, '.' :: afterPoint) =>
    let (fraction, rest) := spanDigits afterPoint
    some (⟨whole, true, fraction, (readPower? rest).1⟩, (readPower? rest).2)
  | (whole, rest) => some (⟨whole, false, [], (readPower? rest).1⟩, (readPower? rest).2)

/-- The number that a literal writes. -/
def decimal (negative : Bool) (l : Literal) : Decimal where
  negative := negative
  coefficient := digitsValue (l.whole ++ l.fraction)
  exponent := (l.power.map Power.value).getD 0 - l.fraction.length

/-- The double nearest to the number that a literal writes. -/
def value (l : Literal) : Float :=
  (l.decimal false).toFloat

theorem spanDigits_append (s : Text) : (spanDigits s).1 ++ (spanDigits s).2 = s :=
  List.takeWhile_append_dropWhile

theorem spanSign_append (s : Text) : (spanSign s).1.toList ++ (spanSign s).2 = s := by
  unfold spanSign; split <;> rfl

theorem readPower?_append (s : Text) :
    ((readPower? s).1.map Power.text).getD [] ++ (readPower? s).2 = s := by
  unfold readPower?
  split
  · rfl
  · next c s =>
    split
    · have hs := spanSign_append s
      have hd := spanDigits_append (spanSign s).2
      simp only
      split
      · rfl
      · next heq =>
        rw [heq] at hd
        simp only [Option.map_some, Option.getD_some, Power.text, List.cons_append, List.append_assoc]
        rw [hd, hs]
    · rfl

/-- A literal is read whole: its text and the rest make up the text read. -/
theorem text_append_of_read? {s rest : Text} {l : Literal} (h : read? s = some (l, rest)) :
    l.text ++ rest = s := by
  have hs := spanDigits_append s
  unfold read? at h
  split at h
  · next after heq =>
    rw [heq] at hs
    have hf := spanDigits_append after
    split at h
    · simp at h
    · next frac r _ heq' =>
      rw [heq'] at hf
      obtain ⟨rfl, rfl⟩ := by simpa using h
      have hp := readPower?_append r
      simp only [text, List.nil_append, if_true, List.append_assoc]
      rw [hp, hf]
      exact hs
  · simp at h
  · next whole after _ heq =>
    rw [heq] at hs
    have hf := spanDigits_append after
    obtain ⟨rfl, rfl⟩ := by simpa using h
    have hp := readPower?_append (spanDigits after).2
    simp only [text, if_true, List.append_assoc]
    rw [hp, hf]
    exact hs
  · next whole r _ _ _ heq =>
    rw [heq] at hs
    obtain ⟨rfl, rfl⟩ := by simpa using h
    have hp := readPower?_append r
    simp only [text, List.nil_append, List.append_assoc, Bool.false_eq_true, if_false]
    rw [hp]
    exact hs

end Literal

/-- A number with an optional sign, or one of the words for what is not finite. -/
def readFloat? (s : Text) : Option Float :=
  let (sign, s) := Literal.spanSign s
  let negative := sign = some '-'
  if s = "inf".toList then some (Binary.infinity negative)
  else if s = "nan".toList then some (Float.ofBits 0x7ff8000000000000)
  else match Literal.read? s with
    | some (l, []) => some (l.decimal negative).toFloat
    | _ => none

end NumericAnswer
