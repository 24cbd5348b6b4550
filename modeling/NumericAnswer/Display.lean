/-
# The displayed value and its hint

A value close to a whole number other than zero is displayed as that number;
any other is rounded to a number of significant digits. The hint is a simple
fraction, or a simple multiple of π, that the value is close to.

Key definitions: `Display.text`, `Display.piMultiple`, `Display.hint`.
-/
import NumericAnswer.Function.Basic
import NumericAnswer.Number.Fraction
import NumericAnswer.Settings.Quantity
import NumericAnswer.Settings.Store

namespace NumericAnswer
namespace Display

/-- A displayed value: positional from seven places after the point up to its
significant digits. -/
def layout (places : Nat) : Layout :=
  { least := -7, below := places, marksWhole := false, mark := 'E', width := 1 }

/-- Whole numbers from here on are displayed like other values. -/
def wholeLimit : Nat := Nat.pow 10 21

/-- The most significant digits of decimal arithmetic. -/
def maxPlaces : Nat := 999999999999999999

/-- The significant digits that a setting asks for, at least one. -/
def placesOf (digits : Json) : Except SettingsFault Nat :=
  digits.whole.map fun i => max 1 i.toNat

/-- The distance of a value from the nearest whole number. -/
def offWhole (x : Float) (nearest : Int) : Float :=
  (x - Binary.ofInt nearest).abs

/-- A finite value other than zero, rounded. -/
def rounded (places : Nat) (b : Binary) : Except SettingsFault Text :=
  if Nat.pow 2 63 ≤ places then .error .digitsOutOfRange
  else if maxPlaces < places then .error .tooManyDigits
  else .ok ((layout places).render ((Decimal.ofBinary b).round places))

/-- The displayed text of a value, with the given significant digits or else
those of the settings. -/
def text (settings : Settings) (digits : Option Json) (x : Float) : Except SettingsFault Text := do
  let places ← placesOf (digits.getD (settings.get .significantDigits))
  match Binary.ofFloat? x with
  | none => .ok (nonFiniteText x)
  | some b =>
    if x == 0 then .ok ['0']
    else if b.roundEven = 0 then rounded places b
    else do
      let tolerance ← (settings.get .integerTolerance).threshold
      if offWhole x b.roundEven < tolerance && b.roundEven.natAbs < wholeLimit then
        .ok (integerText b.roundEven)
      else rounded places b

/-! ### Hints -/

def fractionText (r : Rat) : Text :=
  integerText r.num ++ '/' :: numeral r.den

/-- A multiple of π: a factor 1 and a denominator 1 are left out. -/
def piMultiple (r : Rat) : Text :=
  let sign := if r.num < 0 then ['-'] else []
  let factor := if r.num.natAbs = 1 then [] else numeral r.num.natAbs
  let divisor := if r.den = 1 then [] else '/' :: numeral r.den
  sign ++ factor ++ 'π' :: divisor

/-- The largest denominator of a multiple of π. -/
def piDenominator : Nat := 12

/-- The closest fraction within a bound of any kind. -/
def closestWithin (bound : DenominatorBound) (r : Rat) : Except SettingsFault Rat :=
  match bound with
  | .whole n => .ok (closestFraction n r)
  | .nan => .error .boundOfNaN
  | .fractional x =>
    match Binary.ofFloat? x with
    | none => .ok r
    | some b => if r.den ≤ b.truncated then .ok r else .error .fractionalBound

/-- The multiple of π that a value is close to. -/
def piHint (tolerance x : Float) : Option Text :=
  (Binary.ofFloat? (x / Constant.pi.value)).bind fun quotient =>
    let ratio := closestFraction piDenominator quotient.toRat
    if ratio ≠ 0 && (Binary.ofRat ratio * Constant.pi.value - x).abs < tolerance then
      some (piMultiple ratio)
    else none

/-- The hint for a finite value. -/
def finiteHint (settings : Settings) (x : Float) (b : Binary) :
    Except SettingsFault (Option Text) := do
  let tolerance ← (settings.get .integerTolerance).threshold
  if offWhole x b.roundEven < tolerance then .ok none
  else do
    let bound ← (settings.get .fractionMaxDenominator).denominatorBound
    let fraction ← closestWithin bound b.toRat
    if (Binary.ofRat fraction - x).abs < tolerance then .ok (some (fractionText fraction))
    else .ok (piHint tolerance x)

end Display

namespace Access

/-- The displayed text of a value under the current settings. Digits that are
given must be a whole number before settings are looked up. -/
def displayText (digits : Option Json) (x : Float) : Access Text := do
  ofExcept (digits.forM fun digits => (Display.placesOf digits).map fun _ => ())
  ofExcept (Display.text (← settings) digits x)

/-- The hint for a value; what is not finite has none. -/
def hint (x : Float) : Access (Option Text) :=
  match Binary.ofFloat? x with
  | none => return none
  | some b => do ofExcept (Display.finiteHint (← settings) x b)

end Access
end NumericAnswer
