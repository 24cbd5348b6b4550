/-
# Settings as quantities

Where a number is needed, a setting is used as one: truth values count as 0
and 1, and a whole number may also be written out. Other types are faults.

Key definitions: `Json.whole`, `Json.threshold`, `Json.factor`,
`DenominatorBound`, `Json.denominatorBound`.
-/
import NumericAnswer.Number.Binary
import NumericAnswer.Settings.Fault
import NumericAnswer.Text.Blank

namespace NumericAnswer

/-- The blanks that may stand around a written number. -/
def isNumeralBlank (c : Char) : Bool :=
  ('\t' ≤ c && c ≤ '\r') || c = ' ' || ('~' < c && isBlank c)

/-- The digits of a row of digits with single underscores between them. -/
def groupedDigits? : Text → Option Text
  | [] => none
  | [c] => if isDecimalDigit c then some [c] else none
  | c :: '_' :: s => if isDecimalDigit c then (groupedDigits? s).map (c :: ·) else none
  | c :: s => if isDecimalDigit c then (groupedDigits? s).map (c :: ·) else none

/-- The most digits that a whole number is written with. -/
def numeralLimit : Nat := 4300

/-- The whole number that a text writes, with a sign and with blanks around it.
Too many digits are the first thing to be found wrong. -/
def readWhole (s : Text) : Except SettingsFault Int :=
  let trimmed := (((s.dropWhile isNumeralBlank).reverse).dropWhile isNumeralBlank).reverse
  let (negative, unsigned) : Bool × Text := match trimmed with
    | '-' :: t => (true, t)
    | '+' :: t => (false, t)
    | t => (false, t)
  let row := unsigned.takeWhile fun c => isDecimalDigit c || c = '_'
  match groupedDigits? row with
  | none => .error (.notNumeral s)
  | some digits =>
    if numeralLimit < digits.length then .error (.longInteger digits.length)
    else if row.length ≠ unsigned.length then .error (.notNumeral s)
    else .ok (if negative then -(digitsValue digits : Int) else digitsValue digits)

namespace Json

/-- A value as a whole number, without the fractional part it may have. -/
def whole : Json → Except SettingsFault Int
  | bool b => .ok (if b then 1 else 0)
  | integer i => .ok i
  | float x =>
    match Binary.ofFloat? x with
    | some b => .ok (b.withSign b.truncated)
    | none => .error (if x.isNaN then .wholeOfNaN else .wholeOfInfinity)
  | string s => readWhole s
  | value => .error (.notWhole value.typeName)

/-- A value as a limit that a number is compared with. -/
def threshold : Json → Except SettingsFault Float
  | bool b => .ok (if b then 1 else 0)
  | integer i => .ok (Binary.ofInt i)
  | float x => .ok x
  | value => .error (.notComparable "float" value.typeName)

/-- A value as a factor of a number. -/
def factor : Json → Except SettingsFault Float
  | bool b => .ok (if b then 1 else 0)
  | integer i =>
    if (Binary.ofInt i).isFinite then .ok (Binary.ofInt i) else .error .factorTooBig
  | float x => .ok x
  | string _ | array _ => .error .sequenceFactor
  | value => .error (.notFactor value.typeName)

end Json

/-- How large denominators may be. -/
inductive DenominatorBound where
  | whole (n : Nat)
  /-- A bound that cannot take part in the search for a closer fraction. -/
  | fractional (x : Float)
  | nan

/-- A value as a bound of denominators; a bound is at least 1. -/
def Json.denominatorBound : Json → Except SettingsFault DenominatorBound
  | bool b => if b then .ok (.whole 1) else .error .boundBelowOne
  | integer i => if i < 1 then .error .boundBelowOne else .ok (.whole i.toNat)
  | float x =>
    if x < 1 then .error .boundBelowOne
    else if x.isNaN then .ok .nan
    else .ok (.fractional x)
  | value => .error (.notComparable value.typeName "int")

end NumericAnswer
