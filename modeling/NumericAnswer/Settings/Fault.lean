/-
# Faults of settings

A settings file may hold any JSON value, and a setting any type. What cannot
be merged into the settings, or used where it is needed, is a fault.

Key definitions: `SettingsFault`, `SettingsFault.message`.
-/
import NumericAnswer.Json.Basic
import NumericAnswer.Number.Numeral
import NumericAnswer.Text.Quoted

namespace NumericAnswer

inductive SettingsFault where
  /-- The file nests values too deeply. -/
  | nestedTooDeeply
  /-- A whole number has more digits than are read. -/
  | longInteger (digits : Nat)
  /-- The file holds a single value that has no entries. -/
  | notIterable (type : String)
  /-- An item of the file is no key with a value. -/
  | notEntry (index : Nat)
  | entryLength (index length : Nat)
  | unhashableKey (type : String)
  /-- A value cannot be compared with a number. -/
  | notComparable (left right : String)
  /-- A text or list cannot be multiplied by a number. -/
  | sequenceFactor
  | notFactor (type : String)
  | factorTooBig
  /-- A value cannot be made a whole number. -/
  | notWhole (type : String)
  | notNumeral (text : Text)
  | wholeOfNaN
  | wholeOfInfinity
  /-- More significant digits than decimal arithmetic has. -/
  | tooManyDigits
  | digitsOutOfRange
  /-- The bound of denominators is less than 1. -/
  | boundBelowOne
  /-- The bound of denominators is reached and no whole number. -/
  | fractionalBound
  | boundOfNaN

namespace SettingsFault

/-- The characters of a quoted text that a message shows. -/
def quoteLimit : Nat := 200

def message : SettingsFault → String
  | nestedTooDeeply => "maximum recursion depth exceeded"
  | longInteger digits =>
    "Exceeds the limit (4300 digits) for integer string conversion: value has " ++
      s!"{digits} digits; use sys.set_int_max_str_digits() to increase the limit"
  | notIterable type => s!"'{type}' object is not iterable"
  | notEntry index => s!"cannot convert dictionary update sequence element #{index} to a sequence"
  | entryLength index length =>
    s!"dictionary update sequence element #{index} has length {length}; 2 is required"
  | unhashableKey type => s!"unhashable type: '{type}'"
  | notComparable left right => s!"'<' not supported between instances of '{left}' and '{right}'"
  | sequenceFactor => "can't multiply sequence by non-int of type 'float'"
  | notFactor type => s!"unsupported operand type(s) for *: '{type}' and 'float'"
  | factorTooBig => "int too large to convert to float"
  | notWhole type =>
    s!"int() argument must be a string, a bytes-like object or a real number, not '{type}'"
  | notNumeral text =>
    "invalid literal for int() with base 10: " ++ String.ofList ((quoted text).take quoteLimit)
  | wholeOfNaN => "cannot convert float NaN to integer"
  | wholeOfInfinity => "cannot convert float infinity to integer"
  | tooManyDigits => "valid range for prec is [1, MAX_PREC]"
  | digitsOutOfRange => "Python int too large to convert to C ssize_t"
  | boundBelowOne => "max_denominator should be at least 1"
  | fractionalBound => "both arguments should be Rational instances"
  | boundOfNaN => "integer division or modulo by zero"

end SettingsFault
end NumericAnswer
