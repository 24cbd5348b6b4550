/-
# Faults of evaluation

The ways in which a well-formed expression can fail to have a value.

Key definitions: `ValueFault`, `ValueFault.code`, `ValueFault.kind`,
`ValueFault.message`, `ValueFault.isForeign`.
Key theorem: `ValueFault.kind_eq_kind_code`.
-/
import NumericAnswer.Fault.Code
import NumericAnswer.Number.Shortest

namespace NumericAnswer

/-- Why an expression has no value. -/
inductive ValueFault where
  /-- More levels than the evaluator descends. -/
  | nestedTooDeeply
  /-- The named quantity is infinite or not a number. -/
  | notFinite (what : String)
  | divisionByZero
  | negativeBase (base exponent : Float)
  | zeroToNegative
  | powerTooBig
  | factorialOperand (x : Float)
  | factorialTooBig (x : Float)
  | negativeSquareRoot (x : Float)
  | negativeEvenRoot (x degree : Float)
  | zeroDegree
  | logArgument (x : Float)
  | logBase (base : Float)
  | logBaseOne
  | outsideUnitInterval (function : String) (x : Float)
  | zeroReciprocal (function : String)
  | functionTooBig (function : String)
  /-- A function gave no number for a number. -/
  | noRealValue
  /-- What is not a number was to be rounded. -/
  | unroundable
  /-- The logarithm of a base is zero. -/
  | zeroLogarithm

namespace ValueFault

def code : ValueFault → Code
  | nestedTooDeeply => .nestedTooDeeply
  | notFinite _ | powerTooBig | factorialTooBig _ | functionTooBig _ => .tooBig
  | divisionByZero | zeroLogarithm => .divisionByZero
  | negativeBase _ _ => .negativeBase
  | zeroToNegative => .zeroToNegative
  | factorialOperand _ => .factorialOperand
  | negativeSquareRoot _ => .negativeSquareRoot
  | negativeEvenRoot _ _ => .negativeEvenRoot
  | zeroDegree => .zeroDegree
  | logArgument _ => .logArgument
  | logBase _ => .logBase
  | logBaseOne => .logBaseOne
  | outsideUnitInterval _ _ => .outsideUnitInterval
  | zeroReciprocal _ => .zeroReciprocal
  | noRealValue | unroundable => .unexpected

def kind : ValueFault → Kind
  | nestedTooDeeply => .syntaxError
  | notFinite _ | powerTooBig | factorialTooBig _ | functionTooBig _ => .numericOverflow
  | divisionByZero | zeroToNegative | zeroReciprocal _ | zeroLogarithm => .divisionByZero
  | negativeBase _ _ => .invalidPower
  | negativeSquareRoot _ | negativeEvenRoot _ _ => .negativeRadicand
  | logArgument _ | logBase _ => .nonPositiveLogArgument
  | zeroDegree | factorialOperand _ | logBaseOne | outsideUnitInterval _ _
  | noRealValue | unroundable => .outOfDomain

theorem kind_eq_kind_code (f : ValueFault) : f.kind = f.code.kind := by
  cases f <;> rfl

def message : ValueFault → String
  | nestedTooDeeply => Code.nestedTooDeeply.summary
  | notFinite what => s!"Number too big ({what} is not finite)."
  | divisionByZero => "Division by zero"
  | negativeBase base exponent =>
    s!"Negative base {floatString base} with non-integer exponent {floatString exponent}"
  | zeroToNegative => "Zero raised to a negative power"
  | powerTooBig => Code.tooBig.summary
  | factorialOperand x => s!"Factorial needs a non-negative integer, got {floatString x}"
  | factorialTooBig x => s!"Number too big ({generalString x}!)."
  | negativeSquareRoot x => s!"Negative radicand in square root: {floatString x}"
  | negativeEvenRoot x degree =>
    s!"Negative radicand {floatString x} in root of degree {generalString degree}"
  | zeroDegree => "Root degree must not be zero"
  | logArgument x => s!"Logarithm argument must be positive: {floatString x}"
  | logBase base => s!"Logarithm base must be positive: {floatString base}"
  | logBaseOne => "Logarithm base must not be 1"
  | outsideUnitInterval function x =>
    s!"Argument outside [-1, 1]: {function}({floatString x})"
  | zeroReciprocal function => s!"Division by zero in reciprocal function: {function}"
  | functionTooBig function => s!"Number too big in {function}."
  | noRealValue => "math domain error"
  | unroundable => "cannot convert float NaN to integer"
  | zeroLogarithm => "float division by zero"

/-- The fault comes from below: arithmetic or the library refused, and nothing
checked before. -/
def isForeign : ValueFault → Bool
  | noRealValue | unroundable | zeroLogarithm => true
  | _ => false

end ValueFault
end NumericAnswer
