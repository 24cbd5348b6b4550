/-
# Values of functions

Each function has its own domain, in radians where it is one of angles. What
the mathematical library computes is taken over unless it gives no number for
a number, or infinity for finite ones.

Key definitions: `finite`, `quotient`, `power`, `factorial`,
`UnaryFunction.value`, `BinaryFunction.value`.
Key theorems: `finite_ok`, `quotient_zero`.
-/
import NumericAnswer.Fault.Value
import NumericAnswer.Function.Basic
import NumericAnswer.Function.Library

namespace NumericAnswer

/-- Passes a finite number on. -/
def finite (what : String) (x : Float) : Except ValueFault Float :=
  if x.isFinite then .ok x else .error (.notFinite what)

theorem finite_ok {what : String} {x y : Float} (h : finite what x = .ok y) :
    y = x ∧ x.isFinite = true := by
  unfold finite at h
  split at h
  · exact ⟨(Except.ok.inj h).symm, by assumption⟩
  · simp at h

def isOdd (x : Float) : Bool :=
  match Binary.ofFloat? x with
  | some b => b.isInteger && b.truncated % 2 = 1
  | none => false

/-! ### Arithmetic -/

def quotient (x y : Float) : Except ValueFault Float :=
  if y == 0 then .error .divisionByZero else finite "quotient" (x / y)

theorem quotient_zero (x : Float) {y : Float} (h : (y == 0) = true) :
    quotient x y = .error .divisionByZero := by
  simp [quotient, h]

/-- A result is no number although the arguments are. -/
def isUnreal (result : Float) (arguments : List Float) : Bool :=
  result.isNaN && arguments.all fun x => !x.isNaN

/-- A result is infinite although the arguments are not. -/
def isOverflow (result : Float) (arguments : List Float) : Bool :=
  result.isInf && arguments.all fun x => x.isFinite

variable [MathLibrary]

/-- Real powers only: a negative base needs a whole exponent, and zero one that
is not negative. -/
def power (base exponent : Float) : Except ValueFault Float :=
  if base < 0 && !isWhole exponent then .error (.negativeBase base exponent)
  else if base == 0 && exponent < 0 then .error .zeroToNegative
  else
    let result := MathLibrary.pow base exponent
    if isUnreal result [base, exponent] then .error .noRealValue
    else if isOverflow result [base, exponent] then .error .powerTooBig
    else finite "power" result

/-- The product of the numbers from 1 to `n`. -/
def factorialOf : Nat → Nat
  | 0 => 1
  | n + 1 => (n + 1) * factorialOf n

/-- The largest number whose factorial is a finite double. -/
def factorialLimit : Nat := 170

def factorial (x : Float) : Except ValueFault Float :=
  match Binary.ofFloat? x with
  | none => .error (.factorialOperand x)
  | some b =>
    if x < 0 || !b.isInteger then .error (.factorialOperand x)
    else if factorialLimit < b.truncated then .error (.factorialTooBig x)
    else .ok (Binary.nearest false (factorialOf b.truncated) 1)

/-! ### Roots -/

/-- The relative distance within which a root is taken for the whole number
nearest to it. -/
def rootTolerance : Float := 1e-12

/-- Close to each other, measured by either. -/
def isClose (x y : Float) : Bool :=
  x == y || (x.isFinite && y.isFinite &&
    ((y - x).abs ≤ (rootTolerance * y).abs || (y - x).abs ≤ (rootTolerance * x).abs))

/-- The whole number next to a root, if its power is the radicand; else the
root. -/
def exactRoot (degree x root : Float) : Except ValueFault Float :=
  match Binary.ofFloat? root with
  | none => if root.isNaN then .error .unroundable else .error (.functionTooBig "nthroot")
  | some b =>
    let candidate := Binary.ofInt b.roundEven
    if isClose root candidate then
      let back := MathLibrary.pow candidate degree
      if isUnreal back [candidate, degree] then .error .noRealValue
      else if isOverflow back [candidate, degree] then .error (.functionTooBig "nthroot")
      else .ok (if back == x then candidate else root)
    else .ok root

/-- The root of a number that is not negative. -/
def rootOfMagnitude (degree x : Float) : Except ValueFault Float :=
  if x == 0 && degree < 0 then .error .divisionByZero
  else
    let root := MathLibrary.pow x (1.0 / degree)
    if isOverflow root [x, 1.0 / degree] then .error (.functionTooBig "nthroot")
    else if isWhole degree && 0 < degree then exactRoot degree x root
    else .ok root

/-- The real root. A negative number has one of odd degree only. -/
def nthroot (degree x : Float) : Except ValueFault Float :=
  if degree == 0 then .error .zeroDegree
  else if x < 0 then
    if isOdd degree then (rootOfMagnitude degree (-x)).map fun root => -root
    else .error (.negativeEvenRoot x degree)
  else rootOfMagnitude degree x

/-! ### Logarithms -/

/-- A logarithm of a positive number. -/
def logarithm (log : Float → Float) (x : Float) : Except ValueFault Float :=
  if x ≤ 0 then .error (.logArgument x) else .ok (log x)

def logBase (base x : Float) : Except ValueFault Float :=
  if base ≤ 0 then .error (.logBase base)
  else if base == 1 then .error .logBaseOne
  else if base == 2 then logarithm (MathLibrary.elementary .log2) x
  else if base == 10 then logarithm (MathLibrary.elementary .log10) x
  else do
    let y ← logarithm (MathLibrary.elementary .log) x
    let scale := MathLibrary.elementary .log base
    if scale == 0 then .error .zeroLogarithm else .ok (y / scale)

/-! ### Functions by name -/

namespace UnaryFunction

/-- A function defined on all numbers. -/
def everywhere (f : UnaryFunction) (g : Elementary) (x : Float) : Except ValueFault Float :=
  let result := MathLibrary.elementary g x
  if isUnreal result [x] then .error .noRealValue
  else if isOverflow result [x] then .error (.functionTooBig f.name)
  else .ok result

/-- An inverse function defined from -1 to 1. -/
def onUnitInterval (f : UnaryFunction) (g : Elementary) (x : Float) : Except ValueFault Float :=
  if 1 < x.abs then .error (.outsideUnitInterval f.name x)
  else .ok (MathLibrary.elementary g x)

/-- The reciprocal of a function. -/
def reciprocal (f : UnaryFunction) (g : Elementary) (x : Float) : Except ValueFault Float := do
  let y ← everywhere f g x
  if y == 0 then .error (.zeroReciprocal f.name) else .ok (1.0 / y)

def value (f : UnaryFunction) (x : Float) : Except ValueFault Float :=
  match f with
  | sin => f.everywhere .sin x
  | cos => f.everywhere .cos x
  | tan => f.everywhere .tan x
  | cot => f.reciprocal .tan x
  | sec => f.reciprocal .cos x
  | csc => f.reciprocal .sin x
  | arcsin => f.onUnitInterval .asin x
  | arccos => f.onUnitInterval .acos x
  | arctan => f.everywhere .atan x
  | arccot => .ok (MathLibrary.atan2 1.0 x)
  | sinh => f.everywhere .sinh x
  | cosh => f.everywhere .cosh x
  | tanh => f.everywhere .tanh x
  | exp => f.everywhere .exp x
  | ln => logarithm (MathLibrary.elementary .log) x
  | log => logarithm (MathLibrary.elementary .log10) x
  | sqrt => if x < 0 then .error (.negativeSquareRoot x) else .ok x.sqrt

end UnaryFunction

def BinaryFunction.value (f : BinaryFunction) (x y : Float) : Except ValueFault Float :=
  match f with
  | nthroot => NumericAnswer.nthroot x y
  | logBase => NumericAnswer.logBase x y

end NumericAnswer
