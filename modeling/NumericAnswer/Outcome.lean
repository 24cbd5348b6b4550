/-
# The outcome of an answer

An answer is brought into canonical form, read and evaluated. The outcome is a
finite value or a fault, each with the canonical form; a blank answer has
none.

Key definitions: `Fault`, `Outcome`, `Outcome.ofText`, `Outcome.ofAnswer`.
Key theorems: `Outcome.isFinite_of_success`, `Outcome.expression?_ofText`.
-/
import NumericAnswer.Expr.Parser
import NumericAnswer.Expr.Value
import NumericAnswer.Notation.Canonical

namespace NumericAnswer

/-- Why an answer has no value. -/
inductive Fault where
  | read (f : ReadFault)
  | value (f : ValueFault)

namespace Fault

def kind : Fault → Kind
  | read f => f.kind
  | value f => f.kind

def code : Fault → Code
  | read f => f.code
  | value f => f.code

def message : Fault → String
  | read f => f.message
  | value f =>
    match f with
    | .noRealValue | .unroundable => s!"Math domain error: {f.message}"
    | .zeroLogarithm => Code.divisionByZero.summary
    | f => f.message

def position? : Fault → Option Nat
  | read f => f.position?
  | value _ => none

/-- The expression is nested more deeply than it is read or evaluated. -/
def isTooDeep : Fault → Bool
  | read .nestedTooDeeply | value .nestedTooDeeply => true
  | _ => false

/-- No stage has found the fault. -/
def isForeign : Fault → Bool
  | read _ => false
  | value f => f.isForeign

theorem kind_eq_kind_code (f : Fault) : f.kind = f.code.kind := by
  cases f with
  | read f => exact f.kind_eq_kind_code
  | value f => exact f.kind_eq_kind_code

end Fault

inductive Outcome where
  | success (value : Float) (expression : Text)
  | failure (fault : Fault) (expression : Option Text)

variable [MathLibrary]

/-- Reads and evaluates a canonical text. -/
def evaluateCanonical (expression : Text) : Except Fault Float :=
  match Expr.parse expression with
  | .error f => .error (.read f)
  | .ok e =>
    match e.value with
    | .error f => .error (.value f)
    | .ok x => .ok x

namespace Outcome

def ofText (answer : Text) : Outcome :=
  if isAllBlank answer then failure (.read .emptyExpression) none
  else
    match evaluateCanonical (canonical answer) with
    | .ok value => success value (canonical answer)
    | .error fault => failure fault (some (canonical answer))

/-- The outcome of an answer that may be missing. -/
def ofAnswer : Option Text → Outcome
  | none => failure (.read .emptyExpression) none
  | some answer => ofText answer

def isSuccess : Outcome → Bool
  | success _ _ => true
  | failure _ _ => false

def value? : Outcome → Option Float
  | success value _ => some value
  | failure _ _ => none

def expression? : Outcome → Option Text
  | success _ expression => some expression
  | failure _ expression => expression

theorem isFinite_of_success {answer expression : Text} {value : Float}
    (h : ofText answer = success value expression) : value.isFinite = true := by
  unfold ofText at h
  split at h
  · simp at h
  · split at h
    · next v hv =>
      obtain ⟨rfl, _⟩ := Outcome.success.inj h
      unfold evaluateCanonical at hv
      split at hv
      · simp at hv
      · split at hv
        · simp at hv
        · next x hx =>
          obtain rfl := Except.ok.inj hv
          exact Expr.isFinite_of_value hx
    · simp at h

/-- Only a blank answer has no canonical form. -/
theorem expression?_ofText (answer : Text) :
    (ofText answer).expression? = if isAllBlank answer then none else some (canonical answer) := by
  unfold ofText
  split
  · rfl
  · split <;> rfl

end Outcome
end NumericAnswer
