/-
# Values of expressions

An expression is evaluated from the leaves up, left before right, and every
intermediate value must be finite.

Key definitions: `BinaryOperator.value`, `Expr.valueWithin`, `Expr.value`.
Key theorem: `Expr.isFinite_of_value`.
-/
import NumericAnswer.Expr.Basic
import NumericAnswer.Function.Value

namespace NumericAnswer

def BinaryOperator.value (o : BinaryOperator) (x y : Float) : Except ValueFault Float :=
  match o with
  | add => finite "sum" (x + y)
  | subtract => finite "difference" (x - y)
  | multiply => finite "product" (x * y)
  | divide => quotient x y

namespace Expr

variable [MathLibrary]

/-- The levels that an expression may have. -/
def levelLimit : Nat := 1000

/-- The value of an expression of at most `levels` levels. -/
def valueWithin : Nat → Expr → Except ValueFault Float
  | 0, _ => .error .nestedTooDeeply
  | _ + 1, number x => finite "literal" x
  | _ + 1, constant c => .ok c.value
  | levels + 1, neg x => do
    let a ← valueWithin levels x
    .ok (-a)
  | levels + 1, abs x => do
    let a ← valueWithin levels x
    .ok a.abs
  | levels + 1, factorial x => do
    let a ← valueWithin levels x
    NumericAnswer.factorial a
  | levels + 1, binary o x y => do
    let a ← valueWithin levels x
    let b ← valueWithin levels y
    o.value a b
  | levels + 1, fraction x y => do
    let a ← valueWithin levels x
    let b ← valueWithin levels y
    quotient a b
  | levels + 1, power x y => do
    let a ← valueWithin levels x
    let b ← valueWithin levels y
    NumericAnswer.power a b
  | levels + 1, call f x => do
    let a ← valueWithin levels x
    let result ← f.value a
    finite f.name result
  | levels + 1, call₂ f x y => do
    let a ← valueWithin levels x
    let b ← valueWithin levels y
    let result ← f.value a b
    finite f.name result

def value (e : Expr) : Except ValueFault Float := do
  let result ← valueWithin levelLimit e
  finite "result" result

theorem isFinite_of_value {e : Expr} {x : Float} (h : e.value = .ok x) : x.isFinite = true := by
  unfold value at h
  cases hv : valueWithin levelLimit e with
  | error f => rw [hv] at h; simp [bind, Except.bind] at h
  | ok y =>
    rw [hv] at h
    obtain ⟨rfl, hf⟩ := finite_ok h
    exact hf

end Expr
end NumericAnswer
