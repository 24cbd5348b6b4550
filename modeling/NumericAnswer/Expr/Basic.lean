/-
# Expressions

The expressions of the canonical form. Functions take as many arguments as
they have, so there is no call with a wrong number of them.

Key definitions: `BinaryOperator`, `Expr`, `Expr.depth`.
-/
import NumericAnswer.Function.Basic

namespace NumericAnswer

inductive BinaryOperator where
  | add | subtract | multiply | divide
  deriving DecidableEq, Repr

def BinaryOperator.sign : BinaryOperator → Char
  | add => '+'
  | subtract => '-'
  | multiply => '*'
  | divide => '/'

/-- An expression. A product written without a sign is like any other; a
fraction is kept apart from a quotient. -/
inductive Expr where
  | number (x : Float)
  | constant (c : Constant)
  | neg (x : Expr)
  | abs (x : Expr)
  | factorial (x : Expr)
  | binary (o : BinaryOperator) (x y : Expr)
  | fraction (x y : Expr)
  | power (base exponent : Expr)
  | call (f : UnaryFunction) (x : Expr)
  | call₂ (f : BinaryFunction) (x y : Expr)
  deriving Inhabited

/-- The number of levels. -/
def Expr.depth : Expr → Nat
  | number _ | constant _ => 1
  | neg x | abs x | factorial x | call _ x => x.depth + 1
  | binary _ x y | fraction x y | power x y | call₂ _ x y => max x.depth y.depth + 1

end NumericAnswer
