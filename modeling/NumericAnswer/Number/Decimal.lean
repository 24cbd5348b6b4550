/-
# Decimal numbers

A finite double is exactly a whole coefficient times a power of ten. The
coefficient is rounded to a number of significant digits, half-way cases to
the even coefficient, and a number is written without the zeros that end its
coefficient.

Key definitions: `Decimal`, `Decimal.ofBinary`, `Decimal.round`,
`Decimal.trim`, `Decimal.leading`.
-/
import NumericAnswer.Number.Binary
import NumericAnswer.Number.Numeral

namespace NumericAnswer

/-- The number `± coefficient · 10 ^ exponent`. -/
structure Decimal where
  negative : Bool
  coefficient : Nat
  exponent : Int
  deriving DecidableEq, Repr

namespace Decimal

/-- The same number: `2 ^ -k` is `5 ^ k · 10 ^ -k`. -/
def ofBinary (x : Binary) : Decimal where
  negative := x.negative
  coefficient := x.numerator * Nat.pow 5 (-x.exponent).toNat
  exponent := min x.exponent 0

/-- The digits of the coefficient. -/
def digits (d : Decimal) : Text :=
  numeral d.coefficient

/-- The exponent of the first digit. -/
def leading (d : Decimal) : Int :=
  d.exponent + d.digits.length - 1

/-- The nearest number of at most `places` digits. -/
def round (places : Nat) (d : Decimal) : Decimal :=
  let excess := d.digits.length - places
  { d with
    coefficient := roundQuotient d.coefficient (Nat.pow 10 excess)
    exponent := d.exponent + excess }

/-- A coefficient and a power without the zeros that end the coefficient; zero
has the power 0. -/
def trimmed (coefficient : Nat) (exponent : Int) : Nat × Int :=
  if coefficient = 0 then (0, 0)
  else if coefficient % 10 = 0 then trimmed (coefficient / 10) (exponent + 1)
  else (coefficient, exponent)
termination_by coefficient

/-- The same number with the shortest coefficient. -/
def trim (d : Decimal) : Decimal :=
  { d with coefficient := (trimmed d.coefficient d.exponent).1
           exponent := (trimmed d.coefficient d.exponent).2 }

/-- The double nearest to the number. -/
def toFloat (d : Decimal) : Float :=
  Binary.ofDecimal d.negative d.coefficient d.exponent

end Decimal
end NumericAnswer
