/-
# Doubles as exact numbers

A finite double is a sign, a mantissa and a power of two. Rounding goes the
other way: the double nearest to a quotient of two whole numbers, the one with
the even mantissa of two equally near, and infinity beyond the largest.

Key definitions: `Binary`, `Binary.ofFloat?`, `Binary.nearest`,
`Binary.ofDecimal`, `Binary.roundEven`.
-/
import NumericAnswer.Number.Rounding

namespace NumericAnswer

/-- The number `± mantissa · 2 ^ exponent`. -/
structure Binary where
  negative : Bool
  mantissa : Nat
  exponent : Int
  deriving DecidableEq, Repr

namespace Binary

/-- The exact value of a double, if it is finite. -/
def ofFloat? (x : Float) : Option Binary :=
  let bits : Nat := x.toBits.toNat
  let biased : Nat := bits / Nat.pow 2 52 % Nat.pow 2 11
  let fraction : Nat := bits % Nat.pow 2 52
  let negative := decide (Nat.pow 2 63 ≤ bits)
  if biased = 2047 then none
  else if biased = 0 then some ⟨negative, fraction, -1074⟩
  else some ⟨negative, fraction + Nat.pow 2 52, (biased : Int) - 1075⟩

/-- The magnitude is `numerator / denominator`. -/
def numerator (x : Binary) : Nat :=
  x.mantissa * Nat.pow 2 x.exponent.toNat

def denominator (x : Binary) : Nat :=
  Nat.pow 2 (-x.exponent).toNat

/-- A magnitude with the sign of `x`. -/
def withSign (x : Binary) (n : Nat) : Int :=
  if x.negative then -(n : Int) else n

def toRat (x : Binary) : Rat :=
  mkRat (x.withSign x.numerator) x.denominator

def isInteger (x : Binary) : Bool :=
  x.numerator % x.denominator = 0

/-- The magnitude without its fractional part. -/
def truncated (x : Binary) : Nat :=
  x.numerator / x.denominator

/-- The nearest whole number, the even one of two equally near. -/
def roundEven (x : Binary) : Int :=
  x.withSign (roundQuotient x.numerator x.denominator)

theorem denominator_pos (x : Binary) : 0 < x.denominator :=
  Nat.two_pow_pos _

/-- The exponent of the highest binary digit of `num / den`. -/
def leadingExponent (num den : Nat) : Int :=
  let estimate : Int := (num.log2 : Int) - den.log2
  if den * Nat.pow 2 estimate.toNat ≤ num * Nat.pow 2 (-estimate).toNat then estimate
  else estimate - 1

/-- The bits of infinity. -/
def infinityBits : Nat :=
  2047 * Nat.pow 2 52

/-- The bits of the double nearest to `num / den`. A mantissa that rounds up to
the next power of two carries into the exponent. -/
def nearestBits (num den : Nat) : Nat :=
  if num = 0 then 0
  else
    let exponent := max (leadingExponent num den - 52) (-1074)
    let mantissa :=
      roundQuotient (num * Nat.pow 2 (-exponent).toNat) (den * Nat.pow 2 exponent.toNat)
    min infinityBits ((exponent + 1074).toNat * Nat.pow 2 52 + mantissa)

/-- The double with these bits and a sign. -/
def signed (negative : Bool) (bits : Nat) : Float :=
  Float.ofBits (UInt64.ofNat (bits + if negative then Nat.pow 2 63 else 0))

/-- Infinity with a sign. -/
def infinity (negative : Bool) : Float :=
  signed negative infinityBits

/-- The double nearest to `± num / den`. -/
def nearest (negative : Bool) (num den : Nat) : Float :=
  signed negative (nearestBits num den)

/-- The double nearest to a whole number. -/
def ofInt (i : Int) : Float :=
  nearest (decide (i < 0)) i.natAbs 1

/-- The double nearest to a rational number. -/
def ofRat (r : Rat) : Float :=
  nearest (decide (r.num < 0)) r.num.natAbs r.den

/-- The double nearest to `± coefficient · 10 ^ exponent`. A power above
400 makes any coefficient larger than every finite double, and one below -400
less the binary length of the coefficient rounds to zero. -/
def ofDecimal (negative : Bool) (coefficient : Nat) (exponent : Int) : Float :=
  if coefficient = 0 then nearest negative 0 1
  else if 400 < exponent then infinity negative
  else if exponent + coefficient.log2 < -400 then nearest negative 0 1
  else nearest negative (coefficient * Nat.pow 10 exponent.toNat) (Nat.pow 10 (-exponent).toNat)

end Binary

end NumericAnswer
