/-
# The closest simple fraction

Of the fractions whose denominator stays within a bound, the one closest to a
number. The convergents of the number's continued fraction are followed as
long as their denominators fit; the answer is the last of them or the last
fraction between it and the one before.

Key definitions: `Convergents`, `Convergents.run`, `closestFraction`.
-/
import NumericAnswer.Number.Binary

namespace NumericAnswer

/-- Two neighbouring convergents. -/
structure Convergents where
  previousNum : Int
  previousDen : Nat
  num : Int
  den : Nat

namespace Convergents

/-- The convergents before the first term. -/
def start : Convergents :=
  ⟨0, 1, 1, 0⟩

/-- The denominator that a further term gives. -/
def nextDen (c : Convergents) (term : Int) : Nat :=
  c.previousDen + term.toNat * c.den

/-- The convergents after a further term. -/
def next (c : Convergents) (term : Int) : Convergents :=
  ⟨c.num, c.den, c.previousNum + term * c.num, c.nextDen term⟩

/-- Follows the continued fraction of `n / d` while denominators fit. -/
def run (bound : Nat) (c : Convergents) (n : Int) (d : Nat) : Convergents :=
  if d = 0 then c
  else if bound < c.nextDen (n / d) then c
  else run bound (c.next (n / d)) d (n % d).toNat
termination_by d
decreasing_by
  have := Int.emod_lt_of_pos n (b := (d : Int)) (by omega)
  have := Int.emod_nonneg n (b := (d : Int)) (by omega)
  omega

/-- The fraction between the two convergents with the largest denominator that
fits. -/
def between (bound : Nat) (c : Convergents) : Rat :=
  let steps := (bound - c.previousDen) / c.den
  mkRat (c.previousNum + steps * c.num) (c.previousDen + steps * c.den)

end Convergents

/-- The distance of two numbers. -/
def distance (r s : Rat) : Rat :=
  if r ≤ s then s - r else r - s

/-- The closest fraction whose denominator is at most `bound`; of two equally
close ones the convergent. -/
def closestFraction (bound : Nat) (r : Rat) : Rat :=
  if r.den ≤ bound then r
  else
    let c := Convergents.start.run bound r.num r.den
    let convergent := mkRat c.num c.den
    let other := c.between bound
    if distance convergent r ≤ distance other r then convergent else other

end NumericAnswer
