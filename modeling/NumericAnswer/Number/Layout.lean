/-
# The written form of a decimal number

A layout says when a number is written positionally and when with a power of
ten, and how that power looks.

Key definitions: `Layout`, `Layout.render`.
-/
import NumericAnswer.Number.Decimal

namespace NumericAnswer

/-- How a decimal number is written. -/
structure Layout where
  /-- The least exponent of the first digit that is written positionally. -/
  least : Int
  /-- From this exponent on the number is written with a power of ten. -/
  below : Int
  /-- A whole number in positional form ends in `.0`. -/
  marksWhole : Bool
  /-- The letter before the power. -/
  mark : Char
  /-- The least number of digits of the power. -/
  width : Nat

namespace Layout

/-- The digits with the point after the place of exponent 0. -/
def positional (layout : Layout) (digits : Text) (leading : Int) : Text :=
  if leading < 0 then
    '0' :: '.' :: (List.replicate (-leading - 1).toNat '0' ++ digits)
  else
    let places := leading.toNat + 1
    let whole := digits.take places ++ List.replicate (places - digits.length) '0'
    match digits.drop places with
    | [] => if layout.marksWhole then whole ++ ['.', '0'] else whole
    | fraction => whole ++ '.' :: fraction

/-- The power of ten, with its sign. -/
def power (layout : Layout) (leading : Int) : Text :=
  let digits := numeral leading.natAbs
  layout.mark :: (if leading < 0 then '-' else '+') ::
    (List.replicate (layout.width - digits.length) '0' ++ digits)

/-- The first digit, the point and the others, and the power of ten. -/
def scientific (layout : Layout) (digits : Text) (leading : Int) : Text :=
  match digits with
  | first :: second :: more => first :: '.' :: second :: more ++ layout.power leading
  | digits => digits ++ layout.power leading

def render (layout : Layout) (d : Decimal) : Text :=
  let d := d.trim
  let magnitude :=
    if layout.least ≤ d.leading && d.leading < layout.below then layout.positional d.digits d.leading
    else layout.scientific d.digits d.leading
  if d.negative then '-' :: magnitude else magnitude

end Layout
end NumericAnswer
