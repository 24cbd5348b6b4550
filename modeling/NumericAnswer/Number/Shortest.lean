/-
# The text of a double

A double is written with the fewest digits that read back to it; of two such
numerals the one nearer to its exact value, and the even one of two equally
near. A fault that shows a number in general form rounds it to six digits.

Key definitions: `Shortest.candidate?`, `Shortest.decimal`, `floatText`,
`generalText`.
-/
import NumericAnswer.Number.Layout

namespace NumericAnswer
namespace Shortest

/-- Of the two numbers of `places` digits around `d`, the nearer one that reads
back to `x`. -/
def candidate? (x : Float) (d : Decimal) (places : Nat) : Option Decimal :=
  let excess := d.digits.length - places
  let unit := Nat.pow 10 excess
  let lower := d.coefficient / unit
  let near := roundQuotient d.coefficient unit
  let far := if near = lower then lower + 1 else lower
  let make (coefficient : Nat) : Decimal := ⟨d.negative, coefficient, d.exponent + excess⟩
  [make near, make far].find? fun c => c.toFloat.toBits = x.toBits

/-- The shortest decimal that reads back to `x`, whose exact value is `d`. -/
def decimal (x : Float) (d : Decimal) : Decimal :=
  ((List.range 17).findSome? fun n => candidate? x d (n + 1)).getD d

end Shortest

/-- A value read by machines: positional from 0.0001 up to 16 digits. -/
def shortestLayout : Layout :=
  { least := -4, below := 16, marksWhole := true, mark := 'e', width := 2 }

/-- A value inside a message: positional from 0.0001 up to six digits. -/
def generalLayout : Layout :=
  { least := -4, below := 6, marksWhole := false, mark := 'e', width := 2 }

/-- The text of what is not a finite number. -/
def nonFiniteText (x : Float) : Text :=
  if x.isNaN then ['n', 'a', 'n'] else if x < 0 then ['-', 'i', 'n', 'f'] else ['i', 'n', 'f']

/-- The fewest digits that read back. -/
def floatText (x : Float) : Text :=
  match Binary.ofFloat? x with
  | none => nonFiniteText x
  | some b => shortestLayout.render (Shortest.decimal x (Decimal.ofBinary b))

/-- Six significant digits. -/
def generalText (x : Float) : Text :=
  match Binary.ofFloat? x with
  | none => nonFiniteText x
  | some b => generalLayout.render ((Decimal.ofBinary b).round 6)

def floatString (x : Float) : String :=
  String.ofList (floatText x)

def generalString (x : Float) : String :=
  String.ofList (generalText x)

end NumericAnswer
