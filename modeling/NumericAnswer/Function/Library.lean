/-
# The mathematical library

Powers, logarithms, exponentials and the functions of angles are computed by a
mathematical library from outside. Everything here works with any such library;
programs run with the one that the machine has.

Key definitions: `Elementary`, `MathLibrary`, `MathLibrary.native`,
`MathLibrary.Lawful`.
-/
import NumericAnswer.Number.Binary

namespace NumericAnswer

/-- The library's functions of one number. -/
inductive Elementary where
  | sin | cos | tan
  | asin | acos | atan
  | sinh | cosh | tanh
  | exp | log | log2 | log10
  deriving DecidableEq, Repr

/-- A mathematical library. -/
class MathLibrary where
  elementary : Elementary → Float → Float
  atan2 : Float → Float → Float
  pow : Float → Float → Float

namespace MathLibrary

/-- The library of the machine. -/
instance native : MathLibrary where
  elementary
    | .sin => Float.sin
    | .cos => Float.cos
    | .tan => Float.tan
    | .asin => Float.asin
    | .acos => Float.acos
    | .atan => Float.atan
    | .sinh => Float.sinh
    | .cosh => Float.cosh
    | .tanh => Float.tanh
    | .exp => Float.exp
    | .log => Float.log
    | .log2 => Float.log2
    | .log10 => Float.log10
  atan2 := Float.atan2
  pow := Float.pow

end MathLibrary

/-- The number is a whole one. -/
def isWhole (x : Float) : Bool :=
  match Binary.ofFloat? x with
  | some b => b.isInteger
  | none => false

/-- The function is defined at the number. -/
def Elementary.isDefinedAt : Elementary → Float → Bool
  | asin, x | acos, x => x.abs ≤ 1
  | log, x | log2, x | log10, x => 0 < x
  | _, _ => true

/-- What the standards for floating-point arithmetic promise: no function gives
what is not a number where it is defined, and a power does so only for a
negative base and an exponent that is not whole. -/
structure MathLibrary.Lawful (library : MathLibrary) : Prop where
  elementary_isNaN {f : Elementary} {x : Float} (hx : x.isFinite = true)
    (hf : f.isDefinedAt x = true) : (library.elementary f x).isNaN = false
  pow_isNaN {x y : Float} (hx : x.isNaN = false) (hy : y.isNaN = false)
    (hxy : x < 0 → isWhole y = true) : (library.pow x y).isNaN = false

end NumericAnswer
