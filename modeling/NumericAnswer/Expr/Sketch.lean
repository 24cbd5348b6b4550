/-
# Expressions put together by hand

A sketch is an expression whose names, operators and argument lists are free.
Every expression is a sketch, and shows as one; evaluation finds out what is
wrong with the others, after their operands have been evaluated.

Key definitions: `Sketch`, `Sketch.text`, `Sketch.value`, `Expr.toSketch`,
`Expr.text`, `applyNamed`.
-/
import NumericAnswer.Expr.Value
import NumericAnswer.Text.Quoted

namespace NumericAnswer

inductive Sketch where
  | number (x : Float)
  | constant (name : Text)
  | neg (x : Sketch)
  | abs (x : Sketch)
  | factorial (x : Sketch)
  | binary (operator : Text) (x y : Sketch)
  | fraction (x y : Sketch)
  | power (base exponent : Sketch)
  | call (name : Text) (arguments : List Sketch)
  deriving Inhabited

/-- Why a sketch has no value. -/
inductive SketchFault where
  | value (f : ValueFault)
  | unknownName (name : Text)
  | invalidOperator (operator : Text)
  | argumentCount (function : String) (expected given : Nat)

namespace SketchFault

def kind : SketchFault → Kind
  | value f => f.kind
  | unknownName _ | invalidOperator _ | argumentCount _ _ _ => .syntaxError

def code : SketchFault → Code
  | value f => f.code
  | unknownName _ => .unknownName
  | invalidOperator _ => .unexpectedToken
  | argumentCount _ _ _ => .missingOperand

def message : SketchFault → String
  | value f => f.message
  | unknownName name => String.ofList (quoted name)
  | invalidOperator operator => "Invalid Operator: " ++ String.ofList operator
  | argumentCount function expected given =>
    s!"{function} expects {expected} argument(s), got {given}"

end SketchFault

/-- A step of evaluation that looks up no name. -/
def Sketch.known : Except ValueFault Float → Except SketchFault Float
  | .ok x => .ok x
  | .error f => .error (.value f)

variable [MathLibrary]

/-- Applies the function of a name to its arguments. -/
def applyNamed (name : Text) (arguments : List Float) : Except SketchFault Float :=
  match Word.ofText? name, arguments with
  | some (.unary f), [x] => Sketch.known (f.value x)
  | some (.binary f), [x, y] => Sketch.known (f.value x y)
  | some (.unary f), _ => .error (.argumentCount f.name 1 arguments.length)
  | some (.binary f), _ => .error (.argumentCount f.name 2 arguments.length)
  | _, _ => .error (.unknownName name)

def BinaryOperator.ofText? (text : Text) : Option BinaryOperator :=
  [add, subtract, multiply, divide].find? fun o => [o.sign] = text

namespace Sketch

/-! ### Text -/

/-- A node with its name and its parts. -/
def node (name : String) (parts : List Text) : Text :=
  name.toList ++ '(' :: [',', ' '].intercalate parts ++ [')']

mutual

/-- The tree in words. -/
def text : Sketch → Text
  | number x => node "Number" [floatText x]
  | constant name => node "Constant" [quoted name]
  | neg x => node "UnaryMinus" [text x]
  | abs x => node "Abs" [text x]
  | factorial x => node "Factorial" [text x]
  | binary operator x y =>
    node "BinOp" [quoted operator, "left=".toList ++ text x, "right=".toList ++ text y]
  | fraction x y => node "Fraction" [text x, text y]
  | power x y => node "Power" [text x, text y]
  | call name arguments =>
    node "FunctionCall"
      [quoted name, '[' :: [',', ' '].intercalate (argumentTexts arguments) ++ [']']]

def argumentTexts : List Sketch → List Text
  | [] => []
  | x :: rest => text x :: argumentTexts rest

end

/-! ### Value -/

mutual

/-- The value of a sketch of at most `levels` levels. -/
def valueWithin : Nat → Sketch → Except SketchFault Float
  | 0, _ => .error (.value .nestedTooDeeply)
  | _ + 1, number x => known (finite "literal" x)
  | _ + 1, constant name =>
    match Word.ofText? name with
    | some (.constant c) => .ok c.value
    | _ => .error (.unknownName name)
  | levels + 1, neg x => do
    let a ← valueWithin levels x
    .ok (-a)
  | levels + 1, abs x => do
    let a ← valueWithin levels x
    .ok a.abs
  | levels + 1, factorial x => do
    let a ← valueWithin levels x
    known (NumericAnswer.factorial a)
  | levels + 1, binary operator x y => do
    let a ← valueWithin levels x
    let b ← valueWithin levels y
    match BinaryOperator.ofText? operator with
    | some o => known (o.value a b)
    | none => .error (.invalidOperator operator)
  | levels + 1, fraction x y => do
    let a ← valueWithin levels x
    let b ← valueWithin levels y
    known (quotient a b)
  | levels + 1, power x y => do
    let a ← valueWithin levels x
    let b ← valueWithin levels y
    known (NumericAnswer.power a b)
  | levels + 1, call name arguments => do
    let values ← valuesWithin levels arguments
    let result ← applyNamed name values
    known (finite (String.ofList name) result)

/-- The values of arguments, the first one first. -/
def valuesWithin : Nat → List Sketch → Except SketchFault (List Float)
  | _, [] => .ok []
  | levels, x :: rest => do
    let a ← valueWithin levels x
    let more ← valuesWithin levels rest
    .ok (a :: more)

end

def value (s : Sketch) : Except SketchFault Float := do
  let result ← valueWithin Expr.levelLimit s
  known (finite "result" result)

end Sketch

namespace Expr

/-- An expression is a sketch with valid names. -/
def toSketch : Expr → Sketch
  | number x => .number x
  | constant c => .constant c.name.toList
  | neg x => .neg x.toSketch
  | abs x => .abs x.toSketch
  | factorial x => .factorial x.toSketch
  | binary o x y => .binary [o.sign] x.toSketch y.toSketch
  | fraction x y => .fraction x.toSketch y.toSketch
  | power x y => .power x.toSketch y.toSketch
  | call f x => .call f.name.toList [x.toSketch]
  | call₂ f x y => .call f.name.toList [x.toSketch, y.toSketch]

/-- The tree in words. -/
def text (e : Expr) : Text :=
  e.toSketch.text

end Expr
end NumericAnswer
