/-
# Functions and constants

The functions of one and of two arguments and the constants that an expression
may name.

Key definitions: `Constant`, `UnaryFunction`, `BinaryFunction`, `Word`,
`Word.all`, `Word.ofText?`.
Key theorems: `Word.ofText?_text`, `Word.text_ne_nil`.
-/
import NumericAnswer.Text.Basic

namespace NumericAnswer

inductive Constant where
  | pi
  | e
  deriving DecidableEq, Repr

namespace Constant

def name : Constant → String
  | pi => "pi"
  | e => "e"

/-- The double nearest to the constant. -/
def value : Constant → Float
  | pi => 3.141592653589793
  | e => 2.718281828459045

end Constant

inductive UnaryFunction where
  | sin | cos | tan | cot | sec | csc
  | arcsin | arccos | arctan | arccot
  | sinh | cosh | tanh
  | exp | ln | log | sqrt
  deriving DecidableEq, Repr

namespace UnaryFunction

def name : UnaryFunction → String
  | sin => "sin"
  | cos => "cos"
  | tan => "tan"
  | cot => "cot"
  | sec => "sec"
  | csc => "csc"
  | arcsin => "arcsin"
  | arccos => "arccos"
  | arctan => "arctan"
  | arccot => "arccot"
  | sinh => "sinh"
  | cosh => "cosh"
  | tanh => "tanh"
  | exp => "exp"
  | ln => "ln"
  | log => "log"
  | sqrt => "sqrt"

/-- The functions whose command is the name with a backslash. The root is not
among them: its command may carry a degree. -/
def commands : List UnaryFunction :=
  [arcsin, arccos, arctan, arccot, sinh, cosh, tanh, sin, cos, tan, cot, sec, csc, ln, log, exp]

/-- The function with a command of this name. -/
def ofCommand? (name : Text) : Option UnaryFunction :=
  commands.find? fun f => f.name.toList = name

end UnaryFunction

/-- The first argument is the degree of a root or the base of a logarithm. -/
inductive BinaryFunction where
  | nthroot
  | logBase
  deriving DecidableEq, Repr

def BinaryFunction.name : BinaryFunction → String
  | nthroot => "nthroot"
  | logBase => "logBase"

/-- The names of the canonical form. -/
inductive Word where
  | constant (c : Constant)
  | fraction
  | absolute
  | unary (f : UnaryFunction)
  | binary (f : BinaryFunction)
  deriving DecidableEq, Repr

namespace Word

def name : Word → String
  | constant c => c.name
  | fraction => "frac"
  | absolute => "abs"
  | unary f => f.name
  | binary f => f.name

def text (w : Word) : Text :=
  w.name.toList

/-- Every word, longer ones first. -/
def all : List Word :=
  [binary .nthroot, binary .logBase,
   unary .arcsin, unary .arccos, unary .arctan, unary .arccot,
   unary .sinh, unary .cosh, unary .tanh, unary .sqrt, fraction,
   unary .sin, unary .cos, unary .tan, unary .cot, unary .sec, unary .csc, unary .exp, unary .log,
   absolute, constant .pi, unary .ln, constant .e]

/-- The word that is spelled so. -/
def ofText? (text : Text) : Option Word :=
  all.find? fun w => w.text = text

/-- The longest word that the text starts with. -/
def atFront? (text : Text) : Option Word :=
  all.find? fun w => w.text.isPrefixOf text

theorem mem_all (w : Word) : w ∈ all := by
  cases w with
  | constant c => cases c <;> decide
  | unary f => cases f <;> decide
  | binary f => cases f <;> decide
  | _ => decide

theorem text_ne_nil (w : Word) : w.text ≠ [] := by
  cases w with
  | constant c => cases c <;> decide +kernel
  | unary f => cases f <;> decide +kernel
  | binary f => cases f <;> decide +kernel
  | _ => decide +kernel

theorem ofText?_text (w : Word) : ofText? w.text = some w := by
  cases w with
  | constant c => cases c <;> decide +kernel
  | unary f => cases f <;> decide +kernel
  | binary f => cases f <;> decide +kernel
  | _ => decide +kernel

theorem text_of_ofText? {text : Text} {w : Word} (h : ofText? text = some w) : w.text = text := by
  simpa using List.find?_some h

end Word
end NumericAnswer
