/-
# Cosmetic macros and glyphs

What wraps or decorates an answer without a meaning of its own is dropped:
dollar signs and display brackets around it, style and sizing commands, text
annotations. Spacing commands become a space, upright names lose their
wrapper, and glyphs and commands for the same sign become that sign.

Key definitions: `unwrapped`, `Rule.style`, `Rule.sizing`, `Rule.spacing`,
`Rule.annotation`, `Rule.upright`, `Rule.bar`, `Rule.escapedBrace`,
`Rule.functionName`, `Rule.sign`, `Rule.pi`, `Rule.e`.
-/
import NumericAnswer.Function.Basic
import NumericAnswer.Notation.Pass

namespace NumericAnswer

/-! ### Wrappers -/

/-- The text without the dollar signs at both ends. -/
def stripDollars (s : Text) : Text :=
  ((s.dropWhile (· = '$')).reverse.dropWhile (· = '$')).reverse

/-- The text without a display bracket that opens it. -/
def dropDisplayOpening : Text → Text
  | '\\' :: '[' :: s | '\\' :: '(' :: s => s
  | s => s

/-- The text without a display bracket that closes it. -/
def dropDisplayClosing (s : Text) : Text :=
  match s.reverse with
  | ']' :: '\\' :: r | ')' :: '\\' :: r => r.reverse
  | _ => s

/-- An answer without blanks, dollar signs and display brackets around it. -/
def unwrapped (s : Text) : Text :=
  strip (dropDisplayClosing (dropDisplayOpening (strip (stripDollars (strip s)))))

/-! ### Commands -/

/-- The blanks at the front of a text, counted. -/
def blankLength (s : Text) : Nat :=
  (s.takeWhile isBlank).length

/-- Recognises one of the commands; `build` is given the length of its name
and the text after it. -/
def Rule.command (names : List Text) (build : Nat → Text → Option (Text × Nat)) : Rule :=
  fun c s =>
    let name := leadingLetters s
    if c = '\\' && names.contains name then build name.length (s.drop name.length) else none

/-- The text in braces at the front, without braces inside, and the length of
it all with the blanks before it. -/
def braced? (s : Text) : Option (Text × Nat) :=
  match dropBlanks s with
  | '\x7b' :: t =>
    let content := t.takeWhile fun c => c ≠ '\x7b' && c ≠ '\x7d'
    if (t.drop content.length).head? = some '\x7d' then
      some (content, blankLength s + content.length + 2)
    else none
  | _ => none

namespace Rule

def styleNames : List Text :=
  ["displaystyle", "textstyle", "scriptstyle", "scriptscriptstyle"].map String.toList

/-- Style commands go, with the blanks after them. -/
def style : Rule :=
  command styleNames fun length rest =>
    some ([], length + blankLength rest)

/-- The commands that size the bracket after them. -/
def sizingNames : List Text :=
  ["left", "right", "big", "bigl", "bigr", "bigg", "biggl", "biggr", "Big", "Bigl", "Bigr", "Bigg",
   "Biggl", "Biggr"].map String.toList

/-- Sizing commands go, with the blanks and a point for an absent bracket. -/
def sizing : Rule :=
  command sizingNames fun length rest =>
    let blanks := blankLength rest
    let point := if (rest.drop blanks).head? = some '.' then 1 else 0
    some ([], length + blanks + point)

/-- The signs that make a space after a backslash. -/
def spacingSigns : List Char :=
  [',', ';', ':', '!', ' ']

/-- Spacing commands and ties become a space. -/
def spacing : Rule := fun c s =>
  if c = '~' then some ([' '], 0)
  else if c = '\\' && s.head?.any spacingSigns.contains then some ([' '], 1)
  else command ["quad".toList, "qquad".toList] (fun length _ => some ([' '], length)) c s

def annotationNames : List Text :=
  ["text".toList, "textrm".toList, "mbox".toList]

/-- Annotations in words go. -/
def annotation : Rule :=
  command annotationNames fun length rest =>
    (braced? rest).map fun (_, braces) => ([], length + braces)

def uprightNames : List Text :=
  ["mathrm".toList, "mathit".toList, "operatorname".toList]

/-- A name in upright letters stands for itself; a function gets its backslash
back. -/
def upright : Rule :=
  command uprightNames fun length rest =>
    (braced? rest).map fun (content, braces) =>
      let name := strip content
      (if (UnaryFunction.ofCommand? name).isSome then '\\' :: name else name, length + braces)

def barNames : List Text :=
  ["lvert".toList, "rvert".toList, "vert".toList, "mid".toList]

/-- The commands for a bar. -/
def bar : Rule :=
  command barNames fun length _ =>
    some (['|'], length)

/-- Braces that show are round brackets. -/
def escapedBrace : Rule := fun c s =>
  if c ≠ '\\' then none
  else if s.head? = some '\x7b' then some (['('], 1)
  else if s.head? = some '\x7d' then some ([')'], 1)
  else none

/-- The command of a function becomes its name. -/
def functionName : Rule := fun c s =>
  if c = '\\' then
    (UnaryFunction.ofCommand? (leadingLetters s)).map fun f =>
      (f.name.toList, (leadingLetters s).length)
  else none

/-- The glyphs of multiplication. -/
def timesGlyphs : List Char :=
  ['×', '·', '∙', '⋅']

/-- Signs of multiplication and division, and the minus glyph. -/
def sign : Rule := fun c s =>
  if timesGlyphs.contains c then some (['*'], 0)
  else if c = '÷' then some (['/'], 0)
  else if c = '−' then some (['-'], 0)
  else if c = '\\' then
    let name := leadingLetters s
    if ["times".toList, "cdot".toList, "ast".toList].contains name then some (['*'], name.length)
    else if name = "div".toList then some (['/'], name.length)
    else none
  else none

def pi : Rule := fun c s =>
  if c = 'π' then some ("pi".toList, 0)
  else command ["pi".toList] (fun length _ => some ("pi".toList, length)) c s

def e : Rule :=
  command ["e".toList] fun length _ => some (['e'], length)

end Rule
end NumericAnswer
