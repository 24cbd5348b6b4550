/-
# Writing JSON

A value goes on one line with `, ` and `: ` between its parts, or over several
with four spaces for each level. On one line a string keeps every character
but the quote, the backslash and the controls; over several lines it is ASCII.
A value that nests too deeply is written up to where it does.

Key definitions: `Json.stringText`, `Json.line`, `Json.page`, `Json.draft`.
-/
import NumericAnswer.Json.Basic
import NumericAnswer.Number.Shortest
import NumericAnswer.Text.Quoted

namespace NumericAnswer
namespace Json

/-- A number of 16 bits as an escape. -/
def unitEscape (n : Nat) : Text :=
  '\\' :: 'u' :: hexDigits 4 n

/-- A character as one escape, or two beyond 16 bits. -/
def characterEscape (c : Char) : Text :=
  if c.toNat < 0x10000 then unitEscape c.toNat
  else unitEscape (0xd800 + (c.toNat - 0x10000) / 0x400) ++
    unitEscape (0xdc00 + (c.toNat - 0x10000) % 0x400)

def stringChar (ascii : Bool) (c : Char) : Text :=
  if c = '"' || c = '\\' then ['\\', c]
  else if c = '\n' then ['\\', 'n']
  else if c = '\r' then ['\\', 'r']
  else if c = '\t' then ['\\', 't']
  else if c = '\x08' then ['\\', 'b']
  else if c = '\x0c' then ['\\', 'f']
  else if c < ' ' || (ascii && '~' < c) then characterEscape c
  else [c]

def stringText (ascii : Bool) (s : Text) : Text :=
  '"' :: s.flatMap (stringChar ascii) ++ ['"']

/-- The text of a double; what is not finite has words of its own. -/
def numberText (x : Float) : Text :=
  if x.isFinite then floatText x
  else if x.isNaN then "NaN".toList
  else if x < 0 then "-Infinity".toList
  else "Infinity".toList

def boolText (b : Bool) : Text :=
  if b then "true".toList else "false".toList

/-- Texts with a separator between neighbours, in a pair of brackets. -/
def enclosed (opening closing : Text) (separator : Text) (parts : List Text) : Text :=
  opening ++ separator.intercalate parts ++ closing

mutual

/-- The value on one line. -/
def line : Json → Text
  | null => "null".toList
  | bool b => boolText b
  | integer i => integerText i
  | float x => numberText x
  | string s => stringText false s
  | array items => enclosed ['['] [']'] [',', ' '] (lineItems items)
  | object fields => enclosed ['{'] ['}'] [',', ' '] (lineFields fields)

def lineItems : List Json → List Text
  | [] => []
  | item :: items => line item :: lineItems items

def lineFields : List (Text × Json) → List Text
  | [] => []
  | (key, value) :: fields =>
    (stringText false key ++ ':' :: ' ' :: line value) :: lineFields fields

end

/-- A new line at a level. -/
def margin (level : Nat) : Text :=
  '\n' :: List.replicate (4 * level) ' '

/-- Parts on lines of their own, one level deeper than their brackets. -/
def block (level : Nat) (opening closing : Char) (parts : List Text) : Text :=
  if parts.isEmpty then [opening, closing]
  else enclosed (opening :: margin (level + 1)) (margin level ++ [closing])
    (',' :: margin (level + 1)) parts

mutual

/-- The value over several lines, in ASCII, inside `level` brackets. -/
def pageAt (level : Nat) : Json → Text
  | null => "null".toList
  | bool b => boolText b
  | integer i => integerText i
  | float x => numberText x
  | string s => stringText true s
  | array items => block level '[' ']' (pageItems (level + 1) items)
  | object fields => block level '{' '}' (pageFields (level + 1) fields)

def pageItems (level : Nat) : List Json → List Text
  | [] => []
  | item :: items => pageAt level item :: pageItems level items

def pageFields (level : Nat) : List (Text × Json) → List Text
  | [] => []
  | (key, value) :: fields =>
    (stringText true key ++ ':' :: ' ' :: pageAt level value) :: pageFields level fields

end

/-- The value over several lines. -/
def page (value : Json) : Text :=
  pageAt 0 value

/-! ### Values nested too deeply -/

mutual

/-- What is written, inside `level` brackets, of a value of more than `room`
values inside one another. -/
def draftAt : Nat → Nat → Json → Text
  | level, room + 1, array items => '[' :: (margin (level + 1) ++ draftItems (level + 1) room items)
  | level, room + 1, object fields =>
    '\x7b' :: (margin (level + 1) ++ draftFields (level + 1) room fields)
  | _, _, _ => []

def draftItems (level room : Nat) : List Json → Text
  | [] => []
  | item :: items =>
    if depth item ≤ room then
      pageAt level item ++ ',' :: (margin level ++ draftItems level room items)
    else draftAt level room item

def draftFields (level room : Nat) : List (Text × Json) → Text
  | [] => []
  | (key, value) :: fields =>
    stringText true key ++ ':' :: ' ' ::
      if depth value ≤ room then
        pageAt level value ++ ',' :: (margin level ++ draftFields level room fields)
      else draftAt level room value

end

/-- What is written before the first value that is nested too deeply. -/
def draft (room : Nat) (value : Json) : Text :=
  draftAt 0 room value

end Json
end NumericAnswer
