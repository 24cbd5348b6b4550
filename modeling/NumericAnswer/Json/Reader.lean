/-
# Reading JSON

The grammar is the standard one with three words more, `NaN`, `Infinity` and
`-Infinity`. A key that comes twice has its last value at its first place. A
whole number may have 4300 digits, and values nest at most `nestingLimit`
deep. A surrogate that stands alone has no character and is read as the
replacement character.

Key definitions: `Json.Fault`, `Json.read`.
-/
import NumericAnswer.Json.Basic
import NumericAnswer.Number.Binary
import NumericAnswer.Number.Numeral

namespace NumericAnswer
namespace Json

/-- Why a text is no JSON value. -/
inductive Fault where
  | malformed
  | longInteger (digits : Nat)
  | nestedTooDeeply
  deriving DecidableEq, Repr

/-- The most digits that a whole number is read with. -/
def digitLimit : Nat := 4300

def nestingLimit : Nat := 1000

/-- The four characters that may stand between tokens. -/
def isSpace (c : Char) : Bool :=
  c = ' ' || c = '\t' || c = '\n' || c = '\r'

def dropSpaces (s : Text) : Text :=
  s.dropWhile isSpace

/-! ### Strings -/

def hexValue? (c : Char) : Option Nat :=
  if '0' ≤ c && c ≤ '9' then some (c.toNat - 48)
  else if 'a' ≤ c && c ≤ 'f' then some (c.toNat - 87)
  else if 'A' ≤ c && c ≤ 'F' then some (c.toNat - 55)
  else none

/-- The four hexadecimal digits at the front of a text. -/
def codeUnit? : Text → Option Nat
  | a :: b :: c :: d :: _ => do
    let a ← hexValue? a
    let b ← hexValue? b
    let c ← hexValue? c
    let d ← hexValue? d
    some (((a * 16 + b) * 16 + c) * 16 + d)
  | _ => none

/-- The low surrogate escaped at the front of a text. -/
def lowSurrogate? : Text → Option Nat
  | '\\' :: 'u' :: s => (codeUnit? s).filter fun unit => 0xdc00 ≤ unit && unit ≤ 0xdfff
  | _ => none

/-- The character of a `\u` escape whose digits stand at the front of `s`, and
how many characters it takes. -/
def unicodeEscape? (s : Text) : Option (Char × Nat) :=
  (codeUnit? s).map fun unit =>
    if 0xd800 ≤ unit && unit ≤ 0xdbff then
      match lowSurrogate? (s.drop 4) with
      | some low => (Char.ofNat (0x10000 + (unit - 0xd800) * 0x400 + (low - 0xdc00)), 10)
      | none => ('\ufffd', 4)
    else if 0xdc00 ≤ unit && unit ≤ 0xdfff then ('\ufffd', 4)
    else (Char.ofNat unit, 4)

/-- The character of an escape after its backslash, and how many characters it
takes. -/
def escape? : Text → Option (Char × Nat)
  | [] => none
  | c :: s =>
    match c with
    | '"' => some ('"', 1)
    | '\\' => some ('\\', 1)
    | '/' => some ('/', 1)
    | 'b' => some ('\x08', 1)
    | 'f' => some ('\x0c', 1)
    | 'n' => some ('\n', 1)
    | 'r' => some ('\r', 1)
    | 't' => some ('\t', 1)
    | 'u' => (unicodeEscape? s).map fun (character, length) => (character, length + 1)
    | _ => none

/-- A string after its opening quote. Controls must be escaped. -/
def readString : Text → Except Fault (Text × Text)
  | [] => .error .malformed
  | c :: s =>
    if c = '"' then .ok ([], s)
    else if c = '\\' then
      match escape? s with
      | none => .error .malformed
      | some (character, length) =>
        (readString (s.drop length)).map fun (more, rest) => (character :: more, rest)
    else if c < ' ' then .error .malformed
    else (readString s).map fun (more, rest) => (c :: more, rest)
termination_by s => s.length
decreasing_by all_goals simp only [List.length_cons, List.length_drop]; omega

/-! ### Numbers -/

/-- The fraction of a number: a point with a digit after it. -/
def spanFraction : Text → Text × Text
  | '.' :: s =>
    match s.span Char.isDigit with
    | ([], _) => ([], '.' :: s)
    | digits => digits
  | s => ([], s)

/-- The power of ten of a number, if it has one. -/
def spanPower : Text → Option Int × Text
  | c :: s =>
    if c = 'e' || c = 'E' then
      let (negative, afterSign) : Bool × Text := match s with
        | '+' :: t => (false, t)
        | '-' :: t => (true, t)
        | t => (false, t)
      match afterSign.span Char.isDigit with
      | ([], _) => (none, c :: s)
      | (digits, rest) =>
        (some (if negative then -(digitsValue digits : Int) else digitsValue digits), rest)
    else (none, c :: s)
  | [] => (none, [])

/-- The whole part of a number: a zero, or digits that do not start with one. -/
def spanWhole : Text → Text × Text
  | '0' :: s => (['0'], s)
  | s => s.span Char.isDigit

/-- A number after its sign. -/
def readNumber (negative : Bool) (s : Text) : Except Fault (Json × Text) :=
  match spanWhole s with
  | ([], _) => .error .malformed
  | (whole, afterWhole) =>
    let (fraction, afterFraction) := spanFraction afterWhole
    let (power, rest) := spanPower afterFraction
    if fraction.isEmpty && power.isNone then
      if digitLimit < whole.length then .error (.longInteger whole.length)
      else
        .ok (.integer (if negative then -(digitsValue whole : Int) else digitsValue whole), rest)
    else
      .ok (.float (Binary.ofDecimal negative (digitsValue (whole ++ fraction))
        (power.getD 0 - fraction.length)), rest)

/-! ### Values -/

/-- A fixed word at the front of a text. -/
def readWord (word : String) (value : Json) (s : Text) : Except Fault (Json × Text) :=
  match word.toList.isPrefixOf? s with
  | some rest => .ok (value, rest)
  | none => .error .malformed

/-- The items of an array after its bracket, at most `bound` of them. -/
def readItems (readValue : Text → Except Fault (Json × Text)) :
    Nat → Text → Except Fault (List Json × Text)
  | 0, _ => .error .malformed
  | bound + 1, s => do
    let (item, rest) ← readValue s
    match dropSpaces rest with
    | ',' :: rest => do
      let (items, rest) ← readItems readValue bound (dropSpaces rest)
      .ok (item :: items, rest)
    | ']' :: rest => .ok ([item], rest)
    | _ => .error .malformed

/-- The entries of an object after its brace, at most `bound` of them. -/
def readEntries (readValue : Text → Except Fault (Json × Text)) :
    Nat → Text → Except Fault (List (Text × Json) × Text)
  | 0, _ => .error .malformed
  | bound + 1, s => do
    let .cons '"' s := s | .error .malformed
    let (key, rest) ← readString s
    let .cons ':' rest := dropSpaces rest | .error .malformed
    let (value, rest) ← readValue (dropSpaces rest)
    match dropSpaces rest with
    | ',' :: rest => do
      let (entries, rest) ← readEntries readValue bound (dropSpaces rest)
      .ok ((key, value) :: entries, rest)
    | '}' :: rest => .ok ([(key, value)], rest)
    | _ => .error .malformed

/-- The value at the front of a text, with at most `nesting` values inside one
another. -/
def readValue : Nat → Text → Except Fault (Json × Text)
  | 0, _ => .error .nestedTooDeeply
  | nesting + 1, s =>
    match s with
    | [] => .error .malformed
    | c :: rest =>
      match c with
      | '"' => (readString rest).map fun (text, rest) => (.string text, rest)
      | '{' =>
        match dropSpaces rest with
        | '}' :: rest => .ok (.object [], rest)
        | rest => (readEntries (readValue nesting) rest.length rest).map fun (entries, rest) =>
            (.object (Fields.putAll entries []), rest)
      | '[' =>
        match dropSpaces rest with
        | ']' :: rest => .ok (.array [], rest)
        | rest => (readItems (readValue nesting) rest.length rest).map fun (items, rest) =>
            (.array items, rest)
      | 'n' => readWord "null" .null s
      | 't' => readWord "true" (.bool true) s
      | 'f' => readWord "false" (.bool false) s
      | 'N' => readWord "NaN" (.float (Float.ofBits 0x7ff8000000000000)) s
      | 'I' => readWord "Infinity" (.float (Binary.infinity false)) s
      | '-' =>
        match readWord "-Infinity" (.float (Binary.infinity true)) s with
        | .ok reading => .ok reading
        | .error _ => readNumber true rest
      | _ => readNumber false s

/-- The value that a whole text writes. -/
def read (s : Text) : Except Fault Json := do
  let (value, rest) ← readValue nestingLimit (dropSpaces s)
  if (dropSpaces rest).isEmpty then .ok value else .error .malformed

end Json
end NumericAnswer
