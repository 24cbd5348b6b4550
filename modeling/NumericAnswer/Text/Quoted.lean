/-
# Quoted text

A text in quotes shows what it holds on one line. The quote is a single one
unless the text has single quotes and no double ones. The quote and the
backslash get a backslash before them; tab, newline and carriage return have
letters; other characters that are not printable are written by number in two,
four or eight hexadecimal digits.

Key definitions: `hexDigits`, `quoteOf`, `quoted`.
-/
import NumericAnswer.Text.Printable

namespace NumericAnswer

/-- The lower `width` hexadecimal digits of `n`. -/
def hexDigits : Nat → Nat → Text
  | 0, _ => []
  | width + 1, n => hexDigits width (n / 16) ++ [Nat.digitChar (n % 16)]

/-- The quote that goes around a text. -/
def quoteOf (s : Text) : Char :=
  if s.contains '\'' && !s.contains '"' then '"' else '\''

/-- How a character stands between two quotes. -/
def quotedChar (quote c : Char) : Text :=
  if c = quote || c = '\\' then ['\\', c]
  else if c = '\t' then ['\\', 't']
  else if c = '\n' then ['\\', 'n']
  else if c = '\r' then ['\\', 'r']
  else if isPrintable c then [c]
  else if c.toNat ≤ 0xff then '\\' :: 'x' :: hexDigits 2 c.toNat
  else if c.toNat ≤ 0xffff then '\\' :: 'u' :: hexDigits 4 c.toNat
  else '\\' :: 'U' :: hexDigits 8 c.toNat

def quoted (s : Text) : Text :=
  quoteOf s :: s.flatMap (quotedChar (quoteOf s)) ++ [quoteOf s]

theorem length_hexDigits (width n : Nat) : (hexDigits width n).length = width := by
  induction width generalizing n with
  | zero => rfl
  | succ width ih => simp [hexDigits, ih]

end NumericAnswer
