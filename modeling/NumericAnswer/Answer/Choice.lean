/-
# Choice answers

A choice answer names options by letters. It stands for the set of the letters
from A to Z in it once it is in upper case, whatever else it holds. Outside
ASCII a few letters have capitals among those, some of them more than one.

Key definitions: `capitals`, `optionLetters`.
Key theorem: `mem_optionLetters_iff`.
-/
import NumericAnswer.Text.Basic

namespace NumericAnswer

/-- The letters beyond ASCII whose upper case has letters from A to Z, with
those letters. -/
def capitalTable : List (Char × String) :=
  [('ß', "S"), ('ı', "I"), ('ŉ', "N"), ('ſ', "S"), ('ǰ', "J"), ('ẖ', "H"), ('ẗ', "T"), ('ẘ', "W"),
   ('ẙ', "Y"), ('ẚ', "A"), ('ﬀ', "F"), ('ﬁ', "FI"), ('ﬂ', "FL"), ('ﬃ', "FI"), ('ﬄ', "FL"),
   ('ﬅ', "ST"), ('ﬆ', "ST")]

/-- The letters from A to Z in the upper case of a character. -/
def capitals (c : Char) : Text :=
  if 'A' ≤ c && c ≤ 'Z' then [c]
  else if 'a' ≤ c && c ≤ 'z' then [Char.ofNat (c.toNat - 32)]
  else ((capitalTable.lookup c).map String.toList).getD []

def alphabet : Text :=
  "ABCDEFGHIJKLMNOPQRSTUVWXYZ".toList

/-- The options that an answer names, in alphabetical order. -/
def optionLetters (answer : Text) : Text :=
  alphabet.filter fun letter => (answer.flatMap capitals).contains letter

theorem mem_optionLetters_iff {letter : Char} {answer : Text} :
    letter ∈ optionLetters answer ↔ letter ∈ alphabet ∧ ∃ c ∈ answer, letter ∈ capitals c := by
  simp [optionLetters]

end NumericAnswer
