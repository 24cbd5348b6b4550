/-
# Cleaned answers

Before answers are compared, what only presents them is removed: blanks and
dollar signs around them, the command for display style, and all but one of
the blanks in a row.

Key definitions: `erase`, `cleaned`.
-/
import NumericAnswer.Notation.Cosmetic

namespace NumericAnswer

/-- The text without a pattern, which is looked for from left to right. -/
def erase (pattern : Text) : Text → Text
  | [] => []
  | c :: s =>
    if pattern.isPrefixOf (c :: s) then erase pattern (s.drop (pattern.length - 1))
    else c :: erase pattern s
termination_by s => s.length
decreasing_by all_goals simp only [List.length_cons, List.length_drop]; omega

def displayStyleCommand : Text :=
  "\\displaystyle".toList

def cleaned (answer : Text) : Text :=
  collapse (erase displayStyleCommand (stripDollars (strip answer)))

end NumericAnswer
