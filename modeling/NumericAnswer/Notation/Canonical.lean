/-
# The canonical form of an answer

Any text has a canonical form: one line in which functions, fractions, roots
and absolute values are words with bracket groups, glyphs are signs, and
single spaces separate. What cannot be brought into this form stays as it is
for the parser to report.

Key definitions: `Canonical.simplified`, `canonical`, `unclosedMacros`.
-/
import NumericAnswer.Notation.Bars
import NumericAnswer.Notation.Cosmetic
import NumericAnswer.Notation.Macro

namespace NumericAnswer
namespace Canonical

/-- The answer without wrappers and cosmetic macros. -/
def simplified (s : Text) : Text :=
  substitute Rule.escapedBrace (substitute Rule.bar (substitute Rule.upright
    (substitute Rule.annotation (substitute Rule.spacing (substitute Rule.sizing
      (substitute Rule.style (unwrapped s)))))))

/-- The passes in order. Fractions come first, so that roots and powers can
take the words for them as arguments. -/
def passes : List Pass :=
  [.fraction, .root, .logBase, .functionPower]

/-- The text after the passes, and the groups that made passes give up. -/
def afterPasses (passes : List Pass) (s : Text) : Text × List Unclosed :=
  passes.foldl
    (fun (state : Text × List Unclosed) pass =>
      ((pass.run state.1).1, state.2 ++ (pass.run state.1).2.toList))
    (s, [])

/-- Function names, glyphs and bars, once the macros with arguments are gone. -/
def plain (s : Text) : Text :=
  expandBars (rename Rule.e (rename Rule.pi (substitute Rule.sign (rename Rule.functionName s))))

end Canonical

/-- The canonical form. -/
def canonical (s : Text) : Text :=
  collapse (Canonical.plain (Canonical.afterPasses Canonical.passes (Canonical.simplified s)).1)

/-- The macros whose arguments open a group and never close it, one for each
pass at most. -/
def unclosedMacros (s : Text) : List Unclosed :=
  (Canonical.afterPasses Canonical.passes (Canonical.simplified s)).2

end NumericAnswer
