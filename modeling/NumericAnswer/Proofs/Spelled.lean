/-
# Glyphs spelled as commands

An answer has the same value with the glyphs of pi, multiplication and division as with the commands
for them, or no value in either form, unless a function with a power has a bare glyph for its
argument, or the blank that ends a command parts a canonical word from its groups. Names in upright
letters are the same in both forms.

Key definition: `Spelled`.
Key theorem: `Outcome.value_spelled`.
-/
import NumericAnswer.Proofs.Slack

namespace NumericAnswer

/-- The second text has commands, each with a space behind it, for some of the glyphs of the first
one. -/
inductive Spelled : Text → Text → Prop
  | nil : Spelled [] []
  | char {s t : Text} (c : Char) (h : Spelled s t) : Spelled (c :: s) (c :: t)
  | glyph {g : Char} {name s t : Text} (hg : glyphName? g = some name) (h : Spelled s t) :
      Spelled (g :: s) ('\\' :: name ++ ' ' :: t)

/-- The text with commands for all its glyphs. -/
def spelledOut (s : Text) : Text :=
  s.flatMap fun c => ((glyphName? c).map fun name => '\\' :: name ++ [' ']).getD [c]

theorem spelled_spelledOut : ∀ s : Text, Spelled s (spelledOut s)
  | [] => .nil
  | c :: s => by
    have hrest := spelled_spelledOut s
    cases hc : glyphName? c with
    | none => simpa [spelledOut, hc] using hrest.char c
    | some name => simpa [spelledOut, hc] using hrest.glyph hc

variable {s t : Text}

theorem Spelled.glossed (h : Spelled s t) : Glossed false false s t := by
  induction h with
  | nil => exact .nil
  | char c _ ih => exact ih.same_append [c]
  | @glyph g name s t hg _ ih =>
    exact .glyph (x := [g]) hg .glyph (.command rfl) (.right isBlank_space ih.freed)

section Values

variable [MathLibrary]

/-- **Glyphs equal their commands.** The answer has the same value with commands for some of its
glyphs, or none, if it has the same names in upright letters in both forms, and in neither form has a
function with a power a bare glyph for its argument, or a macro a word that blanks part from its
groups. -/
theorem Outcome.value_spelled (h : Spelled s t)
    (hnames : Rule.upright.replacements (Canonical.beforeUpright (unwrapped s)) =
      Rule.upright.replacements (Canonical.beforeUpright (unwrapped t)))
    (hs : Canonical.isPlain s = true) (ht : Canonical.isPlain t = true) :
    (ofText t).value? = (ofText s).value? := by
  have hsimplified := Canonical.glossed_simplified h.glossed.unwrapped hnames
  have hpassed := Canonical.glossed_afterPasses hsimplified.grouped_of_plain hs ht
  have hwords := Canonical.voiced_worded hpassed
  exact value?_of_parse (fun _ => Expr.parseWithin_slack hwords)
    fun _ => Expr.parseWithin_slack hwords.symm

end Values

/-- A product with a glyph for its sign over a root of pi. -/
theorem Outcome.value_spelled_fraction :
    (@ofText .native "$\\frac\x7b2\\times \\pi \x7d\x7b\\sqrt\\pi \x7d$".toList).value? =
      (@ofText .native "$\\frac\x7b2×π\x7d\x7b\\sqrtπ\x7d$".toList).value? := by
  have hspelled := spelled_spelledOut "$\\frac\x7b2×π\x7d\x7b\\sqrtπ\x7d$".toList
  have hout : spelledOut "$\\frac\x7b2×π\x7d\x7b\\sqrtπ\x7d$".toList =
      "$\\frac\x7b2\\times \\pi \x7d\x7b\\sqrt\\pi \x7d$".toList := by
    decide +kernel
  rw [hout] at hspelled
  exact @value_spelled _ _ .native hspelled (by decide +kernel) (by decide +kernel)
    (by decide +kernel)

/-- The argument of a cosine with a power: a bare command is one, and a bare glyph is none. -/
theorem Expr.parse_bareGlyph :
    spelledOut "\\cos^2π".toList = "\\cos^2\\pi ".toList ∧
      Canonical.isPlain "\\cos^2π".toList = false ∧
      (parse (canonical "\\cos^2\\pi ".toList)).toOption.isSome = true ∧
      (parse (canonical "\\cos^2π".toList)).toOption.isSome = false := by
  have hcommand : canonical "\\cos^2\\pi ".toList = "(cos{pi})^{2}".toList := by decide +kernel
  have hglyph : canonical "\\cos^2π".toList = "cos^2 pi".toList := by decide +kernel
  rw [hcommand, hglyph]
  exact ⟨by decide +kernel, by decide +kernel, by decide +kernel, by decide +kernel⟩

end NumericAnswer
