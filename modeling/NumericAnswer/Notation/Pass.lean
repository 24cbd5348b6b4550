/-
# Passes

A substitution replaces what its rule matches from left to right and reads no
replacement again. A pass does read it again: after a replacement it goes on at
the same place, so macros inside the arguments of macros are found. Every
replacement uses up a backslash, which weighs more than the characters that the
replacement adds; this is why a pass ends.

A macro whose arguments are missing stays as it is. At a bracket that is never
closed the pass gives up.

Key definitions: `substitute`, `rename`, `weight`, `Pass`, `Pass.run`.
-/
import NumericAnswer.Notation.Argument

namespace NumericAnswer

/-! ### Substitutions -/

/-- What a rule puts in place of a character and how many characters after it;
the rule sees the character and the text after it. -/
abbrev Rule := Char → Text → Option (Text × Nat)

/-- Replaces what the rule matches; `before` is the character before the text. -/
def substituteFrom (rule : Option Char → Rule) (before : Option Char) : Text → Text
  | [] => []
  | c :: s =>
    match rule before c s with
    | some (replacement, length) =>
      replacement ++ substituteFrom rule ((c :: s.take length).getLast?) (s.drop length)
    | none => c :: substituteFrom rule (some c) s
termination_by s => s.length
decreasing_by all_goals simp only [List.length_cons, List.length_drop]; omega

/-- Replaces what the rule matches. -/
def substitute (rule : Rule) (s : Text) : Text :=
  substituteFrom (fun _ => rule) none s

/-- The rule with words that stay apart from the letters and digits next to them. -/
def Rule.apart (rule : Rule) (before : Option Char) : Rule := fun c s =>
  (rule c s).map fun (word, length) => (padded before (s.drop length).head? word, length)

/-- Replaces what the rule matches by words, which stay apart from the letters
and digits next to them. -/
def rename (rule : Rule) (s : Text) : Text :=
  substituteFrom rule.apart none s

/-! ### Passes -/

/-- The weight of a text: a backslash weighs as much as 24 other characters. -/
def weight (s : Text) : Nat :=
  s.length + 23 * s.count '\\'

/-- A macro found in a text. -/
structure Site where
  /-- The characters of the macro after its first one. -/
  length : Nat
  /-- What replaces the macro and its arguments, and the text after those. -/
  outcome : Except Refusal (Text × Text)

/-- A pass looks for macros at each character and the text after it. -/
structure Pass where
  site? : Char → Text → Option Site
  /-- A replacement makes the text lighter, also with a space on either side. -/
  lighter : ∀ {c : Char} {s : Text} {length : Nat} {replacement rest : Text},
    site? c s = some ⟨length, .ok (replacement, rest)⟩ →
      weight replacement + weight rest + 2 < weight (c :: s)

/-- A group that was opened after a macro and never closed. -/
structure Unclosed where
  bracket : Bracket
  command : Text
  position : Nat
  deriving DecidableEq, Repr

theorem weight_append (s t : Text) : weight (s ++ t) = weight s + weight t := by
  simp only [weight, List.length_append, List.count_append]
  omega

theorem weight_cons_le (c : Char) (s : Text) : weight s < weight (c :: s) := by
  simp only [weight, List.length_cons, List.count_cons]
  omega

theorem weight_le_of_sublist {s t : Text} (h : s.Sublist t) : weight s ≤ weight t := by
  have := h.length_le
  have := h.count_le '\\'
  simp only [weight]
  omega

theorem weight_padded_le (before after : Option Char) (word : Text) :
    weight (padded before after word) ≤ weight word + 2 := by
  have hc := count_padded (c := '\\') (by decide) before after word
  have hl := length_padded_le before after word
  simp only [weight, hc]
  omega

namespace Pass

/-- Runs over a text whose part before it, in reverse, is `done`. -/
def runFrom (pass : Pass) (done : Text) (s : Text) : Text × Option Unclosed :=
  match s with
  | [] => (done.reverse, none)
  | c :: s =>
    match _site : pass.site? c s with
    | some ⟨_, .ok (replacement, rest)⟩ =>
      pass.runFrom done (padded done.head? rest.head? replacement ++ rest)
    | some ⟨length, .error (.unclosed bracket)⟩ =>
      (done.reverse ++ c :: s, some ⟨bracket, c :: s.take length, done.length⟩)
    | some ⟨_, .error .absent⟩ => pass.runFrom (c :: done) s
    | none => pass.runFrom (c :: done) s
termination_by weight s
decreasing_by
  · have := pass.lighter _site
    have := weight_padded_le done.head? rest.head? replacement
    rw [weight_append]
    omega
  all_goals exact weight_cons_le c s

/-- The text with its macros replaced, and the group that made the pass give up. -/
def run (pass : Pass) (s : Text) : Text × Option Unclosed :=
  pass.runFrom [] s

end Pass
end NumericAnswer
