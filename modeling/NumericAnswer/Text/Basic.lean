/-
# Text

A text is a list of characters; positions and lengths count characters. The
characters of a class are given as ranges of code points.

Key definitions: `Text`, `isWithin`.
-/

namespace NumericAnswer

/-- A sequence of Unicode characters. -/
abbrev Text := List Char

/-- Membership in one of the inclusive ranges of code points. -/
def isWithin (c : Char) (ranges : List (Nat × Nat)) : Bool :=
  ranges.any fun range => range.1 ≤ c.toNat && c.toNat ≤ range.2

/-- What is tested on each character of a text. -/
theorem forall_mem_of_all {p : Char → Prop} [DecidablePred p] {s : Text}
    (h : s.all (fun c => decide (p c)) = true) : ∀ c ∈ s, p c := by
  simpa using h

end NumericAnswer
