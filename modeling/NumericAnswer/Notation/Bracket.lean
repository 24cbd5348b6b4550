/-
# Brackets

The three pairs of brackets, which all group alike once an answer is in
canonical form.

Key definitions: `Bracket`, `Bracket.ofOpening?`, `Bracket.ofClosing?`.
-/

namespace NumericAnswer

inductive Bracket where
  | round
  | square
  | curly
  deriving DecidableEq, Repr

namespace Bracket

def opening : Bracket → Char
  | round => '('
  | square => '['
  | curly => '\x7b'

def closing : Bracket → Char
  | round => ')'
  | square => ']'
  | curly => '\x7d'

def ofOpening? (c : Char) : Option Bracket :=
  if c = '(' then some round
  else if c = '[' then some square
  else if c = '\x7b' then some curly
  else none

def ofClosing? (c : Char) : Option Bracket :=
  if c = ')' then some round
  else if c = ']' then some square
  else if c = '\x7d' then some curly
  else none

theorem ofOpening?_eq_some_iff {c : Char} {b : Bracket} :
    ofOpening? c = some b ↔ c = b.opening := by
  constructor
  · intro h
    unfold ofOpening? at h
    split at h
    · cases h; assumption
    · split at h
      · cases h; assumption
      · split at h
        · cases h; assumption
        · simp at h
  · rintro rfl
    cases b <;> rfl

theorem ofClosing?_eq_some_iff {c : Char} {b : Bracket} :
    ofClosing? c = some b ↔ c = b.closing := by
  constructor
  · intro h
    unfold ofClosing? at h
    split at h
    · cases h; assumption
    · split at h
      · cases h; assumption
      · split at h
        · cases h; assumption
        · simp at h
  · rintro rfl
    cases b <;> rfl

end Bracket
end NumericAnswer
