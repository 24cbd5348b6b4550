/-
# Blanks

A blank is a character of Unicode's white space, or one of the four ASCII
information separators. Blanks around an answer carry no meaning, and a run of
them inside counts as one space.

Key definitions: `isBlank`, `strip`, `words`, `collapse`, `unblanked`.
Key theorems: `dropBlanks_eq_nil_iff`, `words_append_blank`, `notMem_unblanked`.
-/
import NumericAnswer.Text.Basic

namespace NumericAnswer

/-- The blanks. -/
def blankRanges : List (Nat × Nat) :=
  [(0x9, 0xd), (0x1c, 0x20), (0x85, 0x85), (0xa0, 0xa0), (0x1680, 0x1680), (0x2000, 0x200a),
   (0x2028, 0x2029), (0x202f, 0x202f), (0x205f, 0x205f), (0x3000, 0x3000)]

def isBlank (c : Char) : Bool :=
  isWithin c blankRanges

/-- The text from its first character that is not blank. -/
def dropBlanks (s : Text) : Text :=
  s.dropWhile isBlank

/-- The text without the blanks at both ends. -/
def strip (s : Text) : Text :=
  (dropBlanks (dropBlanks s).reverse).reverse

/-- A text of blanks only, such as the empty one. -/
def isAllBlank (s : Text) : Bool :=
  s.all isBlank

/-- The text without any blanks. -/
def unblanked (s : Text) : Text :=
  s.filter fun c => !isBlank c

/-- The runs of other characters between blanks, after the word begun with
`word`, whose characters stand in reverse. -/
def wordsFrom (word : Text) : Text → List Text
  | [] => if word.isEmpty then [] else [word.reverse]
  | c :: cs =>
    if isBlank c then
      if word.isEmpty then wordsFrom [] cs else word.reverse :: wordsFrom [] cs
    else wordsFrom (c :: word) cs

/-- The longest runs of characters that are not blank, in order. -/
def words (s : Text) : List Text :=
  wordsFrom [] s

/-- The words with one space between neighbours. -/
def collapse (s : Text) : Text :=
  [' '].intercalate (words s)

theorem isBlank_space : isBlank ' ' = true := by decide

theorem dropBlanks_eq_nil_iff {s : Text} : dropBlanks s = [] ↔ isAllBlank s = true := by
  induction s with
  | nil => simp [dropBlanks, isAllBlank]
  | cons c cs ih =>
    simp only [dropBlanks, isAllBlank] at ih
    by_cases h : isBlank c = true <;> simp [dropBlanks, isAllBlank, h, ih]

theorem wordsFrom_append_blank {c : Char} (h : isBlank c = true) (word s t : Text) :
    wordsFrom word (s ++ c :: t) = wordsFrom word s ++ words t := by
  induction s generalizing word with
  | nil => cases word <;> simp [words, wordsFrom, h]
  | cons d s ih =>
    by_cases hd : isBlank d = true
    · cases word <;> simp [wordsFrom, hd, ih]
    · simp [wordsFrom, hd, ih]

/-- Words end at a blank. -/
theorem words_append_blank {c : Char} (h : isBlank c = true) (s t : Text) :
    words (s ++ c :: t) = words s ++ words t :=
  wordsFrom_append_blank h [] s t

theorem words_blank_cons {c : Char} (s : Text) (h : isBlank c = true) :
    words (c :: s) = words s :=
  words_append_blank h [] s

theorem notMem_unblanked {c : Char} (s : Text) (h : isBlank c = true) : c ∉ unblanked s := by
  simp [unblanked, h]

end NumericAnswer
