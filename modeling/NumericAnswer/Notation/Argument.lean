/-
# Arguments of macros and functions

A macro takes a group in braces, a canonical word with its groups, or a single
token as an argument; a function takes a group in any brackets, or a bare
number or name. Blanks may stand before either.

Key definitions: `padded`, `macroArgument`, `functionArgument`.
Key theorems: `sublist_of_macroArgument`, `sublist_of_functionArgument`,
`count_padded`.
-/
import NumericAnswer.Notation.Group
import NumericAnswer.Text.Blank
import NumericAnswer.Text.Letter

namespace NumericAnswer

/-- The letters at the front of a text. -/
def leadingLetters (s : Text) : Text :=
  s.takeWhile isAsciiLetter

/-- The canonical words whose arguments stand in groups of their own. -/
def groupedWords : List Text :=
  ["frac".toList, "sqrt".toList, "nthroot".toList, "logBase".toList]

/-- A word, with a space where it would run together with the letter or digit
next to it. -/
def padded (before after : Option Char) (word : Text) : Text :=
  let word :=
    if before.any isAlphanumeric && word.head?.any isAlphanumeric then ' ' :: word else word
  if after.any isAlphanumeric && word.getLast?.any isAlphanumeric then word ++ [' '] else word

/-- A command with letters, or one character that is no brace. -/
def singleToken : Text → Except Refusal (Text × Text)
  | [] => .error .absent
  | c :: s =>
    if c = '\x7b' || c = '\x7d' then .error .absent
    else if c = '\\' then
      .ok (c :: leadingLetters s, s.dropWhile isAsciiLetter)
    else .ok ([c], s)

/-- The argument of a macro and the text after it. -/
def macroArgument (s : Text) : Except Refusal (Text × Text) :=
  let s := dropBlanks s
  let word := leadingLetters s
  if s.head? = some '\x7b' then readGroup s
  else if groupedWords.contains word then
    (absorbGroups (s.drop word.length)).map fun (groups, rest) => (word ++ groups, rest)
  else singleToken s

/-- Digits with a fraction, or a fraction alone. -/
def bareNumber (s : Text) : Option (Text × Text) :=
  let whole := s.takeWhile isDecimalDigit
  let afterWhole := s.dropWhile isDecimalDigit
  match afterWhole with
  | '.' :: afterPoint =>
    match afterPoint.takeWhile isDecimalDigit with
    | [] => if whole.isEmpty then none else some (whole, afterWhole)
    | fraction => some (whole ++ '.' :: fraction, afterPoint.dropWhile isDecimalDigit)
  | _ => if whole.isEmpty then none else some (whole, afterWhole)

/-- A name, with or without a backslash, or a number. -/
def bareOperand (s : Text) : Option (Text × Text) :=
  match s with
  | '\\' :: t =>
    if (leadingLetters t).isEmpty then none
    else some ('\\' :: leadingLetters t, t.dropWhile isAsciiLetter)
  | _ =>
    if (leadingLetters s).isEmpty then bareNumber s
    else some (leadingLetters s, s.dropWhile isAsciiLetter)

/-- The argument of a function and the text after it. -/
def functionArgument (s : Text) : Except Refusal (Text × Text) :=
  let s := dropBlanks s
  if (s.head?.bind Bracket.ofOpening?).isSome then readGroup s
  else
    match bareOperand s with
    | none => .error .absent
    | some (operand, rest) =>
      if groupedWords.contains operand then
        (absorbGroups rest).map fun (groups, rest) => (operand ++ groups, rest)
      else .ok (operand, rest)

/-! ### Nothing is made up

An argument and the text after it are what is left of the text read. -/

theorem dropBlanks_sublist (s : Text) : (dropBlanks s).Sublist s :=
  List.dropWhile_sublist _

theorem leadingLetters_append (s : Text) :
    leadingLetters s ++ s.drop (leadingLetters s).length = s := by
  have h := List.takeWhile_append_dropWhile (p := isAsciiLetter) (l := s)
  have hd := congrArg (List.drop (s.takeWhile isAsciiLetter).length) h
  rw [List.drop_left] at hd
  unfold leadingLetters
  rw [← hd]
  exact h

theorem leadingLetters_append_dropWhile (s : Text) :
    leadingLetters s ++ s.dropWhile isAsciiLetter = s :=
  List.takeWhile_append_dropWhile

theorem sublist_of_readGroup {s argument rest : Text} (h : readGroup s = .ok (argument, rest)) :
    (argument ++ rest).Sublist s := by
  obtain ⟨bracket, rfl⟩ := append_of_readGroup h
  exact (((List.Sublist.refl argument).append (List.sublist_cons_self _ _))).cons _

theorem sublist_of_singleToken {s argument rest : Text} (h : singleToken s = .ok (argument, rest)) :
    (argument ++ rest).Sublist s := by
  unfold singleToken at h
  split at h
  · simp at h
  · split at h
    · simp at h
    · split at h
      · obtain ⟨rfl, rfl⟩ := Prod.mk.inj (Except.ok.inj h)
        simp [leadingLetters_append_dropWhile]
      · obtain ⟨rfl, rfl⟩ := Prod.mk.inj (Except.ok.inj h)
        simp

theorem sublist_of_absorbGroups {word s rest argument : Text}
    (h : (absorbGroups s).map (fun (p : Text × Text) => (word ++ p.1, p.2)) =
      .ok (argument, rest)) :
    (argument ++ rest).Sublist (word ++ s) := by
  obtain ⟨⟨groups, after⟩, ha, he⟩ := exists_of_map_ok h
  obtain ⟨rfl, rfl⟩ := Prod.mk.inj he
  have hs : word ++ groups ++ after = word ++ s := by
    rw [List.append_assoc, append_of_absorbGroups ha]
  exact hs ▸ List.Sublist.refl _

theorem sublist_of_macroArgument {s argument rest : Text}
    (h : macroArgument s = .ok (argument, rest)) : (argument ++ rest).Sublist s := by
  refine List.Sublist.trans ?_ (dropBlanks_sublist s)
  unfold macroArgument at h
  simp only at h
  split at h
  · exact sublist_of_readGroup h
  · split at h
    · have := sublist_of_absorbGroups h
      rwa [leadingLetters_append] at this
    · exact sublist_of_singleToken h

theorem append_of_bareNumber {s operand rest : Text} (h : bareNumber s = some (operand, rest)) :
    operand ++ rest = s := by
  have hs := List.takeWhile_append_dropWhile (p := isDecimalDigit) (l := s)
  unfold bareNumber at h
  simp only at h
  split at h
  · next afterPoint heq =>
    have hp := List.takeWhile_append_dropWhile (p := isDecimalDigit) (l := afterPoint)
    split at h
    · split at h
      · simp at h
      · obtain ⟨rfl, rfl⟩ := Prod.mk.inj (Option.some.inj h)
        exact hs
    · obtain ⟨rfl, rfl⟩ := Prod.mk.inj (Option.some.inj h)
      rw [List.append_assoc, List.cons_append, hp, ← heq]
      exact hs
  · split at h
    · simp at h
    · obtain ⟨rfl, rfl⟩ := Prod.mk.inj (Option.some.inj h)
      exact hs

theorem append_of_bareOperand {s operand rest : Text} (h : bareOperand s = some (operand, rest)) :
    operand ++ rest = s := by
  unfold bareOperand at h
  split at h
  · split at h
    · simp at h
    · obtain ⟨rfl, rfl⟩ := Prod.mk.inj (Option.some.inj h)
      simp [leadingLetters_append_dropWhile]
  · split at h
    · exact append_of_bareNumber h
    · obtain ⟨rfl, rfl⟩ := Prod.mk.inj (Option.some.inj h)
      exact leadingLetters_append_dropWhile s

theorem sublist_of_functionArgument {s argument rest : Text}
    (h : functionArgument s = .ok (argument, rest)) : (argument ++ rest).Sublist s := by
  refine List.Sublist.trans ?_ (dropBlanks_sublist s)
  unfold functionArgument at h
  simp only at h
  split at h
  · exact sublist_of_readGroup h
  · split at h
    · simp at h
    · next operand rest' heq =>
      have hb := append_of_bareOperand heq
      split at h
      · have := sublist_of_absorbGroups h
        rwa [hb] at this
      · obtain ⟨rfl, rfl⟩ := Prod.mk.inj (Except.ok.inj h)
        exact hb ▸ List.Sublist.refl _

theorem length_padded_le (before after : Option Char) (word : Text) :
    (padded before after word).length ≤ word.length + 2 := by
  unfold padded
  simp only
  split <;> split <;> simp

/-- Padding adds spaces only. -/
theorem count_padded {c : Char} (hc : c ≠ ' ') (before after : Option Char) (word : Text) :
    (padded before after word).count c = word.count c := by
  have h : (' ' == c) = false := by simpa using Ne.symm hc
  unfold padded
  simp only
  split <;> split <;> simp [List.count_cons, h]

end NumericAnswer
