/-
# Choice answers are graded by the options that they name

An answer names an option if it holds the letter, its small letter or a character whose capitals
have that letter. The letters in alphabetical order tell the sets of options apart, so that a
choice answer is right if it is not empty and names the options that the expected answer names. Two
answers that name no option have the same options too, whatever else is in them.

Key definitions: `Names`.
Key theorems: `mem_capitals_iff`, `optionLetters_eq_iff`, `Access.choice_correct_iff`.
-/
import NumericAnswer.Answer.Verdict

namespace NumericAnswer

/-- The answer names the option with that letter. -/
def Names (answer : Text) (option : Char) : Prop :=
  option ∈ alphabet ∧ ∃ c ∈ answer, option ∈ capitals c

variable {answer user expected : Text} {option c : Char}

/-! ### Letters and their capitals -/

/-- A range of characters is one of code points. -/
theorem between_iff {low high : Char} :
    (low ≤ c && c ≤ high) = true ↔ low.toNat ≤ c.toNat ∧ c.toNat ≤ high.toNat := by
  rw [Bool.and_eq_true, decide_eq_true_eq, decide_eq_true_eq]
  rfl

theorem mem_alphabet_iff : option ∈ alphabet ↔ 'A' ≤ option ∧ option ≤ 'Z' := by
  constructor
  · intro h
    have hall : ∀ d ∈ alphabet, 'A' ≤ d ∧ d ≤ 'Z' := forall_mem_of_all (by decide)
    exact hall option h
  · rintro ⟨hlow, hhigh⟩
    have hlow : 65 ≤ option.toNat := hlow
    have hhigh : option.toNat ≤ 90 := hhigh
    have hall : ∀ i < 26, Char.ofNat (65 + i) ∈ alphabet := by decide
    have hmem := hall (option.toNat - 65) (by omega)
    rwa [show 65 + (option.toNat - 65) = option.toNat by omega, Char.ofNat_toNat] at hmem

/-- The table is of characters beyond ASCII. -/
theorem lookup_capitalTable_eq_none (h : c.toNat < 128) : capitalTable.lookup c = none := by
  have hall : ∀ entry ∈ capitalTable, 128 ≤ entry.1.toNat := by decide
  rw [List.lookup_eq_none_iff]
  intro entry hentry
  have hne : c ≠ entry.1 := by
    rintro rfl
    exact absurd (hall entry hentry) (by omega)
  simpa using hne

/-- The small letter of an option. -/
theorem eq_ofNat_sub_iff (hc : 97 ≤ c.toNat ∧ c.toNat ≤ 122) :
    option = Char.ofNat (c.toNat - 32) ↔ c.toNat = option.toNat + 32 := by
  have hall : ∀ i < 26, (Char.ofNat (65 + i)).toNat = 65 + i := by decide
  have hupper := hall (c.toNat - 97) (by omega)
  rw [show 65 + (c.toNat - 97) = c.toNat - 32 by omega] at hupper
  rw [← Char.toNat_inj, hupper]
  omega

/-- **What stands for an option**: its letter, its small letter, and the characters of the table
that have it among their capitals. -/
theorem mem_capitals_iff (h : option ∈ alphabet) :
    option ∈ capitals c ↔ c = option ∨ c.toNat = option.toNat + 32 ∨
      ∃ letters, capitalTable.lookup c = some letters ∧ option ∈ letters.toList := by
  have hrange : 65 ≤ option.toNat ∧ option.toNat ≤ 90 := mem_alphabet_iff.mp h
  unfold capitals
  split
  case isTrue hc =>
    have hc : 65 ≤ c.toNat ∧ c.toNat ≤ 90 := between_iff.mp hc
    have hsmall : c.toNat ≠ option.toNat + 32 := by omega
    simp [lookup_capitalTable_eq_none (c := c) (by omega), hsmall, eq_comm]
  case isFalse hupper =>
    have hupper : ¬(65 ≤ c.toNat ∧ c.toNat ≤ 90) := fun h => hupper (between_iff.mpr h)
    have hne : c ≠ option := by
      rintro rfl
      exact hupper hrange
    split
    case isTrue hc =>
      have hc : 97 ≤ c.toNat ∧ c.toNat ≤ 122 := between_iff.mp hc
      simp [lookup_capitalTable_eq_none (c := c) (by omega), hne, eq_ofNat_sub_iff hc]
    case isFalse hlower =>
      have hlower : ¬(97 ≤ c.toNat ∧ c.toNat ≤ 122) := fun h => hlower (between_iff.mpr h)
      have hsmall : c.toNat ≠ option.toNat + 32 := by omega
      cases hlookup : capitalTable.lookup c <;> simp [hne, hsmall]

/-! ### Sets of options -/

theorem mem_optionLetters_iff_names : option ∈ optionLetters answer ↔ Names answer option :=
  mem_optionLetters_iff

theorem optionLetters_eq_nil_iff : optionLetters answer = [] ↔ ∀ option, ¬Names answer option := by
  simp only [List.eq_nil_iff_forall_not_mem, mem_optionLetters_iff_names]

/-- **The letters tell the sets of options apart.** They are in the order of the alphabet, so no
two orders of the letters are left to compare. -/
theorem optionLetters_eq_iff :
    optionLetters user = optionLetters expected ↔
      ∀ option, Names user option ↔ Names expected option := by
  constructor
  · intro h option
    rw [← mem_optionLetters_iff_names, ← mem_optionLetters_iff_names, h]
  · intro h
    refine List.filter_congr fun letter hletter => ?_
    have hiff := h letter
    simp only [← mem_optionLetters_iff_names, optionLetters, List.mem_filter, hletter, true_and]
      at hiff
    exact Bool.eq_iff_iff.mpr hiff

namespace Access

variable [MathLibrary]

/-- The verdict on two choice answers. -/
theorem verdict_choice (user expected : Text) (store : Store) :
    verdict .choice user expected store =
      (.ok (if cleaned user = [] then ⟨false, .exact, some .emptyAnswer, .nothing⟩
        else choiceVerdict (cleaned user) (cleaned expected)), store) := by
  unfold verdict
  split
  case isTrue h => rw [if_pos (List.isEmpty_iff.mp h)]; rfl
  case isFalse h => rw [if_neg (mt List.isEmpty_iff.mpr h)]; rfl

/-- **Choice answers are compared as sets of options.** Grading always gives a verdict, and no
setting is looked up. An answer is right if it is not empty and names the options that the expected
answer names. So if one of the two names an option, both do if the answer is right. If neither
does, every answer is right that is not empty. -/
theorem choice_correct_iff (user expected : Text) (store : Store) :
    ∃ v, verdict .choice user expected store = (.ok v, store) ∧
      (v.correct = true ↔ cleaned user ≠ [] ∧
        ∀ option, Names (cleaned user) option ↔ Names (cleaned expected) option) ∧
      ((∃ option, Names (cleaned user) option ∨ Names (cleaned expected) option) →
        (v.correct = true ↔ (∃ option, Names (cleaned user) option) ∧
          ∀ option, Names (cleaned user) option ↔ Names (cleaned expected) option)) ∧
      ((∀ option, ¬Names (cleaned user) option ∧ ¬Names (cleaned expected) option) →
        (v.correct = true ↔ cleaned user ≠ [])) := by
  refine ⟨_, verdict_choice user expected store, ?_⟩
  generalize cleaned user = user
  generalize cleaned expected = expected
  by_cases hempty : user = []
  · subst hempty
    have hnone : ∀ option, ¬Names [] option := by simp [Names]
    simp [hnone]
  · rw [if_neg hempty]
    have hcorrect : (choiceVerdict user expected).correct = true ↔
        ∀ option, Names user option ↔ Names expected option := by
      simp only [choiceVerdict, decide_eq_true_eq, optionLetters_eq_iff]
    rw [hcorrect]
    refine ⟨(and_iff_right hempty).symm, ?_, ?_⟩
    · rintro ⟨option, hnamed⟩
      refine ⟨fun hsame => ⟨⟨option, ?_⟩, hsame⟩, And.right⟩
      exact hnamed.elim id (hsame option).mpr
    · intro hnone
      simp [hempty, hnone]

/-- Two texts without letters. -/
example : (choiceVerdict ['1'] ['2']).correct = true := by decide

end Access
end NumericAnswer
