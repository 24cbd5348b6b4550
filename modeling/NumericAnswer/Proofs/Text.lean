/-
# Texts that go on

What is read at the front of a text stays the same when more text follows that
cannot be part of it. After a block of an answer such a text follows: blanks
and then a closing bracket or a comma.

Key definitions: `closers`, `Closes`, `Separates`.
Key theorems: `isAlphanumeric_of_isBlank`, `dropBlanks_append`, `words_collapse`,
`leadingLetters_append_of_head`.
-/
import NumericAnswer.Notation.Argument

namespace NumericAnswer

/-! ### Runs of characters -/

/-- What follows the characters dropped is none of them. -/
theorem head?_dropWhile_any (p : Char → Bool) (s : Text) :
    (s.dropWhile p).head?.any p = false := by
  have h := List.head?_dropWhile_not p s
  cases hd : (s.dropWhile p).head? with
  | none => rfl
  | some c => rwa [hd] at h

theorem takeWhile_append_of_head {p : Char → Bool} {v : Text} (h : v.head?.any p = false)
    (s : Text) : (s ++ v).takeWhile p = s.takeWhile p := by
  induction s with
  | nil => cases v <;> simp_all
  | cons c s ih => by_cases hc : p c = true <;> simp [hc, ih]

theorem dropWhile_append_of_head {p : Char → Bool} {v : Text} (h : v.head?.any p = false)
    (s : Text) : (s ++ v).dropWhile p = s.dropWhile p ++ v := by
  induction s with
  | nil => cases v <;> simp_all
  | cons c s ih => by_cases hc : p c = true <;> simp [hc, ih]

/-- A run that ends within a text does not see what follows it. -/
theorem takeWhile_append_of_ne_nil {p : Char → Bool} {s : Text} (h : s.dropWhile p ≠ [])
    (v : Text) : (s ++ v).takeWhile p = s.takeWhile p := by
  induction s with
  | nil => exact absurd rfl h
  | cons c s ih =>
    by_cases hc : p c = true
    · simp only [List.dropWhile_cons, hc, if_true] at h
      simp [hc, ih h]
    · simp [hc]

theorem dropWhile_append_of_ne_nil {p : Char → Bool} {s : Text} (h : s.dropWhile p ≠ [])
    (v : Text) : (s ++ v).dropWhile p = s.dropWhile p ++ v := by
  induction s with
  | nil => exact absurd rfl h
  | cons c s ih =>
    by_cases hc : p c = true
    · simp only [List.dropWhile_cons, hc, if_true] at h
      simp [hc, ih h]
    · simp [hc]

theorem drop_length_takeWhile (p : Char → Bool) (s : Text) :
    s.drop (s.takeWhile p).length = s.dropWhile p := by
  have h := List.takeWhile_append_dropWhile (p := p) (l := s)
  have hd := congrArg (List.drop (s.takeWhile p).length) h
  rw [List.drop_left] at hd
  exact hd.symm

theorem take_length_takeWhile (p : Char → Bool) (s : Text) :
    s.take (s.takeWhile p).length = s.takeWhile p := by
  have h := List.takeWhile_append_dropWhile (p := p) (l := s)
  have hd := congrArg (List.take (s.takeWhile p).length) h
  rw [List.take_left] at hd
  exact hd.symm

theorem leadingLetters_append_of_head {v : Text} (h : v.head?.any isAsciiLetter = false)
    (s : Text) : leadingLetters (s ++ v) = leadingLetters s :=
  takeWhile_append_of_head h s

theorem isAsciiLetter_of_mem_leadingLetters {s : Text} :
    ∀ c ∈ leadingLetters s, isAsciiLetter c = true :=
  List.all_eq_true.mp List.all_takeWhile

theorem length_leadingLetters_le (s : Text) : (leadingLetters s).length ≤ s.length :=
  (List.takeWhile_sublist _).length_le

/-- Dropping a part of a text leaves the text after it alone. -/
theorem drop_append_of_length_le {s : Text} {n : Nat} (h : n ≤ s.length) (v : Text) :
    (s ++ v).drop n = s.drop n ++ v :=
  List.drop_append_of_le_length h

/-! ### Blanks -/

theorem toNat_of_isBlank {c : Char} (h : isBlank c = true) :
    c.toNat ∈ [9, 10, 11, 12, 13, 28, 29, 30, 31, 32, 133, 160, 5760, 8192, 8193, 8194, 8195, 8196,
      8197, 8198, 8199, 8200, 8201, 8202, 8232, 8233, 8239, 8287, 12288] := by
  simp only [isBlank, isWithin, blankRanges, List.any_cons, List.any_nil, Bool.or_false,
    Bool.or_eq_true, Bool.and_eq_true, decide_eq_true_eq] at h
  simp only [List.mem_cons, List.not_mem_nil, or_false]
  omega

theorem isAlphanumeric_of_isBlank {c : Char} (h : isBlank c = true) : isAlphanumeric c = false := by
  have hc : c = Char.ofNat c.toNat := (Char.ofNat_toNat c).symm
  have hall : ∀ n ∈ [9, 10, 11, 12, 13, 28, 29, 30, 31, 32, 133, 160, 5760, 8192, 8193, 8194, 8195,
      8196, 8197, 8198, 8199, 8200, 8201, 8202, 8232, 8233, 8239, 8287, 12288],
      isAlphanumeric (Char.ofNat n) = false := by decide +kernel
  rw [hc]
  exact hall _ (toNat_of_isBlank h)

theorem isLetter_of_isAlphanumeric {c : Char} (h : isAlphanumeric c = false) :
    isLetter c = false := by
  simp only [isAlphanumeric, Bool.or_eq_false_iff] at h
  exact h.1.1

theorem isAsciiLetter_of_isAlphanumeric {c : Char} (h : isAlphanumeric c = false) :
    isAsciiLetter c = false := by
  have h := isLetter_of_isAlphanumeric h
  simp only [isLetter, Bool.or_eq_false_iff] at h
  exact h.1

theorem isDecimalDigit_of_isAlphanumeric {c : Char} (h : isAlphanumeric c = false) :
    isDecimalDigit c = false := by
  simp only [isAlphanumeric, isDigit, Bool.or_eq_false_iff] at h
  exact h.1.2.1

theorem dropBlanks_of_isAllBlank {s : Text} (h : isAllBlank s = true) (t : Text) :
    dropBlanks (s ++ t) = dropBlanks t := by
  induction s with
  | nil => rfl
  | cons c s ih =>
    simp only [isAllBlank, List.all_cons, Bool.and_eq_true] at h
    simp only [dropBlanks, List.cons_append, List.dropWhile_cons, h.1, if_true]
    exact ih h.2

theorem dropBlanks_append {s : Text} (h : dropBlanks s ≠ []) (t : Text) :
    dropBlanks (s ++ t) = dropBlanks s ++ t :=
  dropWhile_append_of_ne_nil h t

theorem dropBlanks_cons_of_not_isBlank {c : Char} (h : isBlank c = false) (s : Text) :
    dropBlanks (c :: s) = c :: s := by
  simp [dropBlanks, h]

theorem not_isBlank_of_dropBlanks {s t : Text} {c : Char} (h : dropBlanks s = c :: t) :
    isBlank c = false := by
  have := List.head?_dropWhile_not isBlank s
  rw [show List.dropWhile isBlank s = c :: t from h] at this
  simpa using this

theorem dropBlanks_dropBlanks (s : Text) : dropBlanks (dropBlanks s) = dropBlanks s := by
  cases h : dropBlanks s with
  | nil => rfl
  | cons c t => exact dropBlanks_cons_of_not_isBlank (not_isBlank_of_dropBlanks h) t

/-- A text is its blanks and what is left of it. -/
theorem exists_blanks_append (s : Text) : ∃ b, isAllBlank b = true ∧ s = b ++ dropBlanks s :=
  ⟨s.takeWhile isBlank, List.all_takeWhile, List.takeWhile_append_dropWhile.symm⟩

/-- A text is what strips it of blanks, with blanks at both ends. -/
theorem exists_blanks_strip (s : Text) :
    ∃ u v, isAllBlank u = true ∧ isAllBlank v = true ∧ s = u ++ (strip s ++ v) := by
  obtain ⟨u, hu, hs⟩ := exists_blanks_append s
  obtain ⟨v, hv, ht⟩ := exists_blanks_append (dropBlanks s).reverse
  have ht := congrArg List.reverse ht
  rw [List.reverse_reverse, List.reverse_append] at ht
  refine ⟨u, v.reverse, hu, ?_, ?_⟩
  · simpa [isAllBlank] using hv
  · unfold strip
    rw [← ht]
    exact hs

/-- The first character that is no blank. -/
theorem head?_strip (s : Text) : (strip s).head? = (dropBlanks s).head? := by
  cases h : dropBlanks s with
  | nil => rw [strip, h]; rfl
  | cons c r =>
    have hlast : ∀ w : Text, ∃ x, dropBlanks (w ++ [c]) = x ++ [c] := by
      intro w
      by_cases hw : dropBlanks w = []
      · rw [dropBlanks_of_isAllBlank (dropBlanks_eq_nil_iff.mp hw),
          dropBlanks_cons_of_not_isBlank (not_isBlank_of_dropBlanks h)]
        exact ⟨[], rfl⟩
      · exact ⟨_, dropBlanks_append hw [c]⟩
    obtain ⟨x, hx⟩ := hlast r.reverse
    rw [strip, h, List.reverse_cons, hx, List.reverse_append]
    rfl

/-- Blanks at both ends do not show once they are stripped. -/
theorem strip_blanks {bl bl' : Text} (hbl : isAllBlank bl = true) (hbl' : isAllBlank bl' = true)
    (s : Text) : strip (bl ++ (s ++ bl')) = strip s := by
  have hrev : isAllBlank bl'.reverse = true := by
    rwa [isAllBlank, List.all_reverse]
  unfold strip
  rw [dropBlanks_of_isAllBlank hbl]
  by_cases hs : dropBlanks s = []
  · have hall : isAllBlank (s ++ bl') = true := by
      rw [isAllBlank, List.all_append, Bool.and_eq_true]
      exact ⟨dropBlanks_eq_nil_iff.mp hs, hbl'⟩
    rw [hs, dropBlanks_eq_nil_iff.mpr hall]
  · rw [dropBlanks_append hs, List.reverse_append, dropBlanks_of_isAllBlank hrev]

/-- What is dropped at the end of a text is behind the last character that stays. -/
theorem reverse_dropWhile_reverse_append {p : Char → Bool} {c : Char} (hc : p c = false)
    (x s : Text) : ((x ++ c :: s).reverse.dropWhile p).reverse =
      x ++ c :: (s.reverse.dropWhile p).reverse := by
  have hsplit : (x ++ c :: s).reverse = s.reverse ++ c :: x.reverse := by simp
  rw [hsplit, List.dropWhile_append]
  split
  · next hs =>
    rw [List.isEmpty_iff] at hs
    simp [hs, hc]
  · simp

theorem getLast?_any_of_append {p : Char → Bool} {s t : Text} (h : (t ++ s).getLast?.any p = false) :
    s.getLast?.any p = false := by
  cases hs : s.getLast? with
  | none => rfl
  | some e =>
    rw [List.getLast?_append, hs] at h
    exact h

theorem head?_strip_any (s : Text) : (strip s).head?.any isBlank = false := by
  rw [head?_strip]
  exact head?_dropWhile_any isBlank s

theorem getLast?_strip_any (s : Text) : (strip s).getLast?.any isBlank = false := by
  rw [strip, List.getLast?_reverse]
  exact head?_dropWhile_any isBlank _

theorem notMem_backslash_of_isAllBlank {b : Text} (hb : isAllBlank b = true) : '\\' ∉ b :=
  fun hm => absurd (List.all_eq_true.mp hb _ hm) (by decide)

theorem dropWhile_not_isBlank_head (s : Text) :
    ∀ c ∈ (s.dropWhile fun c => !isBlank c).head?, isBlank c = true := by
  intro c hc
  have := List.head?_dropWhile_not (fun c => !isBlank c) s
  rw [Option.mem_def.mp hc] at this
  simpa using this

theorem wordsFrom_eq : ∀ (s : Text) {word : Text}, word ≠ [] →
    wordsFrom word s =
      (word.reverse ++ s.takeWhile fun c => !isBlank c) :: words (s.dropWhile fun c => !isBlank c)
  | [], word, h => by
    cases word with
    | nil => exact absurd rfl h
    | cons c word => simp [wordsFrom, words]
  | c :: s, word, h => by
    have hne : word.isEmpty = false := by simpa using h
    by_cases hc : isBlank c = true
    · simp [wordsFrom, hc, hne, words]
    · rw [wordsFrom, if_neg hc, wordsFrom_eq s (List.cons_ne_nil c word)]
      simp [hc]

/-- The first word begins with the first character that is no blank. -/
theorem words_cons {c : Char} (hc : isBlank c = false) (s : Text) : words (c :: s) =
    (c :: s.takeWhile fun c => !isBlank c) :: words (s.dropWhile fun c => !isBlank c) := by
  rw [words, wordsFrom, if_neg (by simp [hc]), wordsFrom_eq s (List.cons_ne_nil c [])]
  rfl

theorem words_dropBlanks : ∀ s : Text, words (dropBlanks s) = words s
  | [] => rfl
  | c :: s => by
    by_cases hc : isBlank c = true
    · rw [words_blank_cons s hc, ← words_dropBlanks s]
      simp [dropBlanks, hc]
    · rw [dropBlanks_cons_of_not_isBlank (by simpa using hc)]

/-- A word before a blank. -/
theorem words_append {w r : Text} (hw : ∀ c ∈ w, isBlank c = false)
    (hr : ∀ c ∈ r.head?, isBlank c = true) (hne : w ≠ []) : words (w ++ r) = w :: words r := by
  obtain ⟨c, w, rfl⟩ := List.exists_cons_of_ne_nil hne
  have hall : ∀ d ∈ w, (!isBlank d) = true := fun d hd => by simp [hw d (List.mem_cons_of_mem _ hd)]
  have hrest : r.takeWhile (fun c => !isBlank c) = [] ∧ r.dropWhile (fun c => !isBlank c) = r := by
    cases r with
    | nil => exact ⟨rfl, rfl⟩
    | cons d r => simp [hr d rfl]
  rw [List.cons_append, words_cons (hw c (List.mem_cons_self ..)),
    List.takeWhile_append_of_pos hall, List.dropWhile_append_of_pos hall, hrest.1, hrest.2,
    List.append_nil]

/-- What is right after a part of a word matters to its words only. -/
theorem words_append_congr {w r r' : Text} (hw : ∀ c ∈ w, isBlank c = false)
    (hr : ∀ c ∈ r.head?, isBlank c = true) (hr' : ∀ c ∈ r'.head?, isBlank c = true)
    (h : words r = words r') : words (w ++ r) = words (w ++ r') := by
  by_cases hne : w = []
  · rw [hne]
    exact h
  · rw [words_append hw hr hne, words_append hw hr' hne, h]

/-- Words are not empty and have no blanks. -/
theorem isWord_of_mem_words : ∀ {s : Text} {word : Text}, (∀ c ∈ word, isBlank c = false) →
    ∀ w ∈ wordsFrom word s, w ≠ [] ∧ ∀ c ∈ w, isBlank c = false
  | [], word, hword, w, h => by
    cases word with
    | nil => cases h
    | cons d word =>
      obtain rfl : w = (d :: word).reverse := by simpa [wordsFrom] using h
      exact ⟨by simp, fun c hc => hword c (List.mem_reverse.mp hc)⟩
  | c :: s, word, hword, w, h => by
    by_cases hc : isBlank c = true
    · cases word with
      | nil => exact isWord_of_mem_words (fun _ hd => absurd hd List.not_mem_nil) w (by simpa [wordsFrom, hc] using h)
      | cons d word =>
        have h : w = (d :: word).reverse ∨ w ∈ wordsFrom [] s := by simpa [wordsFrom, hc] using h
        rcases h with rfl | h
        · exact ⟨by simp, fun c hc => hword c (List.mem_reverse.mp hc)⟩
        · exact isWord_of_mem_words (fun _ hd => absurd hd List.not_mem_nil) w h
    · rw [wordsFrom, if_neg hc] at h
      refine isWord_of_mem_words (fun d hd => ?_) w h
      rcases List.mem_cons.mp hd with rfl | hd
      · simpa using hc
      · exact hword d hd

/-- Words joined by spaces are read as those words. -/
theorem words_intercalate : ∀ {ws : List Text}, (∀ w ∈ ws, w ≠ [] ∧ ∀ c ∈ w, isBlank c = false) →
    words ([' '].intercalate ws) = ws
  | [], _ => rfl
  | [w], h => by
    obtain ⟨hne, hw⟩ := h w (List.mem_cons_self ..)
    rw [List.intercalate_singleton, ← List.append_nil w, words_append hw (by simp) hne,
      List.append_nil]
    rfl
  | w :: w' :: ws, h => by
    obtain ⟨hne, hw⟩ := h w (List.mem_cons_self ..)
    have ih := words_intercalate fun w hw => h w (List.mem_cons_of_mem _ hw)
    rw [List.intercalate_cons_cons]
    rw [List.append_assoc, words_append hw (by simp [isBlank_space]) hne, List.singleton_append,
      words_blank_cons _ isBlank_space, ih]

theorem words_collapse (s : Text) : words (collapse s) = words s :=
  words_intercalate (isWord_of_mem_words (fun _ hd => absurd hd List.not_mem_nil))

/-! ### The text after a block -/

/-- What ends a block: a closing bracket or a comma. -/
def closers : List Char :=
  [')', ']', '\x7d', ',']

/-- After blanks, the text begins with a closing bracket or a comma. -/
def Closes (v : Text) : Prop :=
  ∃ c r, dropBlanks v = c :: r ∧ c ∈ closers

theorem isAlphanumeric_of_mem_closers {c : Char} (h : c ∈ closers) : isAlphanumeric c = false := by
  have hall : ∀ c ∈ closers, isAlphanumeric c = false := forall_mem_of_all (by decide +kernel)
  exact hall c h

theorem isBlank_of_mem_closers {c : Char} (h : c ∈ closers) : isBlank c = false := by
  have hall : ∀ c ∈ closers, isBlank c = false := forall_mem_of_all (by decide)
  exact hall c h

theorem Closes.dropBlanks {v : Text} (h : Closes v) : Closes (dropBlanks v) := by
  obtain ⟨c, r, hv, hc⟩ := h
  exact ⟨c, r, by rw [dropBlanks_dropBlanks, hv], hc⟩

theorem closes_blanks_append {b v : Text} (hb : isAllBlank b = true) (h : Closes v) :
    Closes (b ++ v) := by
  obtain ⟨c, r, hv, hc⟩ := h
  exact ⟨c, r, by rw [dropBlanks_of_isAllBlank hb, hv], hc⟩

theorem closes_cons {c : Char} (h : c ∈ closers) (s : Text) : Closes (c :: s) :=
  ⟨c, s, dropBlanks_cons_of_not_isBlank (isBlank_of_mem_closers h) s, h⟩

/-- A text that closes a block begins with a blank, a closing bracket or a comma. -/
theorem Closes.eq_cons {v : Text} (h : Closes v) :
    ∃ c r, v = c :: r ∧ (isBlank c = true ∨ c ∈ closers) := by
  obtain ⟨c, r, hv, hc⟩ := h
  cases v with
  | nil => cases hv
  | cons d v =>
    refine ⟨d, v, rfl, ?_⟩
    by_cases hd : isBlank d = true
    · exact .inl hd
    · rw [dropBlanks_cons_of_not_isBlank (by simpa using hd)] at hv
      obtain ⟨rfl, rfl⟩ := List.cons.inj hv
      exact .inr hc

/-- The text is empty or begins with a blank, a closing bracket or a comma. -/
def Separates (v : Text) : Prop :=
  ∀ c ∈ v.head?, isBlank c = true ∨ c ∈ closers

theorem Closes.separates {v : Text} (h : Closes v) : Separates v := by
  obtain ⟨c, r, rfl, hc⟩ := h.eq_cons
  intro d hd
  obtain rfl : c = d := by simpa using hd
  exact hc

theorem isAlphanumeric_of_separator {c : Char} (h : isBlank c = true ∨ c ∈ closers) :
    isAlphanumeric c = false :=
  h.elim isAlphanumeric_of_isBlank isAlphanumeric_of_mem_closers

section Separates

variable {v : Text} (hv : Separates v)

include hv

theorem Separates.head_any {p : Char → Bool}
    (hp : ∀ c, isBlank c = true ∨ c ∈ closers → p c = false) : v.head?.any p = false := by
  cases h : v.head? with
  | none => rfl
  | some c => exact hp c (hv c h)

theorem Separates.head_isAlphanumeric : v.head?.any isAlphanumeric = false :=
  hv.head_any fun _ h => isAlphanumeric_of_separator h

theorem Separates.head_isAsciiLetter : v.head?.any isAsciiLetter = false :=
  hv.head_any fun _ h => isAsciiLetter_of_isAlphanumeric (isAlphanumeric_of_separator h)

theorem Separates.head_isDecimalDigit : v.head?.any isDecimalDigit = false :=
  hv.head_any fun _ h => isDecimalDigit_of_isAlphanumeric (isAlphanumeric_of_separator h)

/-- A character that is neither blank nor closes anything does not begin such a text. -/
theorem Separates.head_ne {c : Char} (hb : isBlank c = false) (hc : c ∉ closers) :
    v.head? ≠ some c := by
  intro h
  rcases hv c h with h | h
  · rw [h] at hb
    cases hb
  · exact hc h

end Separates

theorem Closes.head_isAlphanumeric {v : Text} (h : Closes v) :
    v.head?.any isAlphanumeric = false :=
  h.separates.head_isAlphanumeric

theorem Closes.head_isAsciiLetter {v : Text} (h : Closes v) : v.head?.any isAsciiLetter = false :=
  h.separates.head_isAsciiLetter

theorem Closes.head_isDecimalDigit {v : Text} (h : Closes v) :
    v.head?.any isDecimalDigit = false :=
  h.separates.head_isDecimalDigit

theorem Closes.head_ne {v : Text} (h : Closes v) {c : Char} (hb : isBlank c = false)
    (hc : c ∉ closers) : v.head? ≠ some c :=
  h.separates.head_ne hb hc

end NumericAnswer
