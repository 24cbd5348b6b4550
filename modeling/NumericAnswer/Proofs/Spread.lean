/-
# Blanks between tokens

Blanks put in where tokens begin and end leave the tokens as they are: the reader of numbers
and the splitting of letters look ahead, but never from one token into the blanks before the
next one. So the text is read as before, with the same expression or a fault of the same code.
Only a backslash at the end of the text is a token that would take in a blank after it.

Key definitions: `spread`, `Bounds`, `Gaps`, `Loose`.
Key theorems: `lexeme_of_loose`, `lexes_spreadFrom`, `Expr.parse_spread`.
-/
import NumericAnswer.Proofs.Literals
import NumericAnswer.Proofs.Twins

namespace NumericAnswer

/-! ### Putting in blanks -/

/-- The text, which starts at the position, with gaps before its characters and at its end. -/
def spreadFrom (gap : Nat → Text) (position : Nat) : Text → Text
  | [] => gap position
  | c :: s => gap position ++ c :: spreadFrom gap (position + 1) s

/-- The text with `gap i` before its character `i`, and with a gap at its end. -/
def spread (gap : Nat → Text) (s : Text) : Text :=
  spreadFrom gap 0 s

/-- A token begins or ends at the position. -/
def Bounds (ts : List Token) (i : Nat) : Prop :=
  ∃ token ∈ ts, i = token.position ∨ i = token.position + token.symbol.text.length

/-- The gaps are blanks where tokens begin or end, but not after a backslash that is alone,
which ends the text. -/
structure Gaps (gap : Nat → Text) (ts : List Token) : Prop where
  blank (i : Nat) : isAllBlank (gap i) = true
  bounds (i : Nat) (h : gap i ≠ []) : Bounds ts i
  lone {token : Token} (ht : token ∈ ts) (h : token.symbol = .command ['\\']) :
    gap (token.position + 1) = []

/-- The characters of letters and numbers. -/
def InLexeme (c : Char) : Prop :=
  isAsciiLetter c = true ∨ isDecimalDigit c = true ∨ c ∈ ['.', '+', '-']

/-- The second text begins with the letters or the number that the first one begins with. -/
def Loose (t s : Text) : Prop :=
  ∀ w, (∀ c ∈ w, InLexeme c) → w <+: t → w <+: s

/-- The characters of numbers. -/
def InNumeral (c : Char) : Prop :=
  isDecimalDigit c = true ∨ c ∈ ['.', '+', '-', 'e', 'E']

/-- The second text begins with the number that the first one begins with. -/
def LooseNumerals (t s : Text) : Prop :=
  ∀ w, (∀ c ∈ w, InNumeral c) → w <+: t → w <+: s

theorem InNumeral.inLexeme {c : Char} (h : InNumeral c) : InLexeme c := by
  have hsigns : ∀ c ∈ ['.', '+', '-', 'e', 'E'], isAsciiLetter c = true ∨ c ∈ ['.', '+', '-'] :=
    forall_mem_of_all (by decide)
  exact h.elim (fun h => .inr (.inl h)) fun h => (hsigns c h).imp_right .inr

theorem Loose.numerals {s t : Text} (h : Loose t s) : LooseNumerals t s :=
  fun w hw => h w fun c hc => (hw c hc).inLexeme

section Spread

variable {gap : Nat → Text} {a s t w : Text} {position : Nat}

theorem spreadFrom_append (h : ∀ i, position ≤ i → i < position + a.length → gap i = []) :
    spreadFrom gap position (a ++ s) = a ++ spreadFrom gap (position + a.length) s := by
  induction a generalizing position with
  | nil => rfl
  | cons c a ih =>
    have hrest := @ih (position + 1) fun i hi hlt =>
      h i (by omega) (by simp only [List.length_cons]; omega)
    rw [List.cons_append, spreadFrom, h position le_rfl (by simp), hrest, List.length_cons]
    simp only [List.nil_append, List.cons_append, Nat.add_assoc, Nat.add_comm 1]

/-- A part without gaps inside. -/
theorem spreadFrom_solid (ha : a ≠ [])
    (h : ∀ i, position < i → i < position + a.length → gap i = []) :
    spreadFrom gap position (a ++ s) =
      gap position ++ (a ++ spreadFrom gap (position + a.length) s) := by
  obtain ⟨c, a, rfl⟩ := List.exists_cons_of_ne_nil ha
  have hrest := @spreadFrom_append gap a s (position + 1) fun i hi hlt =>
    h i (by omega) (by simp only [List.length_cons]; omega)
  rw [List.cons_append, spreadFrom, hrest, List.length_cons]
  simp only [List.cons_append, Nat.add_assoc, Nat.add_comm 1]

theorem loose_spreadFrom (hgap : ∀ i, isAllBlank (gap i) = true) :
    ∀ (s : Text) (position : Nat), Loose (spreadFrom gap position s) s
  | s, position, [], _, _ => List.nil_prefix
  | s, position, d :: w, hw, hp => by
    have hd := isBlank_of_lexeme_char (hw d (List.mem_cons_self ..))
    have hblank := hgap position
    cases hg : gap position with
    | cons e g =>
      rw [hg] at hblank
      simp only [isAllBlank, List.all_cons, Bool.and_eq_true] at hblank
      cases s <;>
        (rw [spreadFrom, hg] at hp
         obtain ⟨rfl, -⟩ := List.cons_prefix_cons.mp hp
         exact absurd (hd.symm.trans hblank.1) (by decide))
    | nil =>
      cases s with
      | nil =>
        rw [spreadFrom, hg] at hp
        exact absurd hp (by simp)
      | cons c s =>
        rw [spreadFrom, hg, List.nil_append, List.cons_prefix_cons] at hp
        obtain ⟨rfl, hp⟩ := hp
        have hrest := loose_spreadFrom hgap s (position + 1) w
          (fun c hc => hw c (List.mem_cons_of_mem _ hc)) hp
        exact List.cons_prefix_cons.mpr ⟨rfl, hrest⟩

theorem head?_of_prefix {p : Char → Bool} (h : ∀ c, p c = true → [c] <+: t → [c] <+: s)
    (hs : s.head?.any p = false) : t.head?.any p = false := by
  cases t with
  | nil => rfl
  | cons c t =>
    cases hc : p c with
    | false => exact hc
    | true =>
      obtain ⟨s, rfl⟩ := h c hc (by simp)
      exact absurd (hc.symm.trans hs) (by decide)

theorem Loose.head? (h : Loose t s) {p : Char → Bool} (hp : ∀ c, p c = true → InLexeme c)
    (hs : s.head?.any p = false) : t.head?.any p = false :=
  head?_of_prefix (fun c hc => h [c] (by simpa using hp c hc)) hs

end Spread

/-! ### Lexemes before blanks -/

section Loose

variable {c : Char} {r s t : Text}

theorem Literal.Power.Formed.inNumeral {p : Literal.Power} (h : p.Formed) :
    ∀ c ∈ p.text, InNumeral c := by
  intro c hc
  rcases List.mem_cons.mp hc with rfl | hc
  · rcases h.mark with hm | hm <;> simp [InNumeral, hm]
  · rcases List.mem_append.mp hc with hc | hc
    · rcases h.sign c (by simpa using hc) with rfl | rfl <;> simp [InNumeral]
    · exact .inl (h.digits c hc)

theorem Literal.Formed.inNumeral {l : Literal} (h : l.Formed) : ∀ c ∈ l.text, InNumeral c := by
  intro c hc
  rcases List.mem_append.mp hc with hc | hc
  · exact .inl (h.whole c hc)
  rcases List.mem_append.mp hc with hc | hc
  · split at hc
    · exact .inr (by simp [List.mem_singleton.mp hc])
    · cases hc
  rcases List.mem_append.mp hc with hc | hc
  · exact .inl (h.fraction c hc)
  cases hp : l.power with
  | none => rw [hp] at hc; cases hc
  | some p => rw [hp] at hc; exact (h.power p hp).inNumeral c hc

theorem Literal.EndsBefore.loose {l : Literal} (h : l.EndsBefore s) (ht : LooseNumerals t s) :
    l.EndsBefore t where
  digit := head?_of_prefix (fun c hc => ht [c] (by simpa using .inl hc)) h.digit
  power hnone := by
    cases hp : Literal.readPower? t with
    | mk power rest =>
      cases power with
      | none => rfl
      | some p =>
        have hformed := (Literal.Power.formed_of_readPower? hp).1
        have happend := Literal.readPower?_append t
        rw [hp] at happend
        obtain ⟨s, rfl⟩ := ht p.text hformed.inNumeral ⟨rest, happend⟩
        exact absurd (h.power hnone) (hformed.readPower?_ne_none s)
  point hnone hpoint hdot := by
    obtain ⟨t, rfl⟩ := List.head?_eq_some_iff.mp hdot
    obtain ⟨s, rfl⟩ := ht ['.'] (by simp [InNumeral]) (by simp)
    exact h.point hnone hpoint rfl

/-- No number begins where none began before blanks were put in. -/
theorem Literal.read?_none_of_loose (h : Literal.read? (c :: s) = none) (ht : LooseNumerals t s) :
    Literal.read? (c :: t) = none := by
  cases hr : Literal.read? (c :: t) with
  | none => rfl
  | some found =>
    obtain ⟨l, rest⟩ := found
    have hformed := (Literal.formed_of_read? hr).1
    have happend := Literal.text_append_of_read? hr
    obtain ⟨d, text, htext⟩ := List.exists_cons_of_ne_nil (Literal.text_ne_nil hr)
    rw [htext, List.cons_append] at happend
    obtain ⟨rfl, rfl⟩ := List.cons.inj happend
    obtain ⟨s, rfl⟩ := ht text (fun c hc => hformed.inNumeral c (htext ▸ List.mem_cons_of_mem _ hc))
      (List.prefix_append _ _)
    have hne := hformed.read?_ne_none s
    rw [htext] at hne
    exact absurd h hne

theorem commandBody_of_letters {letters : Text} (hne : letters ≠ [])
    (hl : s.takeWhile isAsciiLetter = letters) : commandBody s = letters := by
  unfold commandBody
  rw [hl]
  cases letters with
  | nil => exact absurd rfl hne
  | cons => rfl

theorem commandBody_of_sign (hc : isAsciiLetter c = false) (s : Text) :
    commandBody (c :: s) = [c] := by
  simp [commandBody, hc]

/-- The letters of a command, or the one character, end where they did. -/
theorem commandBody_of_loose (ht : Loose t (s.drop (commandBody s).length))
    (hlone : s = [] → t = []) : commandBody (s.take (commandBody s).length ++ t) = commandBody s := by
  rw [take_length_of_append (commandBody_append s)]
  cases hl : s.takeWhile isAsciiLetter with
  | cons d letters =>
    have hbody := commandBody_of_letters (List.cons_ne_nil d letters) hl
    have hrest : (s.drop (commandBody s).length).head?.any isAsciiLetter = false := by
      have hdrop : s.drop (commandBody s).length = s.dropWhile isAsciiLetter := by
        rw [hbody, ← hl, drop_length_takeWhile]
      rw [hdrop]
      exact head?_dropWhile_any isAsciiLetter s
    have hall : ∀ e ∈ d :: letters, isAsciiLetter e = true := by
      rw [← hl]
      exact List.all_eq_true.mp List.all_takeWhile
    rw [hbody]
    refine commandBody_of_letters (List.cons_ne_nil d letters) ?_
    rw [takeWhile_append_of_head (ht.head? (fun _ hc => .inl hc) hrest)]
    exact List.takeWhile_eq_self_iff.mpr hall
  | nil =>
    cases s with
    | nil =>
      rw [hlone rfl]
      rfl
    | cons d s =>
      have hd : isAsciiLetter d = false := by
        cases h : isAsciiLetter d with
        | false => rfl
        | true => simp [h] at hl
      rw [commandBody_of_sign hd]
      exact commandBody_of_sign hd t

/-- A lexeme that is no row of letters ends where it did before blanks were put in. -/
theorem lexeme_of_loose (hc : isAsciiLetter c = false)
    (ht : Loose t (s.drop (lexeme c s).2)) (hlone : c = '\\' → s = [] → t = []) :
    lexeme c (s.take (lexeme c s).2 ++ t) = lexeme c s := by
  cases hread : Literal.read? (c :: s) with
  | some found =>
    obtain ⟨l, rest⟩ := found
    obtain ⟨htext, hrest⟩ := Literal.text_eq_cons hread
    have hlexeme : lexeme c s = ([.number l], l.text.length - 1) := by rw [lexeme, hread]
    rw [hlexeme] at ht ⊢
    obtain ⟨hformed, hends⟩ := Literal.formed_of_read? hread
    have hread' : Literal.read? (c :: (s.take (l.text.length - 1) ++ t)) = some (l, t) := by
      rw [← List.cons_append, ← htext]
      exact Literal.read?_text_append hformed ((hrest ▸ hends).loose ht.numerals)
    rw [lexeme, hread']
  | none =>
    by_cases hcommand : c = '\\'
    · subst hcommand
      have hlexeme : ∀ s, lexeme '\\' s =
          ([.command ('\\' :: commandBody s)], (commandBody s).length) := by
        intro s
        simp [lexeme, Literal.read?_eq_none (c := '\\') (by decide) (by decide), hc]
      rw [hlexeme] at ht ⊢
      rw [hlexeme, commandBody_of_loose ht (hlone rfl)]
    · have hlexeme : lexeme c s = ([.ofSign c], 0) := by simp [lexeme, hread, hc, hcommand]
      rw [hlexeme] at ht ⊢
      rw [List.take_zero, List.nil_append, lexeme, Literal.read?_none_of_loose hread ht.numerals]
      simp [hc, hcommand]

end Loose

/-! ### Letters before blanks -/

section Letters

variable {afterNumber : Bool} {run rest t : Text} {us : List (Symbol × Bool)} {w : Word}

theorem shapesOf_splitWords (afterNumber : Bool) (s : Text) :
    shapesOf afterNumber (splitWords s) = (splitWords s).map fun symbol => (symbol, false) := by
  have hshapes : ∀ (symbols : List Symbol) (afterNumber : Bool),
      (∀ symbol ∈ symbols, symbol.isNumber = false) →
      shapesOf afterNumber symbols = symbols.map fun symbol => (symbol, false) := by
    intro symbols
    induction symbols with
    | nil => exact fun _ _ => rfl
    | cons symbol symbols ih =>
      intro afterNumber h
      have hs := h symbol (List.mem_cons_self ..)
      rw [shapesOf, hs, ih false fun symbol hm => h symbol (List.mem_cons_of_mem _ hm)]
      rfl
  exact hshapes _ _ fun _ => Symbol.isNumber_of_mem_splitWords

theorem lexeme_letters {c : Char} (hrun : ∀ d ∈ c :: run, isAsciiLetter d = true)
    (hrest : rest.head?.any isAsciiLetter = false) :
    lexeme c (run ++ rest) = (splitWords (c :: run), run.length) := by
  have hc := hrun c (List.mem_cons_self ..)
  have hread : Literal.read? (c :: (run ++ rest)) = none := by
    refine Literal.read?_eq_none (isDecimalDigit_of_isAsciiLetter hc) ?_ _
    rintro rfl
    exact absurd hc (by decide)
  have htake : (run ++ rest).takeWhile isAsciiLetter = run := by
    rw [takeWhile_append_of_head hrest]
    exact List.takeWhile_eq_self_iff.mpr fun d hd => hrun d (List.mem_cons_of_mem _ hd)
  simp [lexeme, hread, hc, htake]

/-- A row of letters becomes its words, whatever stands before it. -/
theorem lexes_letters_iff (hrun : ∀ d ∈ run, isAsciiLetter d = true) (hne : run ≠ [])
    (hrest : rest.head?.any isAsciiLetter = false) :
    Lexes afterNumber (run ++ rest) us ↔ ∃ vs,
      us = ((splitWords run).map fun symbol => (symbol, false)) ++ vs ∧ Lexes false rest vs := by
  obtain ⟨c, run, rfl⟩ := List.exists_cons_of_ne_nil hne
  have hlexeme := lexeme_letters hrun hrest
  have hb : isBlank c = false := isBlank_of_lexeme_char (.inl (hrun c (List.mem_cons_self ..)))
  have hnumber : (splitWords (c :: run)).any Symbol.isNumber = false := by
    rw [List.any_eq_false]
    exact fun symbol hm => by simp [Symbol.isNumber_of_mem_splitWords hm]
  constructor
  · intro h
    rw [List.cons_append] at h
    cases h with
    | blank hb' => exact absurd (hb.symm.trans hb') (by decide)
    | @step _ _ vs _ _ _ h =>
      rw [hlexeme, hnumber, List.drop_left] at h
      exact ⟨vs, by rw [hlexeme, shapesOf_splitWords], h⟩
  · rintro ⟨vs, rfl, h⟩
    have hstep := @Lexes.step c (run ++ rest) vs afterNumber hb
      (repeatsPoint_eq_false (fun symbol hm => Symbol.isNumber_of_mem_splitWords (by
        rwa [hlexeme] at hm)) _) (by rwa [hlexeme, hnumber, List.drop_left])
    rwa [hlexeme, shapesOf_splitWords] at hstep

/-- A text that starts with a letter starts with the words of all letters in front. -/
theorem lexes_leadingLetters_iff {c : Char} (hc : isAsciiLetter c = true) :
    Lexes afterNumber (c :: t) us ↔ ∃ vs,
      us = ((splitWords (c :: leadingLetters t)).map fun symbol => (symbol, false)) ++ vs ∧
        Lexes false (t.drop (leadingLetters t).length) vs := by
  have hrun : ∀ d ∈ c :: leadingLetters t, isAsciiLetter d = true :=
    List.forall_mem_cons.mpr ⟨hc, isAsciiLetter_of_mem_leadingLetters⟩
  have hstop : (t.drop (leadingLetters t).length).head?.any isAsciiLetter = false := by
    rw [leadingLetters, drop_length_takeWhile]
    exact head?_dropWhile_any isAsciiLetter t
  have hsplit : c :: t = c :: leadingLetters t ++ t.drop (leadingLetters t).length := by
    rw [List.cons_append, leadingLetters_append]
  rw [hsplit]
  exact lexes_letters_iff hrun (List.cons_ne_nil _ _) hstop

/-- A word is also found at the front of fewer letters, if they reach to its end. -/
theorem Word.atFront?_of_prefix {s : Text} (h : Word.atFront? s = some w) (hw : w.text <+: t)
    (ht : t <+: s) : Word.atFront? t = some w := by
  obtain ⟨-, longer, shorter, hall, hlonger⟩ := List.find?_eq_some_iff_append.mp h
  refine List.find?_eq_some_iff_append.mpr
    ⟨List.isPrefixOf_iff_prefix.mpr hw, longer, shorter, hall, fun v hv => ?_⟩
  have hv := hlonger v hv
  rw [Bool.not_eq_true', ← Bool.not_eq_true, List.isPrefixOf_iff_prefix] at hv ⊢
  exact fun hp => hv (hp.trans ht)

theorem splitWords_append (hw : Word.atFront? (w.text ++ run) = some w) :
    splitWords (w.text ++ run) = .word w :: splitWords run := by
  obtain ⟨c, text, htext⟩ := List.exists_cons_of_ne_nil w.text_ne_nil
  rw [htext, List.cons_append] at hw ⊢
  rw [splitWords, hw]
  simp [htext]

/-- A word before what goes on with letters or not. -/
theorem Lexes.word_before (h : Lexes false t us)
    (hw : Word.atFront? (w.text ++ leadingLetters t) = some w) :
    Lexes afterNumber (w.text ++ t) ((.word w, false) :: us) := by
  have hrest := head?_dropWhile_any isAsciiLetter t
  have hsplit := leadingLetters_append_dropWhile t
  have hletters : ∀ c ∈ leadingLetters t, isAsciiLetter c = true := isAsciiLetter_of_mem_leadingLetters
  generalize leadingLetters t = run, t.dropWhile isAsciiLetter = rest at hw hrest hsplit hletters
  subst hsplit
  obtain ⟨vs, rfl, hvs⟩ : ∃ vs,
      us = ((splitWords run).map fun symbol => (symbol, false)) ++ vs ∧ Lexes false rest vs := by
    by_cases hne : run = []
    · subst hne
      exact ⟨us, by simp [splitWords], h⟩
    · exact (lexes_letters_iff hletters hne hrest).mp h
  rw [← List.append_assoc]
  refine (lexes_letters_iff (fun c hc => ?_) (by simp [w.text_ne_nil]) hrest).mpr
    ⟨vs, by rw [splitWords_append hw]; rfl, hvs⟩
  exact (List.mem_append.mp hc).elim (w.isAsciiLetter_of_mem_text c) (hletters c)

end Letters

/-! ### Tokens before blanks -/

section Tokens

variable {gap : Nat → Text} {afterNumber : Bool} {position : Nat} {rest s : Text}
  {us : List (Symbol × Bool)} {ts : List Token}

theorem le_of_mem_place {symbols : List Symbol} : ∀ {position : Nat} {afterNumber : Bool},
    ∀ token ∈ place position afterNumber symbols, position ≤ token.position := by
  induction symbols with
  | nil => exact fun _ h => absurd h List.not_mem_nil
  | cons symbol symbols ih =>
    intro position afterNumber token h
    rcases List.mem_cons.mp h with rfl | h
    · exact le_rfl
    · exact (Nat.le_add_right _ _).trans (ih token h)

theorem prefix_of_letters {l run rest : Text} (hl : ∀ c ∈ l, isAsciiLetter c = true)
    (hrun : ∀ c ∈ run, isAsciiLetter c = true) (hrest : rest.head?.any isAsciiLetter = false)
    (h : l <+: run ++ rest) : l <+: run := by
  obtain ⟨r, hr⟩ := h
  have htake := takeWhile_append_of_head hrest run
  rw [List.takeWhile_eq_self_iff.mpr hrun, ← hr, List.takeWhile_append_of_pos hl] at htake
  exact ⟨_, htake⟩

/-- Blanks between the words of a row of letters leave the words. -/
theorem lexes_spread_letters (hgap : ∀ i, isAllBlank (gap i) = true)
    (hrest : rest.head?.any isAsciiLetter = false) (run : Text) :
    ∀ {position : Nat} {afterNumber : Bool}, (run = [] → afterNumber = false) →
      (∀ c ∈ run, isAsciiLetter c = true) →
      (∀ i, position < i → i < position + run.length → gap i ≠ [] →
        Bounds (place position afterNumber (splitWords run)) i) →
      Lexes false (spreadFrom gap (position + run.length) rest) us →
      Lexes afterNumber (spreadFrom gap position (run ++ rest))
        (((splitWords run).map fun symbol => (symbol, false)) ++ us) := by
  fun_induction splitWords run with
  | case1 => exact fun hfalse _ _ h => hfalse rfl ▸ h
  | case2 c cs w hw ih =>
    intro position afterNumber _ hletters hbounds h
    have hrun := Word.eq_append_of_atFront? hw
    generalize (c :: cs).drop w.text.length = run at hrun ih hbounds ⊢
    rw [hrun] at hw hletters hbounds h ⊢
    rw [List.length_append] at hbounds h
    -- No other word begins or ends inside the first one.
    have hinside : ∀ i, position < i → i < position + w.text.length → gap i = [] := by
      intro i hi hlt
      by_contra hne
      obtain ⟨token, ht, hi'⟩ := hbounds i hi (by omega) hne
      rcases List.mem_cons.mp ht with rfl | ht
      · change i = position ∨ i = position + w.text.length at hi'
        omega
      · have hle : position + w.text.length ≤ token.position := le_of_mem_place token ht
        omega
    have hlater : ∀ i, position + w.text.length < i → i < position + w.text.length + run.length →
        gap i ≠ [] → Bounds (place (position + w.text.length) false (splitWords run)) i := by
      intro i hi hlt hne
      obtain ⟨token, ht, hi'⟩ := hbounds i (by omega) (by omega) hne
      rcases List.mem_cons.mp ht with rfl | ht
      · change i = position ∨ i = position + w.text.length at hi'
        omega
      · exact ⟨token, ht, hi'⟩
    have hletters' : ∀ c ∈ run, isAsciiLetter c = true :=
      fun c hc => hletters c (List.mem_append_right _ hc)
    rw [← Nat.add_assoc] at h
    have ih := ih (fun _ => rfl) hletters' hlater h
    rw [List.append_assoc, spreadFrom_solid w.text_ne_nil hinside]
    refine Lexes.blanks_append (ih.word_before (Word.atFront?_of_prefix hw (List.prefix_append _ _) ?_))
      (hgap position)
    have hloose := loose_spreadFrom hgap (run ++ rest) (position + w.text.length)
    exact List.prefix_append_right_inj _ |>.mpr (prefix_of_letters
      isAsciiLetter_of_mem_leadingLetters hletters' hrest (hloose _ (fun c hc =>
        .inl (isAsciiLetter_of_mem_leadingLetters c hc)) (List.takeWhile_prefix _)))
  | case3 c cs hw =>
    intro position afterNumber _ hletters hbounds h
    have hinside : ∀ i, position < i → i < position + (c :: cs).length → gap i = [] := by
      intro i hi hlt
      by_contra hne
      obtain ⟨token, ht, hi'⟩ := hbounds i hi hlt hne
      obtain rfl := List.mem_singleton.mp ht
      change i = position ∨ i = position + (c :: cs).length at hi'
      omega
    have hloose := loose_spreadFrom hgap rest (position + (c :: cs).length)
    rw [spreadFrom_solid (List.cons_ne_nil c cs) hinside]
    refine Lexes.blanks_append ((lexes_letters_iff hletters (List.cons_ne_nil c cs)
      (hloose.head? (fun _ hc => .inl hc) hrest)).mpr ⟨us, ?_, h⟩) (hgap position)
    rw [splitWords, hw]

/-- A lexeme that starts with no letter is one symbol. -/
theorem exists_symbol_of_lexeme {c : Char} (hc : isAsciiLetter c = false) (s : Text) :
    ∃ symbol, (lexeme c s).1 = [symbol] ∧ symbol.text = c :: s.take (lexeme c s).2 := by
  have htext := text_lexeme c s
  obtain ⟨symbol, h⟩ : ∃ symbol, (lexeme c s).1 = [symbol] := by
    unfold lexeme
    split
    · exact ⟨_, rfl⟩
    · split
      · next hl => exact absurd (hc.symm.trans hl) (by decide)
      · split <;> exact ⟨_, rfl⟩
  refine ⟨symbol, h, ?_⟩
  rw [← htext, h]
  simp

theorem length_take_lexeme (c : Char) (s : Text) :
    (s.take (lexeme c s).2).length = (lexeme c s).2 := by
  rw [List.length_take_of_le]
  by_cases hc : c = '\\'
  · subst hc
    have hbody := congrArg List.length (commandBody_append s)
    rw [List.length_append] at hbody
    have hletter : isAsciiLetter '\\' = false := by decide
    simp only [lexeme, Literal.read?_eq_none (c := '\\') (by decide) (by decide), hletter,
      Bool.false_eq_true, if_false, if_true]
    omega
  · exact length_lexeme_le hc s

theorem repeatsPoint_of_loose {symbols : List Symbol} {t : Text} (ht : LooseNumerals t s)
    (h : repeatsPoint symbols s = false) : repeatsPoint symbols t = false := by
  cases t with
  | nil => unfold repeatsPoint; split <;> simp_all
  | cons d t =>
    by_cases hd : d = '.'
    · subst hd
      obtain ⟨s, rfl⟩ := ht ['.'] (by simp [InNumeral]) (by simp)
      unfold repeatsPoint at h ⊢
      split <;> simp_all
    · unfold repeatsPoint
      split <;> simp_all

theorem Token.StandsIn.end_le {token : Token} (h : token.StandsIn position s) :
    token.position + token.symbol.text.length ≤ position + s.length := by
  have hlength := h.2.2.length_le
  have hlt := h.position_lt
  have hle := h.1
  rw [List.length_drop] at hlength
  omega

/-- The tokens of a lexeme end where it does. -/
theorem end_le_of_mem_place {c : Char} {symbols : List Symbol} {length : Nat}
    (hl : lexeme c s = (symbols, length)) {token : Token}
    (ht : token ∈ place position afterNumber symbols) :
    token.position + token.symbol.text.length ≤ position + 1 + length := by
  have htext := text_lexeme c s
  have hlength := length_take_lexeme c s
  rw [hl] at htext hlength
  have hstands := standsIn_of_mem_place (s := c :: s.take length)
    (fun symbol hm => Symbol.text_ne_nil_of_mem_lexeme (by rwa [hl])) ⟨[], by simpa using htext⟩ ht
  have hle := hstands.end_le
  rw [List.length_cons, hlength] at hle
  omega

theorem Bounds.of_append_left {ts us : List Token} {i stop : Nat} (h : Bounds (ts ++ us) i)
    (hus : ∀ token ∈ us, stop ≤ token.position) (hi : i < stop) : Bounds ts i := by
  obtain ⟨token, ht, hi'⟩ := h
  rcases List.mem_append.mp ht with ht | ht
  · exact ⟨token, ht, hi'⟩
  · have := hus token ht
    omega

theorem Bounds.of_append_right {ts us : List Token} {i stop : Nat} (h : Bounds (ts ++ us) i)
    (hts : ∀ token ∈ ts, token.position + token.symbol.text.length ≤ stop) (hi : stop < i) :
    Bounds us i := by
  obtain ⟨token, ht, hi'⟩ := h
  rcases List.mem_append.mp ht with ht | ht
  · have := hts token ht
    omega
  · exact ⟨token, ht, hi'⟩

/-- The text with gaps has the shapes that it has without them. -/
theorem lexes_spreadFrom (hgap : ∀ i, isAllBlank (gap i) = true)
    (h : tokensFrom position afterNumber s = .ok ts)
    (hbounds : ∀ i, position < i → gap i ≠ [] → Bounds ts i)
    (hlone : ∀ token ∈ ts, token.symbol = .command ['\\'] → gap (token.position + 1) = []) :
    Lexes afterNumber (spreadFrom gap position s) (ts.map Token.shape) := by
  fun_induction tokensFrom position afterNumber s generalizing ts with
  | case1 position afterNumber =>
    obtain rfl := Except.ok.inj h
    exact lexes_nil_of_isAllBlank (hgap position) afterNumber
  | case2 position afterNumber c s hb ih =>
    exact Lexes.blanks_append (.blank hb (ih h (fun i hi => hbounds i (by omega)) hlone))
      (hgap position)
  | case3 => cases h
  | case4 position afterNumber c s hb symbols length hl hp ih =>
    obtain ⟨later, hlater, h⟩ := exists_of_bind_ok h
    obtain rfl := Except.ok.inj h
    replace hb : isBlank c = false := by simpa using hb
    -- A gap inside the lexeme bounds a symbol of it, and a gap behind it a later token.
    have hfirst : ∀ i, position < i → i < position + 1 + length → gap i ≠ [] →
        Bounds (place position afterNumber symbols) i := fun i hi hlt hne =>
      (hbounds i hi hne).of_append_left (fun token ht => (standsIn_of_mem_tokensFrom hlater ht).1) hlt
    have hrest := ih hlater
      (fun i hi hne => (hbounds i (by omega) hne).of_append_right
        (fun token ht => end_le_of_mem_place hl ht) hi)
      (fun token ht => hlone token (List.mem_append_right _ ht))
    rw [List.map_append, map_shape_place]
    cases hc : isAsciiLetter c with
    | true =>
      have hletters : ∀ d ∈ c :: s.takeWhile isAsciiLetter, isAsciiLetter d = true :=
        List.forall_mem_cons.mpr ⟨hc, isAsciiLetter_of_mem_leadingLetters⟩
      have hstop := head?_dropWhile_any isAsciiLetter s
      have hl' := lexeme_letters hletters hstop
      rw [List.takeWhile_append_dropWhile, hl] at hl'
      obtain ⟨rfl, rfl⟩ := Prod.mk.inj hl'
      have hnumber : (splitWords (c :: s.takeWhile isAsciiLetter)).any Symbol.isNumber = false := by
        rw [List.any_eq_false]
        exact fun symbol hm => by simp [Symbol.isNumber_of_mem_splitWords hm]
      have hsplit : c :: s = c :: s.takeWhile isAsciiLetter ++ s.dropWhile isAsciiLetter := by simp
      rw [hnumber, drop_length_takeWhile, Nat.add_assoc, Nat.add_comm 1] at hrest
      rw [shapesOf_splitWords, hsplit]
      refine lexes_spread_letters hgap hstop _ (fun h => absurd h (List.cons_ne_nil _ _)) hletters
        (fun i hi hlt => hfirst i hi ?_) hrest
      rw [List.length_cons] at hlt
      omega
    | false =>
      obtain ⟨symbol, hsymbols, htext⟩ := exists_symbol_of_lexeme hc s
      have hlength := length_take_lexeme c s
      rw [hl] at hsymbols htext hlength
      dsimp only at hsymbols htext hlength
      subst hsymbols
      have hinside : ∀ i, position < i → i < position + (c :: s.take length).length →
          gap i = [] := by
        intro i hi hlt
        rw [List.length_cons, hlength] at hlt
        by_contra hne
        obtain ⟨token, ht, hi'⟩ := hfirst i hi (by omega) hne
        obtain rfl := List.mem_singleton.mp ht
        change i = position ∨ i = position + symbol.text.length at hi'
        rw [htext, List.length_cons, hlength] at hi'
        omega
      have hsplit : c :: s = c :: s.take length ++ s.drop length := by simp
      rw [hsplit, spreadFrom_solid (List.cons_ne_nil _ _) hinside, List.length_cons, hlength,
        Nat.add_comm length, ← Nat.add_assoc]
      refine Lexes.blanks_append ?_ (hgap position)
      have hloose := loose_spreadFrom hgap (s.drop length) (position + 1 + length)
      have hp := repeatsPoint_of_loose hloose.numerals (by simpa using hp)
      have hlone' : c = '\\' → s = [] → spreadFrom gap (position + 1 + length) (s.drop length) = [] := by
        rintro rfl rfl
        have hlexeme : lexeme '\\' [] = ([.command ['\\']], 0) := by decide
        obtain ⟨hsymbol, rfl⟩ := Prod.mk.inj (hl.symm.trans hlexeme)
        exact hlone _ (List.mem_cons_self ..) (List.cons.inj hsymbol).1
      have hlexeme := lexeme_of_loose hc (by rwa [hl]) hlone'
      rw [hl] at hlexeme
      have hdrop : ∀ t, (s.take length ++ t).drop length = t := fun t => List.drop_left' hlength
      have hstep := @Lexes.step c _ (later.map Token.shape) afterNumber hb
        (by rwa [hlexeme, hdrop]) (by rwa [hlexeme, hdrop])
      rwa [hlexeme] at hstep

/-- Blanks between tokens leave the tokens, but for where they stand. -/
theorem exists_tokens_spread (hs : tokens s = .ok ts) (h : Gaps gap ts) :
    ∃ us, tokens (spread gap s) = .ok us ∧ us.map Token.shape = ts.map Token.shape :=
  (lexes_spreadFrom h.blank hs (fun i _ => h.bounds i) fun _ => h.lone).exists_tokensFrom 0

end Tokens

/-- Where tokens begin and end decides how a text is read, and blanks there do not: the text has
the same symbols in the same order, and stands for the same expression or fails with the same
code. -/
theorem Expr.parse_spread {s : Text} {ts : List Token} {gap : Nat → Text} (hs : tokens s = .ok ts)
    (h : Gaps gap ts) :
    (∃ us, tokens (spread gap s) = .ok us ∧ us.map Token.symbol = ts.map Token.symbol) ∧
      SameReading (parse s) (parse (spread gap s)) := by
  obtain ⟨us, hus, hshape⟩ := exists_tokens_spread hs h
  refine ⟨⟨us, hus, ?_⟩, ?_⟩
  · have hsymbols := congrArg (List.map Prod.fst) hshape
    rwa [List.map_map, List.map_map] at hsymbols
  · have hreading : ∀ {text : Text} {ts : List Token}, tokens text = .ok ts →
        parse text = ofTokensWithin callLimit text ts := fun h => by
      rw [parse, parseWithin, h]
      rfl
    rw [hreading hs, hreading hus]
    exact sameReading_ofTokensWithin callLimit s (spread gap s) (SameShapes.twins hshape)

/-- Blanks between a number, words, brackets and a command, but not after the lone backslash. -/
theorem Expr.parse_spread_command :
    let s := "2esin(.5)\\".toList
    let ts : List Token :=
      [⟨.number ⟨['2'], false, [], none⟩, 0, false⟩, ⟨.word (.constant .e), 1, true⟩,
        ⟨.word (.unary .sin), 2, false⟩, ⟨.opening .round, 5, false⟩,
        ⟨.number ⟨[], true, ['5'], none⟩, 6, false⟩, ⟨.closing .round, 8, true⟩,
        ⟨.command ['\\'], 9, false⟩]
    let gap : Nat → Text := fun i => if i ∈ [1, 2, 5, 9] then [' ', '\t'] else []
    tokens s = .ok ts ∧ Gaps gap ts ∧
      (∃ us, tokens (spread gap s) = .ok us ∧ us.map Token.symbol = ts.map Token.symbol) ∧
      SameReading (parse s) (parse (spread gap s)) := by
  intro s ts gap
  have htokens : tokens s = .ok ts := by decide +kernel
  have hgaps : Gaps gap ts :=
    { blank := fun i => by
        change isAllBlank (if i ∈ [1, 2, 5, 9] then [' ', '\t'] else []) = true
        split <;> decide
      bounds := by
        intro i hi
        have hi : i ∈ [1, 2, 5, 9] := by
          by_contra hi'
          exact hi (if_neg hi')
        have hall : ∀ i ∈ [1, 2, 5, 9], ∃ token ∈ ts,
            i = token.position ∨ i = token.position + token.symbol.text.length := by decide
        exact hall i hi
      lone := by
        have hall : ∀ token ∈ ts, token.symbol = .command ['\\'] → gap (token.position + 1) = [] := by
          decide
        exact fun {token} => hall token }
  exact ⟨htokens, hgaps, parse_spread htokens hgaps⟩

end NumericAnswer
