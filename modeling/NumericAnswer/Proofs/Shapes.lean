/-
# What the lexer sees

The parser looks at the symbols of tokens, and at two numbers that follow one
another; these are the shapes of tokens. The shapes of a text do not depend on
its blanks, beyond that there are some, nor on where the text stands; and a
text that ends before a blank, a closing bracket or a comma has the shapes that
it has alone.

Key definitions: `Token.shape`, `Lexes`, `Separates`.
Key theorems: `Lexes.of_tokensFrom`, `Lexes.exists_tokensFrom`,
`Lexes.respaced`, `Lexes.append`, `Framed.lexes`.
-/
import Mathlib.Data.List.TakeWhile
import NumericAnswer.Proofs.Frame
import NumericAnswer.Proofs.Reading

namespace NumericAnswer

/-! ### Where a lexeme ends -/

section Separates

variable {v : Text} (hv : Separates v)

include hv

namespace Literal

theorem spanDigits_append_of_separates (s : Text) :
    spanDigits (s ++ v) = ((spanDigits s).1, (spanDigits s).2 ++ v) := by
  simp only [spanDigits, takeWhile_append_of_head hv.head_isDecimalDigit,
    dropWhile_append_of_head hv.head_isDecimalDigit]

theorem spanSign_append_of_separates (s : Text) :
    spanSign (s ++ v) = ((spanSign s).1, (spanSign s).2 ++ v) := by
  cases s with
  | nil =>
    have hplus := hv.head_ne (c := '+') (by decide) (by decide)
    have hminus := hv.head_ne (c := '-') (by decide) (by decide)
    rw [List.nil_append]
    unfold spanSign
    split
    · exact absurd rfl hplus
    · exact absurd rfl hminus
    · rfl
  | cons c s =>
    rw [List.cons_append]
    unfold spanSign
    split <;> simp_all

theorem readPower?_append_of_separates (s : Text) :
    readPower? (s ++ v) = ((readPower? s).1, (readPower? s).2 ++ v) := by
  cases s with
  | nil =>
    rw [List.nil_append]
    cases v with
    | nil => rfl
    | cons c v =>
      have hc := isAlphanumeric_of_separator (hv c rfl)
      have he : c ≠ 'e' := by rintro rfl; exact absurd hc (by decide)
      have hE : c ≠ 'E' := by rintro rfl; exact absurd hc (by decide)
      simp [readPower?, he, hE]
  | cons c s =>
    rw [List.cons_append]
    unfold readPower?
    by_cases hc : (decide (c = 'e') || decide (c = 'E')) = true
    · simp only [hc, if_true, spanSign_append_of_separates hv, spanDigits_append_of_separates hv]
      rcases spanDigits (spanSign s).2 with ⟨_ | ⟨d, digits⟩, rest⟩ <;> rfl
    · simp only [hc]
      rfl

theorem read?_append_of_separates (s : Text) :
    read? (s ++ v) = (read? s).map fun (l, rest) => (l, rest ++ v) := by
  have hpoint := hv.head_ne (c := '.') (by decide) (by decide)
  unfold read?
  rw [spanDigits_append_of_separates hv]
  cases hs : spanDigits s with
  | mk whole rest =>
    cases rest with
    | nil =>
      cases v with
      | nil => cases whole <;> simp [readPower?]
      | cons c v =>
        have hc : c ≠ '.' := by simpa using hpoint
        have hp := readPower?_append_of_separates hv []
        cases whole with
        | nil => simp [hc]
        | cons d whole => simp_all [readPower?]
    | cons c rest =>
      have hp := readPower?_append_of_separates hv (c :: rest)
      by_cases hc : c = '.'
      · subst hc
        have hf := spanDigits_append_of_separates hv rest
        have hp' := readPower?_append_of_separates hv (spanDigits rest).2
        rcases hd : spanDigits rest with ⟨_ | ⟨d, fraction⟩, after⟩ <;> rw [hd] at hf hp' <;>
          cases whole <;> simp_all
      · cases whole <;> simp_all

end Literal

/-- A lexeme ends before a text that separates. -/
theorem lexeme_append {c : Char} (hc : c ≠ '\\') (s : Text) : lexeme c (s ++ v) = lexeme c s := by
  unfold lexeme
  rw [← List.cons_append, Literal.read?_append_of_separates hv,
    takeWhile_append_of_head hv.head_isAsciiLetter]
  cases Literal.read? (c :: s) with
  | some literal => rfl
  | none => simp [hc]

theorem repeatsPoint_append (symbols : List Symbol) (s : Text) :
    repeatsPoint symbols (s ++ v) = repeatsPoint symbols s := by
  have hpoint := hv.head_ne (c := '.') (by decide) (by decide)
  cases s with
  | cons c s =>
    rw [List.cons_append]
    unfold repeatsPoint
    split <;> simp_all
  | nil =>
    rw [List.nil_append]
    unfold repeatsPoint
    split <;> simp_all

end Separates

/-! ### What a lexeme holds -/

theorem Literal.mem_text_of_read? {s rest : Text} {l : Literal} (h : read? s = some (l, rest)) :
    ∀ d ∈ l.text, isAsciiLetter d = true ∨ isDecimalDigit d = true ∨ d ∈ ['.', '+', '-'] := by
  have hdigits : ∀ (t : Text), ∀ d ∈ (spanDigits t).1, isDecimalDigit d = true :=
    fun t => List.all_eq_true.mp List.all_takeWhile
  have hpower : ∀ (t : Text), ∀ d ∈ ((readPower? t).1.map Power.text).getD [],
      isAsciiLetter d = true ∨ isDecimalDigit d = true ∨ d ∈ ['.', '+', '-'] := by
    intro t d hd
    unfold readPower? at hd
    split at hd
    · cases hd
    · next c t =>
      split at hd
      · next hc =>
        simp only at hd
        split at hd
        · cases hd
        · next digits after _ heq =>
          have hall := hdigits (spanSign t).2
          rw [heq] at hall
          simp only [Option.map_some, Option.getD_some, Power.text, List.mem_cons,
            List.mem_append] at hd
          rcases hd with rfl | hd | hd
          · left
            simp only [Bool.or_eq_true, decide_eq_true_eq] at hc
            rcases hc with rfl | rfl <;> decide
          · right; right
            unfold spanSign at hd
            split at hd <;> simp_all
          · exact .inr (.inl (hall d hd))
      · cases hd
  have hparts : ∀ {whole fraction : Text} {point : Bool} {power : Option Power} {t u r : Text},
      whole = (spanDigits t).1 ∨ whole = [] → fraction = (spanDigits u).1 ∨ fraction = [] →
      power = (readPower? r).1 → ∀ d ∈ Literal.text ⟨whole, point, fraction, power⟩,
      isAsciiLetter d = true ∨ isDecimalDigit d = true ∨ d ∈ ['.', '+', '-'] := by
    intro whole fraction point power t u r hw hf hp d hd
    simp only [Literal.text, List.mem_append] at hd
    rcases hd with hd | hd | hd | hd
    · rcases hw with rfl | rfl
      · exact .inr (.inl (hdigits t d hd))
      · cases hd
    · right; right
      split at hd <;> simp_all
    · rcases hf with rfl | rfl
      · exact .inr (.inl (hdigits u d hd))
      · cases hd
    · rw [hp] at hd
      exact hpower r d hd
  unfold read? at h
  split at h
  · next after heq =>
    split at h
    · cases h
    · next fraction rest _ heq' =>
      obtain ⟨rfl, _⟩ := Prod.mk.inj (Option.some.inj h)
      exact hparts (t := []) (u := after) (.inr rfl) (.inl (congrArg Prod.fst heq').symm) rfl
  · cases h
  · next whole after _ heq =>
    obtain ⟨rfl, _⟩ := Prod.mk.inj (Option.some.inj h)
    exact hparts (t := s) (u := after) (.inl (congrArg Prod.fst heq).symm) (.inl rfl) rfl
  · next whole rest _ _ _ heq =>
    obtain ⟨rfl, _⟩ := Prod.mk.inj (Option.some.inj h)
    exact hparts (t := s) (u := []) (.inl (congrArg Prod.fst heq).symm) (.inr rfl) rfl

/-- A lexeme that is no command goes on with letters, digits, points and signs. -/
theorem mem_take_lexeme {c : Char} (hc : c ≠ '\\') (s : Text) :
    ∀ d ∈ s.take (lexeme c s).2,
      isAsciiLetter d = true ∨ isDecimalDigit d = true ∨ d ∈ ['.', '+', '-'] := by
  intro d hd
  unfold lexeme at hd
  split at hd
  · next literal rest h =>
    refine Literal.mem_text_of_read? h d ?_
    rw [(Literal.text_eq_cons h).1]
    exact List.mem_cons_of_mem _ hd
  · split at hd
    · simp only at hd
      rw [take_length_takeWhile] at hd
      exact .inl (List.all_eq_true.mp List.all_takeWhile d hd)
    · simp at hd

theorem length_lexeme_le {c : Char} (hc : c ≠ '\\') (s : Text) : (lexeme c s).2 ≤ s.length := by
  unfold lexeme
  split
  · next literal rest h =>
    have := congrArg List.length (Literal.text_append_of_read? h)
    simp only [List.length_append, List.length_cons] at this
    simp only
    omega
  · split
    · exact (List.takeWhile_sublist _).length_le
    · simp

theorem isBlank_of_lexeme_char {d : Char}
    (h : isAsciiLetter d = true ∨ isDecimalDigit d = true ∨ d ∈ ['.', '+', '-']) :
    isBlank d = false := by
  have hsigns : ∀ d ∈ ['.', '+', '-'], isBlank d = false :=
    forall_mem_of_all (by decide)
  cases hb : isBlank d with
  | false => rfl
  | true =>
    have ha := isAlphanumeric_of_isBlank hb
    rcases h with h | h | h
    · rw [isAsciiLetter_of_isAlphanumeric ha] at h
      cases h
    · rw [isDecimalDigit_of_isAlphanumeric ha] at h
      cases h
    · rw [hsigns d h] at hb
      cases hb

/-! ### Shapes -/

/-- What the parser sees of a token, but for where it stands. -/
def Token.shape (token : Token) : Symbol × Bool :=
  (token.symbol, token.symbol.isNumber && token.afterNumber)

/-- The shapes of symbols in a row. -/
def shapesOf (afterNumber : Bool) : List Symbol → List (Symbol × Bool)
  | [] => []
  | symbol :: symbols => (symbol, symbol.isNumber && afterNumber) :: shapesOf symbol.isNumber symbols

theorem map_shape_place : ∀ (symbols : List Symbol) (position : Nat) (afterNumber : Bool),
    (place position afterNumber symbols).map Token.shape = shapesOf afterNumber symbols
  | [], _, _ => rfl
  | symbol :: symbols, position, afterNumber => by
    rw [place, List.map_cons, map_shape_place symbols]
    rfl

/-- The tokens of the text, which may stand right after a number, have these
shapes. -/
inductive Lexes : Bool → Text → List (Symbol × Bool) → Prop where
  | nil (afterNumber : Bool) : Lexes afterNumber [] []
  | blank {afterNumber : Bool} {c : Char} {s : Text} {us : List (Symbol × Bool)}
      (hb : isBlank c = true) (h : Lexes afterNumber s us) : Lexes afterNumber (c :: s) us
  | step {c : Char} {s : Text} {us : List (Symbol × Bool)} (afterNumber : Bool)
      (hb : isBlank c = false)
      (hp : repeatsPoint (lexeme c s).1 (s.drop (lexeme c s).2) = false)
      (h : Lexes ((lexeme c s).1.any Symbol.isNumber) (s.drop (lexeme c s).2) us) :
      Lexes afterNumber (c :: s) (shapesOf afterNumber (lexeme c s).1 ++ us)

theorem Lexes.of_tokensFrom {position : Nat} {afterNumber : Bool} {s : Text} {ts : List Token}
    (h : tokensFrom position afterNumber s = .ok ts) :
    Lexes afterNumber s (ts.map Token.shape) := by
  fun_induction tokensFrom position afterNumber s generalizing ts with
  | case1 =>
    obtain rfl := Except.ok.inj h
    exact .nil _
  | case2 position afterNumber c s hb ih => exact .blank hb (ih h)
  | case3 => cases h
  | case4 position afterNumber c s hb symbols length hl hp ih =>
    obtain ⟨later, hlater, h⟩ := exists_of_bind_ok h
    obtain rfl := Except.ok.inj h
    have hs : symbols = (lexeme c s).1 := by rw [hl]
    have hn : length = (lexeme c s).2 := by rw [hl]
    subst hs hn
    rw [List.map_append, map_shape_place]
    exact .step _ (by simpa using hb) (by simpa using hp) (ih hlater)

theorem Lexes.exists_tokensFrom {afterNumber : Bool} {s : Text} {us : List (Symbol × Bool)}
    (h : Lexes afterNumber s us) : ∀ position, ∃ ts,
      tokensFrom position afterNumber s = .ok ts ∧ ts.map Token.shape = us := by
  induction h with
  | nil afterNumber => exact fun position => ⟨[], by rw [tokensFrom], rfl⟩
  | blank hb _ ih =>
    intro position
    obtain ⟨ts, hts, hus⟩ := ih (position + 1)
    exact ⟨ts, by rw [tokensFrom, if_pos hb, hts], hus⟩
  | @step c s us afterNumber hb hp _ ih =>
    intro position
    obtain ⟨ts, hts, hus⟩ := ih (position + 1 + (lexeme c s).2)
    refine ⟨place position afterNumber (lexeme c s).1 ++ ts, ?_, ?_⟩
    · rw [tokensFrom, if_neg (by simp [hb])]
      simp only [hp, hts]
      rfl
    · rw [List.map_append, map_shape_place, hus]

theorem lexes_nil_of_isAllBlank : ∀ {s : Text}, isAllBlank s = true → ∀ afterNumber,
    Lexes afterNumber s []
  | [], _, afterNumber => .nil afterNumber
  | c :: s, h, afterNumber => by
    simp only [isAllBlank, List.all_cons, Bool.and_eq_true] at h
    exact .blank h.1 (lexes_nil_of_isAllBlank h.2 afterNumber)

theorem Lexes.blanks_append {afterNumber : Bool} {s : Text} {us : List (Symbol × Bool)}
    (h : Lexes afterNumber s us) : ∀ {bl : Text}, isAllBlank bl = true →
      Lexes afterNumber (bl ++ s) us
  | [], _ => h
  | c :: bl, hbl => by
    simp only [isAllBlank, List.all_cons, Bool.and_eq_true] at hbl
    exact .blank hbl.1 (h.blanks_append hbl.2)

theorem Lexes.of_blanks_append {afterNumber : Bool} {s : Text} {us : List (Symbol × Bool)} :
    ∀ {bl : Text}, Lexes afterNumber (bl ++ s) us → isAllBlank bl = true → Lexes afterNumber s us
  | [], h, _ => h
  | c :: bl, h, hbl => by
    simp only [isAllBlank, List.all_cons, Bool.and_eq_true] at hbl
    cases h with
    | blank _ h => exact h.of_blanks_append hbl.2
    | step _ hb => exact absurd (hb.symm.trans hbl.1) (by decide)

/-- A lexeme before a text that separates. -/
theorem Lexes.step_append {afterNumber : Bool} {c : Char} (hb : isBlank c = false)
    (hc : c ≠ '\\') {s v : Text} (hv : Separates v) {us : List (Symbol × Bool)}
    (hp : repeatsPoint (lexeme c s).1 (s.drop (lexeme c s).2) = false)
    (h : Lexes ((lexeme c s).1.any Symbol.isNumber)
      (s.drop (lexeme c s).2 ++ v) us) :
    Lexes afterNumber (c :: (s ++ v)) (shapesOf afterNumber (lexeme c s).1 ++ us) := by
  rw [← drop_append_of_length_le (length_lexeme_le hc s), ← lexeme_append hv hc s] at h
  rw [← repeatsPoint_append hv, ← drop_append_of_length_le (length_lexeme_le hc s),
    ← lexeme_append hv hc s] at hp
  rw [← lexeme_append hv hc s]
  exact .step _ hb hp h

/-- A text before one that separates has the shapes that it has alone. -/
theorem Lexes.append {afterNumber : Bool} {s : Text} {us : List (Symbol × Bool)}
    (h : Lexes afterNumber s us) (hs : '\\' ∉ s) {v : Text} (hv : Separates v)
    {vs : List (Symbol × Bool)} (hvs : ∀ afterNumber, Lexes afterNumber v vs) :
    Lexes afterNumber (s ++ v) (us ++ vs) := by
  induction h with
  | nil => exact hvs _
  | blank hb _ ih => exact .blank hb (ih fun hm => hs (List.mem_cons_of_mem _ hm))
  | @step c s us afterNumber hb hp _ ih =>
    have hc : c ≠ '\\' := by
      rintro rfl
      exact hs (List.mem_cons_self ..)
    have ih := ih fun hm => hs (List.mem_cons_of_mem _ (List.mem_of_mem_drop hm))
    rw [List.cons_append, List.append_assoc]
    exact step_append hb hc hv hp ih

/-- The first word of a text, and what follows it. -/
theorem exists_word (s : Text) : ∃ w r, s = w ++ r ∧ w = s.takeWhile (fun c => !isBlank c) ∧
    r = s.dropWhile (fun c => !isBlank c) ∧ (∀ c ∈ w, isBlank c = false) ∧
    (∀ c ∈ r.head?, isBlank c = true) :=
  ⟨_, _, List.takeWhile_append_dropWhile.symm, rfl, rfl,
    fun c hc => by simpa using List.all_eq_true.mp List.all_takeWhile c hc,
    dropWhile_not_isBlank_head s⟩

/-- Texts with the same words have the same shapes. -/
theorem Lexes.respaced {afterNumber : Bool} {s : Text} {us : List (Symbol × Bool)}
    (h : Lexes afterNumber s us) (hs : '\\' ∉ s) : ∀ {t : Text}, words s = words t →
      Lexes afterNumber t us := by
  induction h with
  | nil afterNumber =>
    intro t ht
    refine lexes_nil_of_isAllBlank (dropBlanks_eq_nil_iff.mp ?_) afterNumber
    rw [← words_dropBlanks t] at ht
    cases hd : dropBlanks t with
    | nil => rfl
    | cons c r =>
      rw [hd, words_cons (not_isBlank_of_dropBlanks hd)] at ht
      cases ht
  | blank hb _ ih =>
    intro t ht
    rw [words_blank_cons _ hb] at ht
    exact ih (fun hm => hs (List.mem_cons_of_mem _ hm)) ht
  | @step c s us afterNumber hb hp _ ih =>
    intro t ht
    have hc : c ≠ '\\' := by
      rintro rfl
      exact hs (List.mem_cons_self ..)
    have ih := @ih fun hm => hs (List.mem_cons_of_mem _ (List.mem_of_mem_drop hm))
    obtain ⟨bl, hbl, hbt⟩ := exists_blanks_append t
    rw [hbt]
    refine Lexes.blanks_append ?_ hbl
    rw [← words_dropBlanks t, words_cons hb] at ht
    cases hd : dropBlanks t with
    | nil =>
      rw [hd] at ht
      cases ht
    | cons c' t =>
      -- Both texts go on with the same word, and the lexeme ends in it.
      rw [hd, words_cons (not_isBlank_of_dropBlanks hd)] at ht
      obtain ⟨w, r, hs, hw, hr, hnb, hhead⟩ := exists_word s
      obtain ⟨w', r', ht', hw', hr', _, hhead'⟩ := exists_word t
      rw [← hw, ← hw', ← hr, ← hr'] at ht
      obtain ⟨hword, hrest⟩ := List.cons.inj ht
      obtain ⟨rfl, rfl⟩ := List.cons.inj hword
      have hsep : Separates r := fun c hc => .inl (hhead c hc)
      rw [hs, lexeme_append hsep hc,
        drop_append_of_length_le (length_lexeme_le hc w)] at hp ih
      rw [repeatsPoint_append hsep] at hp
      have hwords := words_append_congr
        (fun d hd => hnb d (List.mem_of_mem_drop (i := (lexeme c w).2) hd))
        hhead hhead' hrest
      rw [hs, ht', lexeme_append hsep hc]
      exact step_append hb hc (fun c hc => .inl (hhead' c hc)) hp (ih hwords)

/-! ### Frames -/

/-- The character is a lexeme of its own. -/
def IsSign (c : Char) : Prop :=
  isBlank c = false ∧ isAsciiLetter c = false ∧ isDecimalDigit c = false ∧ c ≠ '.' ∧ c ≠ '\\'

instance (c : Char) : Decidable (IsSign c) :=
  inferInstanceAs (Decidable (_ ∧ _ ∧ _ ∧ _ ∧ _))

theorem Literal.read?_eq_none {c : Char} (hd : isDecimalDigit c = false) (hp : c ≠ '.') (s : Text) :
    read? (c :: s) = none := by
  have hs : spanDigits (c :: s) = ([], c :: s) := by simp [spanDigits, hd]
  unfold read?
  rw [hs]
  split
  · next heq => exact absurd (List.cons.inj (Prod.mk.inj heq).2).1 hp
  · rfl
  · next hne heq => exact absurd (Prod.mk.inj heq).1.symm hne
  · next hne _ heq => exact absurd (Prod.mk.inj heq).1.symm hne

theorem lexeme_sign {c : Char} (h : IsSign c) (s : Text) :
    lexeme c s = ([.ofSign c], 0) := by
  obtain ⟨_, hl, hd, hp, hb⟩ := h
  simp [lexeme, Literal.read?_eq_none hd hp, hl, hb]

theorem repeatsPoint_eq_false {symbols : List Symbol}
    (h : ∀ symbol ∈ symbols, symbol.isNumber = false) (rest : Text) :
    repeatsPoint symbols rest = false := by
  unfold repeatsPoint
  split
  · next literal _ => exact absurd (h (.number literal) (by simp)) (by simp [Symbol.isNumber])
  · rfl

/-- A sign and what follows it. -/
theorem Lexes.sign {afterNumber : Bool} {c : Char} {s : Text} {us : List (Symbol × Bool)}
    (hc : IsSign c) (h : Lexes false s us) :
    Lexes afterNumber (c :: s) ((.ofSign c, false) :: us) := by
  have hn := Symbol.isNumber_ofSign c
  have hl := lexeme_sign hc s
  have hshape : shapesOf afterNumber (lexeme c s).1 = [(.ofSign c, false)] := by
    rw [hl]
    simp [shapesOf, hn]
  refine (congrArg (Lexes afterNumber (c :: s)) ?_).mp
    (@Lexes.step _ _ us afterNumber hc.1 (repeatsPoint_eq_false ?_ _) ?_)
  · rw [hshape]
    rfl
  · rw [hl]
    simpa using hn
  · rw [hl]
    simpa [hn] using h

theorem splitWords_text (w : Word) : splitWords w.text = [.word w] := by
  have hall : ∀ w ∈ Word.all, splitWords w.text = [.word w] := by decide +kernel
  exact hall w (Word.mem_all w)

theorem Word.isAsciiLetter_of_mem_text (w : Word) : ∀ c ∈ w.text, isAsciiLetter c = true := by
  have hall : ∀ w ∈ Word.all, w.text.all (decide <| isAsciiLetter · = true) = true := by decide
  exact forall_mem_of_all (hall w (mem_all w))

theorem Word.not_isDecimalDigit_of_mem_text (w : Word) :
    ∀ c ∈ w.text, isDecimalDigit c = false := by
  have hall : ∀ w ∈ Word.all, w.text.all (decide <| isDecimalDigit · = false) = true := by decide
  exact forall_mem_of_all (hall w (mem_all w))

/-- The lexeme of a word that is not followed by a letter. -/
theorem lexeme_word (w : Word) {s : Text} (hs : s.head?.any isAsciiLetter = false) :
    ∃ c t, w.text = c :: t ∧ isBlank c = false ∧ lexeme c (t ++ s) = ([.word w], t.length) := by
  have hsplit := splitWords_text w
  have hletters := w.isAsciiLetter_of_mem_text
  have hdigits := w.not_isDecimalDigit_of_mem_text
  obtain ⟨c, t, ht⟩ := List.exists_cons_of_ne_nil w.text_ne_nil
  rw [ht] at hsplit hletters hdigits
  have hc := hletters c (List.mem_cons_self ..)
  have hp : c ≠ '.' := by
    rintro rfl
    cases hc
  have hall : ∀ d ∈ t, isAsciiLetter d = true := fun d hd => hletters d (List.mem_cons_of_mem _ hd)
  have htake : (t ++ s).takeWhile isAsciiLetter = t := by
    rw [takeWhile_append_of_head hs]
    simpa using hall
  refine ⟨c, t, ht, isBlank_of_lexeme_char (.inl hc), ?_⟩
  unfold lexeme
  rw [Literal.read?_eq_none (hdigits c (List.mem_cons_self ..)) hp]
  simp only [hc, if_true, htake, hsplit]

/-- A word that is not followed by a letter. -/
theorem Lexes.word {afterNumber : Bool} {s : Text} {us : List (Symbol × Bool)} (w : Word)
    (hs : s.head?.any isAsciiLetter = false) (h : Lexes false s us) :
    Lexes afterNumber (w.text ++ s) ((.word w, false) :: us) := by
  obtain ⟨c, t, ht, hb, hl⟩ := lexeme_word w hs
  have hrest : Lexes ((lexeme c (t ++ s)).1.any Symbol.isNumber)
      ((t ++ s).drop (lexeme c (t ++ s)).2) us := by
    rw [hl, List.drop_left]
    exact h
  have hlexes := Lexes.step afterNumber hb
    (repeatsPoint_eq_false (by rw [hl]; simp [Symbol.isNumber]) _) hrest
  rw [hl] at hlexes
  rw [ht]
  exact hlexes

/-! #### Shapes of parts -/

theorem Lexes.of_sign {afterNumber : Bool} {c : Char} {s : Text} {us : List (Symbol × Bool)}
    (hc : IsSign c) (h : Lexes afterNumber (c :: s) us) :
    ∃ us', us = (.ofSign c, false) :: us' ∧ Lexes false s us' := by
  cases h with
  | blank hb =>
    rw [hc.1] at hb
    cases hb
  | @step _ _ us _ _ _ h =>
    have hn := Symbol.isNumber_ofSign c
    rw [lexeme_sign hc] at h ⊢
    refine ⟨us, by simp [shapesOf, hn], ?_⟩
    simpa [hn] using h

theorem Lexes.of_word {afterNumber : Bool} {s : Text} {us : List (Symbol × Bool)} (w : Word)
    (hs : s.head?.any isAsciiLetter = false) (h : Lexes afterNumber (w.text ++ s) us) :
    ∃ us', us = (.word w, false) :: us' ∧ Lexes false s us' := by
  obtain ⟨c, t, ht, hb, hl⟩ := lexeme_word w hs
  rw [ht] at h
  cases h with
  | blank hb' =>
    rw [hb] at hb'
    cases hb'
  | @step _ _ us _ _ _ h =>
    rw [List.append_eq, hl] at h ⊢
    refine ⟨us, rfl, ?_⟩
    simpa [Symbol.isNumber] using h

/-- Before a text that separates a text has shapes of its own. -/
theorem Lexes.of_append {afterNumber : Bool} {s v : Text} {us : List (Symbol × Bool)}
    (h : Lexes afterNumber (s ++ v) us) (hs : '\\' ∉ s) (hv : Separates v) :
    ∃ us₁ us₂ afterNumber', us = us₁ ++ us₂ ∧ Lexes afterNumber s us₁ ∧
      Lexes afterNumber' v us₂ := by
  generalize hx : s ++ v = x at h
  induction h generalizing s with
  | nil =>
    obtain ⟨rfl, rfl⟩ := List.append_eq_nil_iff.mp hx
    exact ⟨[], [], false, rfl, .nil _, .nil _⟩
  | @blank afterNumber d x us hb h ih =>
    cases s with
    | nil =>
      rw [List.nil_append] at hx
      exact ⟨[], us, afterNumber, rfl, .nil _, hx ▸ .blank hb h⟩
    | cons c s =>
      obtain ⟨rfl, rfl⟩ := List.cons.inj hx
      obtain ⟨us₁, us₂, after, rfl, h₁, h₂⟩ := ih (fun hm => hs (List.mem_cons_of_mem _ hm)) rfl
      exact ⟨us₁, us₂, after, rfl, .blank hb h₁, h₂⟩
  | @step d x us afterNumber hb hp h ih =>
    cases s with
    | nil =>
      rw [List.nil_append] at hx
      exact ⟨[], _, afterNumber, rfl, .nil _, hx ▸ .step _ hb hp h⟩
    | cons c s =>
      obtain ⟨rfl, rfl⟩ := List.cons.inj hx
      obtain ⟨hc, hs⟩ := List.ne_and_not_mem_of_not_mem_cons hs
      have hdrop := drop_append_of_length_le (v := v) (length_lexeme_le hc.symm s)
      have hl : lexeme c (s.append v) = lexeme c s := lexeme_append hv hc.symm s
      rw [hl] at h hp ih
      rw [List.append_eq, hdrop, repeatsPoint_append hv] at hp
      obtain ⟨us₁, us₂, after, rfl, h₁, h₂⟩ :=
        ih (fun hm => hs (List.mem_of_mem_drop hm)) hdrop.symm
      refine ⟨_, us₂, after, ?_, .step _ hb hp h₁, h₂⟩
      rw [hl, List.append_assoc]

/-- The piece stands for these shapes, whatever follows. -/
def PieceLexes (l : Text) (ps : List (Symbol × Bool)) : Prop :=
  ∀ afterNumber s us, Lexes false s us → Lexes afterNumber (l ++ s) (ps ++ us)

/-- A row of signs. -/
theorem pieceLexes_signs : ∀ {l : Text}, l ≠ [] → (∀ c ∈ l, IsSign c) →
    PieceLexes l (l.map fun c => (.ofSign c, false))
  | [], hne, _ => absurd rfl hne
  | [c], _, hl => fun _ _ _ h => .sign (hl c (List.mem_cons_self ..)) h
  | c :: d :: l, _, hl => fun _ s us h =>
    .sign (hl c (List.mem_cons_self ..)) (pieceLexes_signs (List.cons_ne_nil d l)
      (fun e he => hl e (List.mem_cons_of_mem _ he)) false s us h)

/-- A word and a row of signs. -/
theorem pieceLexes_word (w : Word) {l : Text} (hne : l ≠ []) (hl : ∀ c ∈ l, IsSign c) :
    PieceLexes (w.text ++ l) ((.word w, false) :: l.map fun c => (.ofSign c, false)) := by
  intro afterNumber s us h
  rw [List.append_assoc]
  refine .word w ?_ (pieceLexes_signs hne hl false s us h)
  obtain ⟨c, t, rfl⟩ := List.exists_cons_of_ne_nil hne
  simpa using (hl c (List.mem_cons_self ..)).2.1

/-- The shapes of a frame. -/
inductive FrameLexes : List (Text × Text) → Text → List (Symbol × Bool) → Prop where
  | last {r : Text} {us : List (Symbol × Bool)} (h : ∀ afterNumber, Lexes afterNumber r us) :
      FrameLexes [] r us
  | cons {l x r : Text} {fs : List (Text × Text)} {ps xs us : List (Symbol × Bool)}
      (hl : PieceLexes l ps) (hx : Lexes false x xs) (hb : '\\' ∉ x) (h : FrameLexes fs r us) :
      FrameLexes ((l, x) :: fs) r (ps ++ (xs ++ us))

/-- A frame has the shapes of its pieces and blocks. -/
theorem Framed.lexes {fs : List (Text × Text)} {r : Text} {us : List (Symbol × Bool)}
    (h : FrameLexes fs r us) : ∀ {t : Text}, Framed fs r t →
      (∀ l ∈ (pieces fs r).tail, Closer l) → ∀ afterNumber, Lexes afterNumber t us := by
  induction h with
  | last h =>
    rintro _ ⟨bl, hbl, rfl⟩ _ afterNumber
    exact (h afterNumber).blanks_append hbl
  | @cons l x r fs ps xs us hl hx hb _ ih =>
    rintro _ ⟨bl, bl', u, hbl, hbl', hu, rfl⟩ hc afterNumber
    replace hc : ∀ l ∈ pieces fs r, Closer l := hc
    have hrest := ih hu fun l hl => hc l (List.mem_of_mem_tail hl)
    have hblock := hx.append hb (hu.closes hc).separates hrest
    exact (hl afterNumber _ _ (hblock.blanks_append hbl')).blanks_append hbl

end NumericAnswer
