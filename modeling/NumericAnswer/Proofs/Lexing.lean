/-
# Where tokens stand

The lexer reads one lexeme after the other and loses nothing but blanks: the
text of each token stands at the token's position. It fails in one way only, at
a number with a point that another point follows.

Key definitions: `lexemeStarts`, `IsTokenStart`.
Key theorems: `text_lexeme`, `standsIn_of_mem_tokensFrom`,
`repeatedPoint_of_tokens_error`.
-/
import NumericAnswer.Notation.Group
import NumericAnswer.Token

namespace NumericAnswer

/-! ### The text of a lexeme -/

theorem Literal.text_ne_nil {s rest : Text} {l : Literal} (h : read? s = some (l, rest)) :
    l.text ≠ [] := by
  unfold read? at h
  split at h
  · split at h
    · simp at h
    · obtain ⟨rfl, _⟩ := by simpa using h
      simp [text]
  · simp at h
  · obtain ⟨rfl, _⟩ := by simpa using h
    simp [text]
  · next hne _ _ =>
    obtain ⟨rfl, _⟩ := by simpa using h
    intro ht
    exact hne (List.append_eq_nil_iff.mp ht).1

theorem Literal.text_eq_cons {c : Char} {s rest : Text} {l : Literal}
    (h : read? (c :: s) = some (l, rest)) :
    l.text = c :: s.take (l.text.length - 1) ∧ rest = s.drop (l.text.length - 1) := by
  have hs := text_append_of_read? h
  cases ht : l.text with
  | nil => exact absurd ht (text_ne_nil h)
  | cons d t =>
    rw [ht, List.cons_append, List.cons.injEq] at hs
    obtain ⟨rfl, rfl⟩ := hs
    simp

theorem commandBody_append (s : Text) : commandBody s ++ s.drop (commandBody s).length = s := by
  unfold commandBody
  split
  · cases s <;> simp
  · have h := List.takeWhile_append_dropWhile (p := isAsciiLetter) (l := s)
    have hd := congrArg (List.drop (s.takeWhile isAsciiLetter).length) h
    rw [List.drop_left] at hd
    rw [← hd]
    exact h

theorem take_length_of_append {s t : Text} (h : t ++ s.drop t.length = s) : s.take t.length = t := by
  have := congrArg (List.take t.length) h
  rwa [List.take_left, eq_comm] at this

theorem Operator.sign_of_ofSign? {c : Char} {o : Operator} (h : ofSign? c = some o) :
    o.sign = c := by
  simpa using List.find?_some h

theorem Symbol.text_ofSign (c : Char) : (ofSign c).text = [c] := by
  unfold ofSign
  split
  · next h => simp [text, Operator.sign_of_ofSign? h]
  · next h => simp [text, Bracket.ofOpening?_eq_some_iff.mp h]
  · next h => simp [text, Bracket.ofClosing?_eq_some_iff.mp h]
  · split
    · next h => simp [text, h]
    · split
      · next h => simp [text, h]
      · rfl

/-- The symbols of a lexeme are the text that it takes up. -/
theorem text_lexeme (c : Char) (s : Text) :
    (lexeme c s).1.flatMap Symbol.text = c :: s.take (lexeme c s).2 := by
  unfold lexeme
  split
  · next literal rest h =>
    simpa [Symbol.text] using (Literal.text_eq_cons h).1
  · split
    · have h := List.takeWhile_append_dropWhile (p := isAsciiLetter) (l := s)
      have hd := congrArg (List.drop (s.takeWhile isAsciiLetter).length) h
      rw [List.drop_left] at hd
      simp only [flatMap_text_splitWords]
      rw [take_length_of_append (by rw [← hd]; exact h)]
    · split
      · simp [Symbol.text, take_length_of_append (commandBody_append s)]
      · simp [Symbol.text_ofSign]

theorem Symbol.text_ne_nil_of_mem_splitWords {s : Text} {symbol : Symbol}
    (h : symbol ∈ splitWords s) : symbol.text ≠ [] := by
  fun_induction splitWords s with
  | case1 => simp at h
  | case2 c cs w hw ih =>
    rcases List.mem_cons.mp h with rfl | h
    · exact w.text_ne_nil
    · exact ih h
  | case3 c cs hw =>
    obtain rfl := List.mem_singleton.mp h
    simp [text]

/-- No symbol of a lexeme is without text. -/
theorem Symbol.text_ne_nil_of_mem_lexeme {c : Char} {s : Text} {symbol : Symbol}
    (h : symbol ∈ (lexeme c s).1) : symbol.text ≠ [] := by
  unfold lexeme at h
  split at h
  · next literal rest hr =>
    obtain rfl := List.mem_singleton.mp h
    exact Literal.text_ne_nil hr
  · split at h
    · exact text_ne_nil_of_mem_splitWords h
    · split at h
      · obtain rfl := List.mem_singleton.mp h
        simp [text]
      · obtain rfl := List.mem_singleton.mp h
        simp [text_ofSign]

/-! ### The places of tokens -/

/-- The text of a token stands at its place in a text that starts at
`position`. -/
def Token.StandsIn (token : Token) (position : Nat) (s : Text) : Prop :=
  position ≤ token.position ∧ token.symbol.text ≠ [] ∧
    token.symbol.text <+: s.drop (token.position - position)

/-- Where a token stands does not change with more text in front. -/
theorem Token.StandsIn.of_drop {token : Token} {position : Nat} {s : Text} (n : Nat)
    (h : token.StandsIn (position + n) (s.drop n)) : token.StandsIn position s := by
  obtain ⟨hp, hn, ht⟩ := h
  refine ⟨by omega, hn, ?_⟩
  rw [List.drop_drop] at ht
  rwa [show n + (token.position - (position + n)) = token.position - position by omega] at ht

theorem Token.StandsIn.position_lt {token : Token} {position : Nat} {s : Text}
    (h : token.StandsIn position s) : token.position < position + s.length := by
  obtain ⟨hp, hn, ht⟩ := h
  have hl := ht.length_le
  have := List.length_pos_iff.mpr hn
  rw [List.length_drop] at hl
  omega

theorem standsIn_of_mem_place {token : Token} : ∀ {symbols : List Symbol} {position : Nat}
    {afterNumber : Bool} {s : Text}, (∀ symbol ∈ symbols, symbol.text ≠ []) →
    symbols.flatMap Symbol.text <+: s → token ∈ place position afterNumber symbols →
    token.StandsIn position s
  | [], _, _, _, _, _, h => by cases h
  | symbol :: symbols, position, afterNumber, s, hne, hs, h => by
    rw [List.flatMap_cons] at hs
    rcases List.mem_cons.mp h with rfl | h
    · refine ⟨Nat.le_refl _, hne symbol (List.mem_cons_self ..), ?_⟩
      rw [Nat.sub_self, List.drop_zero]
      exact (List.prefix_append _ _).trans hs
    · obtain ⟨t, rfl⟩ := hs
      refine .of_drop symbol.text.length ?_
      rw [List.append_assoc, List.drop_left]
      exact standsIn_of_mem_place (fun x hx => hne x (List.mem_cons_of_mem _ hx))
        (List.prefix_append _ _) h

/-- The text of each token stands at its position. -/
theorem standsIn_of_mem_tokensFrom {token : Token} {position : Nat} {afterNumber : Bool} {s : Text}
    {ts : List Token} (h : tokensFrom position afterNumber s = .ok ts) (ht : token ∈ ts) :
    token.StandsIn position s := by
  fun_induction tokensFrom position afterNumber s generalizing ts with
  | case1 =>
    obtain rfl := Except.ok.inj h
    cases ht
  | case2 position afterNumber c s hb ih =>
    exact .of_drop 1 (ih h ht)
  | case3 => cases h
  | case4 position afterNumber c s hb symbols length hl hp ih =>
    obtain ⟨later, hlater, h⟩ := exists_of_bind_ok h
    obtain rfl := Except.ok.inj h
    rcases List.mem_append.mp ht with ht | ht
    · refine standsIn_of_mem_place ?_ ?_ ht
      · intro symbol hs
        refine Symbol.text_ne_nil_of_mem_lexeme (c := c) (s := s) ?_
        rw [hl]
        exact hs
      · have htext := text_lexeme c s
        rw [hl] at htext
        rw [htext]
        exact ⟨s.drop length, by simp⟩
    · refine .of_drop (1 + length) ?_
      rw [show (c :: s).drop (1 + length) = s.drop length by simp [Nat.add_comm 1], ← Nat.add_assoc]
      exact ih hlater ht

/-- A token of the text starts at the position. -/
def IsTokenStart (s : Text) (position : Nat) : Prop :=
  ∃ ts, tokens s = .ok ts ∧ ∃ token ∈ ts, token.position = position

theorem IsTokenStart.lt_length {s : Text} {position : Nat} (h : IsTokenStart s position) :
    position < s.length := by
  obtain ⟨ts, hts, token, ht, rfl⟩ := h
  simpa using (standsIn_of_mem_tokensFrom hts ht).position_lt

/-! ### Numbers with two points -/

/-- The positions where the lexer starts to read a lexeme. -/
def lexemeStartsFrom (position : Nat) : Text → List Nat
  | [] => []
  | c :: s =>
    if isBlank c then lexemeStartsFrom (position + 1) s
    else
      position :: lexemeStartsFrom (position + 1 + (lexeme c s).2) (s.drop (lexeme c s).2)
termination_by s => s.length
decreasing_by all_goals simp only [List.length_cons, List.length_drop]; omega

def lexemeStarts (s : Text) : List Nat :=
  lexemeStartsFrom 0 s

/-- A number starts at the position, has a point, and another point follows it. -/
def IsRepeatedPoint (s : Text) (position : Nat) : Prop :=
  position ∈ lexemeStarts s ∧
    ∃ literal rest, Literal.read? (s.drop position) = some (literal, '.' :: rest) ∧
      literal.point = true

theorem Symbol.isNumber_of_mem_splitWords {s : Text} {symbol : Symbol}
    (h : symbol ∈ splitWords s) : symbol.isNumber = false := by
  fun_induction splitWords s with
  | case1 => cases h
  | case2 c cs w hw ih =>
    rcases List.mem_cons.mp h with rfl | h
    · rfl
    · exact ih h
  | case3 c cs hw =>
    obtain rfl := List.mem_singleton.mp h
    rfl

theorem Symbol.isNumber_ofSign (c : Char) : (ofSign c).isNumber = false := by
  unfold ofSign
  split <;> (try rfl)
  split <;> (try rfl)
  split <;> rfl

/-- What the lexer complains of is a number with a point that another point
follows. -/
theorem literal_of_repeatsPoint {c : Char} {s : Text}
    (h : repeatsPoint (lexeme c s).1 (s.drop (lexeme c s).2) = true) :
    ∃ literal rest, Literal.read? (c :: s) = some (literal, '.' :: rest) ∧
      literal.point = true := by
  unfold lexeme at h
  split at h
  · next literal rest hr =>
    have hrest := (Literal.text_eq_cons hr).2
    simp only at h
    rw [← hrest] at h
    unfold repeatsPoint at h
    split at h
    · next literal' rest' hl =>
      obtain rfl := by simpa using hl
      exact ⟨literal, rest', hr, h⟩
    · cases h
  · have hno : ∀ symbols rest, (∀ symbol ∈ symbols, symbol.isNumber = false) →
        repeatsPoint symbols rest = false := by
      intro symbols rest hs
      unfold repeatsPoint
      split
      · next literal _ => exact absurd (hs (.number literal) (by simp)) (by simp [Symbol.isNumber])
      · rfl
    exfalso
    split at h
    · rw [hno _ _ fun symbol => Symbol.isNumber_of_mem_splitWords] at h
      cases h
    · split at h
      · cases h
      · rw [hno _ _ (by simp [Symbol.isNumber_ofSign])] at h
        cases h

theorem repeatedPoint_of_tokensFrom_error {position : Nat} {afterNumber : Bool} {s : Text}
    {f : ReadFault} (h : tokensFrom position afterNumber s = .error f) :
    ∃ n, f = .repeatedPoint (position + n) ∧ position + n ∈ lexemeStartsFrom position s ∧
      ∃ literal rest, Literal.read? (s.drop n) = some (literal, '.' :: rest) ∧
        literal.point = true := by
  fun_induction tokensFrom position afterNumber s with
  | case1 => cases h
  | case2 position afterNumber c s hb ih =>
    obtain ⟨n, hf, hm, hl⟩ := ih h
    refine ⟨n + 1, ?_, ?_, hl⟩
    · rw [hf, Nat.add_assoc, Nat.add_comm 1]
    · rw [lexemeStartsFrom, if_pos hb]
      rwa [Nat.add_assoc, Nat.add_comm 1] at hm
  | case3 position afterNumber c s hb symbols length hl hp =>
    obtain rfl := Except.error.inj h
    refine ⟨0, rfl, ?_, ?_⟩
    · rw [lexemeStartsFrom, if_neg hb]
      exact List.mem_cons_self ..
    · refine literal_of_repeatsPoint ?_
      rw [hl]
      exact hp
  | case4 position afterNumber c s hb symbols length hl hp ih =>
    cases hr : tokensFrom (position + 1 + length) (symbols.any Symbol.isNumber) (s.drop length) with
    | ok later => simp [hr, bind, Except.bind] at h
    | error g =>
      have hgf : g = f := by simpa [hr, bind, Except.bind] using h
      obtain ⟨n, hf, hm, hl'⟩ := ih (hgf ▸ hr)
      have hn : position + 1 + length + n = position + (length + n + 1) := by omega
      rw [hn] at hf hm
      refine ⟨length + n + 1, hf, ?_, ?_⟩
      · rw [lexemeStartsFrom, if_neg hb, hl]
        exact List.mem_cons_of_mem _ hm
      · rw [List.drop_drop] at hl'
        exact hl'

/-- The lexer fails at a number with two points only. -/
theorem repeatedPoint_of_tokens_error {s : Text} {f : ReadFault} (h : tokens s = .error f) :
    ∃ position, f = .repeatedPoint position ∧ position < s.length ∧ IsRepeatedPoint s position := by
  obtain ⟨n, hf, hm, literal, rest, hl, hp⟩ := repeatedPoint_of_tokensFrom_error h
  rw [Nat.zero_add] at hf hm
  refine ⟨n, hf, ?_, hm, literal, rest, hl, hp⟩
  have hlen := congrArg List.length (Literal.text_append_of_read? hl)
  simp only [List.length_append, List.length_cons, List.length_drop] at hlen
  omega

end NumericAnswer
