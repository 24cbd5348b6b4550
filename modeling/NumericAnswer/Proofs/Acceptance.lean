/-
# Answers that are accepted

The tokens of a text that the parser accepts are numbers, known words, signs
and brackets that nest. So nothing that a stage leaves behind where it is stuck
is in such a text: its canonical form came about without a hitch.

Key theorems: `Lexes.nest`, `Lexes.notMem_of_run`, `Expr.exists_lexes_of_parseWithin`.
-/
import NumericAnswer.Notation.Canonical
import NumericAnswer.Proofs.Bars
import NumericAnswer.Proofs.Shapes
import NumericAnswer.Proofs.Strict

namespace NumericAnswer

/-! ### Texts whose symbols nest -/

theorem map_fst_shapesOf (afterNumber : Bool) : ∀ symbols : List Symbol,
    (shapesOf afterNumber symbols).map Prod.fst = symbols
  | [] => rfl
  | symbol :: symbols => by
    rw [shapesOf, List.map_cons, map_fst_shapesOf]

/-- A lexeme that starts with a backslash is a command, which is never read. -/
theorem run_lexeme_backslash (n : Nesting) (s : Text) : n.run (lexeme '\\' s).1 = none := by
  have hr : Literal.read? ('\\' :: s) = none :=
    Literal.read?_eq_none (by decide) (by decide) s
  have hl : isAsciiLetter '\\' = false := by decide
  simp only [lexeme, hr, hl, Bool.false_eq_true, if_false, if_true]
  rfl

theorem ne_backslash_of_run {n k : Nesting} {c : Char} {s : Text}
    (h : n.run (lexeme c s).1 = some k) : c ≠ '\\' := by
  rintro rfl
  rw [run_lexeme_backslash] at h
  cases h

theorem run_singleton (n : Nesting) (symbol : Symbol) : n.run [symbol] = n.read symbol := by
  rw [Nesting.run_cons]
  cases n.read symbol <;> rfl

theorem opened_of_run_splitWords {s : Text} : ∀ {n k : Nesting}, n.run (splitWords s) = some k →
    k.opened = n.opened := by
  fun_induction splitWords s with
  | case1 =>
    intro n k h
    obtain rfl := Option.some.inj h
    rfl
  | case2 c cs w hw ih => exact fun {n k} h => ih (n := ⟨n.opened, w.takesArguments⟩) h
  | case3 c cs hw =>
    intro n k h
    cases h

/-- A sign that is read leaves the brackets open that it leaves open. -/
theorem nest_of_read_ofSign {n k : Nesting} {c : Char} (h : n.read (.ofSign c) = some k) :
    nest n.opened [c] = some k.opened := by
  unfold Symbol.ofSign at h
  cases ho : Bracket.ofOpening? c with
  | some b =>
    obtain rfl := Bracket.ofOpening?_eq_some_iff.mp ho
    have hop : Operator.ofSign? b.opening = none := by cases b <;> decide
    rw [hop, ho] at h
    obtain rfl := Option.some.inj h
    rw [nest_opening]
    rfl
  | none =>
    cases hc : Bracket.ofClosing? c with
    | some b =>
      obtain rfl := Bracket.ofClosing?_eq_some_iff.mp hc
      have hop : Operator.ofSign? b.closing = none := by cases b <;> decide
      rw [hop, ho, hc] at h
      rw [nest_closing]
      simp only [Nesting.read] at h
      split at h
      · next hh =>
        obtain rfl := Option.some.inj h
        rw [if_pos hh.1]
        rfl
      · cases h
    | none =>
      rw [nest_cons ⟨ho, hc⟩]
      rw [ho, hc] at h
      have hopened : k.opened = n.opened := by
        cases hop : Operator.ofSign? c with
        | some o =>
          rw [hop] at h
          cases o with
          | caret =>
            simp only [Nesting.read] at h
            split at h
            · cases h
            · obtain rfl := Option.some.inj h
              rfl
          | _ => obtain rfl := Option.some.inj h; rfl
        | none =>
          rw [hop] at h
          simp only at h
          split at h
          · obtain rfl := Option.some.inj h
            rfl
          · split at h <;> cases h
      rw [hopened]
      rfl

theorem noBracket_of_lexeme_char {d : Char}
    (h : isAsciiLetter d = true ∨ isDecimalDigit d = true ∨ d ∈ ['.', '+', '-']) :
    NoBracket d := by
  have hsigns : ∀ d ∈ ['.', '+', '-'], NoBracket d := by
    simp only [List.forall_mem_cons, NoBracket]
    exact ⟨by decide, by decide, by decide, by simp⟩
  rcases h with h | h | h
  · exact noBracket_of_isAlphanumeric (isAlphanumeric_of_isAsciiLetter h)
  · refine noBracket_of_isAlphanumeric ?_
    by_contra ha
    rw [isDecimalDigit_of_isAlphanumeric (by simpa using ha)] at h
    cases h
  · exact hsigns d h

/-- A lexeme that is read opens and closes the brackets that its symbols do. -/
theorem nest_of_run_lexeme {n k : Nesting} {c : Char} {s : Text}
    (h : n.run (lexeme c s).1 = some k) : nest n.opened [c] = some k.opened := by
  have hc := ne_backslash_of_run h
  have hplain : ∀ {d : Char}, isAsciiLetter d = true ∨ isDecimalDigit d = true ∨
      d ∈ ['.', '+', '-'] → nest n.opened [d] = some n.opened := by
    intro d hd
    rw [nest_cons (noBracket_of_lexeme_char hd)]
    rfl
  unfold lexeme at h
  split at h
  · next literal rest hl =>
    obtain rfl := Option.some.inj h
    refine hplain (Literal.mem_text_of_read? hl c ?_)
    rw [(Literal.text_eq_cons hl).1]
    exact List.mem_cons_self ..
  · split at h
    · next hletter =>
      rw [opened_of_run_splitWords h]
      exact hplain (.inl hletter)
    · rw [run_singleton] at h
      exact nest_of_read_ofSign h

section Run

variable {afterNumber : Bool} {s : Text} {us : List (Symbol × Bool)} {n m : Nesting}

/-- The symbols of a lexeme and of what follows it. -/
theorem run_append_lexeme {c : Char} (h : n.run ((shapesOf afterNumber (lexeme c s).1 ++ us).map
    Prod.fst) = some m) :
    ∃ k, n.run (lexeme c s).1 = some k ∧ k.run (us.map Prod.fst) = some m := by
  rw [List.map_append, map_fst_shapesOf, Nesting.run_append] at h
  exact Option.bind_eq_some_iff.mp h

/-- The brackets of the text nest as its symbols do. -/
theorem Lexes.nest (h : Lexes afterNumber s us) : ∀ {n m : Nesting},
    n.run (us.map Prod.fst) = some m → nest n.opened s = some m.opened := by
  induction h with
  | nil =>
    intro n m hm
    obtain rfl := Option.some.inj hm
    rfl
  | blank hb _ ih =>
    intro n m hm
    rw [nest_cons (noBracket_of_isBlank hb)]
    exact ih hm
  | @step c s us afterNumber hb hp _ ih =>
    intro n m hm
    obtain ⟨k, hk, hm⟩ := run_append_lexeme hm
    have hhead := nest_of_run_lexeme hk
    have htake : ∀ d ∈ s.take (lexeme c s).2, NoBracket d := fun d hd =>
      noBracket_of_lexeme_char (mem_take_lexeme (ne_backslash_of_run hk) s d hd)
    have htail := nest_noBracket_append htake k.opened (s.drop (lexeme c s).2)
    rw [List.take_append_drop] at htail
    rw [← List.singleton_append, nest_append, hhead, Option.bind_some, htail]
    exact ih hm

theorem ne_of_lexeme_char {d e : Char} (hd : d ∈ ['\\', '_', '|', '^'])
    (h : isAsciiLetter e = true ∨ isDecimalDigit e = true ∨ e ∈ ['.', '+', '-']) : e ≠ d := by
  rintro rfl
  have hletter : ∀ d ∈ ['\\', '_', '|', '^'], isAsciiLetter d = false := forall_mem_of_all (by decide)
  have hdigit : ∀ d ∈ ['\\', '_', '|', '^'], isDecimalDigit d = false := forall_mem_of_all (by decide)
  have hsign : ∀ d ∈ ['\\', '_', '|', '^'], d ∉ ['.', '+', '-'] := by simp
  rcases h with h | h | h
  · rw [hletter e hd] at h
    cases h
  · rw [hdigit e hd] at h
    cases h
  · exact hsign e hd h

/-- What is read holds no backslash, no sign of a subscript and no bar. -/
theorem Lexes.notMem_of_run (h : Lexes afterNumber s us) : ∀ {n m : Nesting},
    n.run (us.map Prod.fst) = some m → ∀ d ∈ ['\\', '_', '|'], d ∉ s := by
  induction h with
  | nil => exact fun _ _ _ => List.not_mem_nil
  | @blank afterNumber c s us hb _ ih =>
    intro n m hm d hd
    have hblank : ∀ d ∈ ['\\', '_', '|'], isBlank d = false := forall_mem_of_all (by decide)
    have hne : d ≠ c := by
      rintro rfl
      rw [hblank d hd] at hb
      cases hb
    exact List.not_mem_cons_of_ne_of_not_mem hne (ih hm d hd)
  | @step c s us afterNumber hb hp _ ih =>
    intro n m hm d hd
    obtain ⟨k, hk, hm⟩ := run_append_lexeme hm
    have hc := ne_backslash_of_run hk
    have hsub : d ∈ ['\\', '_', '|', '^'] := by
      simp only [List.mem_cons, List.not_mem_nil, or_false] at hd ⊢
      tauto
    have hne : d ≠ c := by
      rintro rfl
      have hsign : ∀ d ∈ ['_', '|'], IsSign d := by
        simp only [List.forall_mem_cons]
        exact ⟨by unfold IsSign; decide, by unfold IsSign; decide, by simp⟩
      have hread : ∀ d ∈ ['_', '|'], n.read (.ofSign d) = none := by
        simp only [List.forall_mem_cons]
        exact ⟨rfl, rfl, by simp⟩
      have hd : d ∈ ['_', '|'] := (List.mem_cons.mp hd).resolve_left hc
      rw [lexeme_sign (hsign d hd), run_singleton, hread d hd] at hk
      cases hk
    have htake : d ∉ s.take (lexeme c s).2 :=
      fun hm => ne_of_lexeme_char hsub (mem_take_lexeme hc s d hm) rfl
    rw [List.mem_cons, not_or]
    refine ⟨hne, fun hmem => ?_⟩
    rw [← List.take_append_drop (lexeme c s).2 s] at hmem
    exact (List.mem_append.mp hmem).elim htake (ih hm d hd)

theorem Lexes.eq_nil (h : Lexes afterNumber s us) : isAllBlank s = true → us = [] := by
  induction h with
  | nil => exact fun _ => rfl
  | blank _ _ ih =>
    intro hs
    simp only [isAllBlank, List.all_cons, Bool.and_eq_true] at hs
    exact ih hs.2
  | step _ hb =>
    intro hs
    simp [isAllBlank, hb] at hs

/-- The last symbol of a text that ends in the sign of a power is that sign. -/
theorem Lexes.exists_caret (h : Lexes afterNumber s us) (hs : '\\' ∉ s)
    (hm : Marked '^' (fun v => isAllBlank v = true) s) :
    ∃ vs, us = vs ++ [(.operator .caret, false)] := by
  induction h with
  | nil => exact absurd hm.mem List.not_mem_nil
  | @blank afterNumber c s us hb _ ih =>
    refine ih (fun h => hs (List.mem_cons_of_mem _ h)) ((marked_cons hm).resolve_left ?_)
    rintro ⟨rfl, _⟩
    exact absurd hb (by decide)
  | @step c s us afterNumber hb hp hrest ih =>
    have hc : c ≠ '\\' := by
      rintro rfl
      exact hs (List.mem_cons_self ..)
    rcases marked_cons hm with ⟨rfl, hblank⟩ | hm
    · have hl := lexeme_sign (c := '^') (by unfold IsSign; decide) s
      rw [hl, List.drop_zero] at hrest
      rw [hl, hrest.eq_nil hblank]
      exact ⟨[], rfl⟩
    · have htake : '^' ∉ s.take (lexeme c s).2 :=
        fun hmem => ne_of_lexeme_char (by simp) (mem_take_lexeme hc s '^' hmem) rfl
      obtain ⟨vs, rfl⟩ := ih (fun h => hs (List.mem_cons_of_mem _ (List.mem_of_mem_drop h)))
        (hm.drop htake)
      exact ⟨shapesOf afterNumber (lexeme c s).1 ++ vs, by simp⟩

end Run

/-! ### Texts whose bars pair -/

section Bars

variable {before : Text} {marks : List Opened} {lastOpened : Bool} {s t : Text}

theorem BarsPair.mem (h : BarsPair before marks lastOpened s t) {c : Char} (hc : c ≠ '|') :
    c ∈ s → c ∈ t := by
  have hcons : ∀ {d : Char} {s t : Text}, (c ∈ s → c ∈ t) → c ∈ d :: s → c ∈ d :: t :=
    fun ih h => (List.mem_cons.mp h).elim (fun he => he ▸ List.mem_cons_self ..)
      fun h => List.mem_cons_of_mem _ (ih h)
  induction h with
  | nil => exact id
  | opening _ _ ih => exact hcons ih
  | closing _ _ ih => exact hcons ih
  | opens _ _ ih =>
    exact fun h => List.mem_append_right _ (ih ((List.mem_cons.mp h).resolve_left hc))
  | closes _ _ ih =>
    exact fun h => List.mem_cons_of_mem _ (ih ((List.mem_cons.mp h).resolve_left hc))
  | other _ _ _ ih => exact hcons ih

theorem BarsPair.eq_of_isAllBlank (h : BarsPair before marks lastOpened s t) :
    isAllBlank s = true → t = s := by
  have hb : ∀ {c : Char} {s : Text}, isAllBlank (c :: s) = true →
      isBlank c = true ∧ isAllBlank s = true := by
    intro c s h
    simpa [isAllBlank] using h
  have hbar : ∀ s, isAllBlank ('|' :: s) = true → False := by
    intro s h
    exact absurd (hb h).1 (by decide)
  induction h with
  | nil => exact fun _ => rfl
  | opening _ _ ih => exact fun h => congrArg _ (ih (hb h).2)
  | closing _ _ ih => exact fun h => congrArg _ (ih (hb h).2)
  | opens => exact fun h => (hbar _ h).elim
  | closes => exact fun h => (hbar _ h).elim
  | other _ _ _ ih => exact fun h => congrArg _ (ih (hb h).2)

/-- What holds no bar stands at the front of the expanded text. -/
theorem BarsPair.eq_append : ∀ {l before s t : Text} {marks : List Opened} {last : Bool},
    '|' ∉ l → BarsPair before marks last (l ++ s) t → ∃ t', t = l ++ t'
  | [], _, _, t, _, _, _, _ => ⟨t, rfl⟩
  | c :: l, _, _, _, _, _, hp, h => by
    obtain ⟨hc, hl⟩ := List.ne_and_not_mem_of_not_mem_cons hp
    cases h with
    | opening b h =>
      obtain ⟨t', rfl⟩ := h.eq_append hl
      exact ⟨t', rfl⟩
    | closing b h =>
      obtain ⟨t', rfl⟩ := h.eq_append hl
      exact ⟨t', rfl⟩
    | opens => exact absurd rfl hc
    | closes => exact absurd rfl hc
    | other _ _ h =>
      obtain ⟨t', rfl⟩ := h.eq_append hl
      exact ⟨t', rfl⟩

/-- The sign of a power at the end of a text is there when its bars are expanded. -/
theorem BarsPair.marked (h : BarsPair before marks lastOpened s t) :
    Marked '^' (fun v => isAllBlank v = true) s → Marked '^' (fun v => isAllBlank v = true) t := by
  have hother : ∀ {d : Char} {s : Text}, d ≠ '^' →
      Marked '^' (fun v => isAllBlank v = true) (d :: s) →
      Marked '^' (fun v => isAllBlank v = true) s :=
    fun hd hm => (marked_cons hm).resolve_left fun he => hd he.1
  induction h with
  | nil => exact id
  | opening b _ ih => exact fun hm => (ih (hother (by cases b <;> decide) hm)).cons _
  | closing b _ ih => exact fun hm => (ih (hother (by cases b <;> decide) hm)).cons _
  | opens _ _ ih => exact fun hm => (ih (hother (by decide) hm)).append_left _
  | closes _ _ ih => exact fun hm => (ih (hother (by decide) hm)).cons _
  | @other before marks lastOpened c s t _ _ h ih =>
    intro hm
    rcases marked_cons hm with ⟨rfl, hs⟩ | hm
    · rw [h.eq_of_isAllBlank hs]
      exact ⟨[], s, rfl, hs⟩
    · exact (ih hm).cons c

end Bars

/-! ### Answers -/

theorem exists_of_isOk {ε α : Type} {r : Except ε α} (h : r.isOk = true) : ∃ x, r = .ok x := by
  cases r with
  | error f => cases h
  | ok x => exact ⟨x, rfl⟩

/-- What the parser accepts has tokens that nest. -/
theorem Expr.exists_lexes_of_parseWithin {calls : Nat} {text : Text} {x : Expr}
    (h : parseWithin calls text = .ok x) : ∃ ts, Lexes false text (ts.map Token.shape) ∧
      Nesting.run ⟨[], false⟩ ((ts.map Token.shape).map Prod.fst) = some ⟨[], false⟩ ∧
      sum text.length calls ts = .ok (x, []) := by
  obtain ⟨ts, hts, h⟩ := exists_of_bind_ok h
  obtain ⟨hoperand, hsum⟩ := operand_of_ofTokens h
  refine ⟨ts, .of_tokensFrom hts, ?_, hsum⟩
  rw [List.map_map]
  exact hoperand.2 [] false

/-- The text is rewritten without a hitch, its bars pair, and the tokens that
come of it are read as the expression. -/
def IsBlock (calls : Nat) (s : Text) (x : Expr) : Prop :=
  ∃ t u ts stop, Chain true Canonical.stages s t ∧ BarsPair [] [] true t u ∧ '\\' ∉ u ∧
    Lexes false u (ts.map Token.shape) ∧ Expr.sum stop calls ts = .ok (x, [])

/-- An answer that is accepted, with well-nested brackets also when it is
simplified, is a block. -/
theorem isBlock_of_parseWithin {calls : Nat} {answer : Text} {x : Expr}
    (hn : Nested (unwrapped answer)) (hs : Nested (Canonical.simplified answer))
    (h : Expr.parseWithin calls (canonical answer) = .ok x) :
    IsBlock calls (unwrapped answer) x := by
  obtain ⟨u, t, hpasses, hwords, hcanonical⟩ := exists_chain_of_canonical answer
  obtain ⟨ts, hlexes, hrun, hsum⟩ := Expr.exists_lexes_of_parseWithin h
  rw [hcanonical] at hlexes
  have hlexes := hlexes.respaced (hlexes.notMem_of_run hrun '\\' (by simp)) (words_collapse _)
  have hno := hlexes.notMem_of_run hrun
  have hbars := BarsPair.of_expandBars (hno '|' (by simp)) (hlexes.nest hrun)
  have hnested : Nested t := hbars.nest
  have hb : '\\' ∉ t := fun hm => hno '\\' (by simp) (hbars.mem (by decide) hm)
  have hsub : '_' ∉ t := fun hm => hno '_' (by simp) (hbars.mem (by decide) hm)
  have hc : ¬Marked '^' (fun v => isAllBlank v = true) t := by
    intro hm
    obtain ⟨vs, hvs⟩ := hlexes.exists_caret (hno '\\' (by simp)) (hbars.marked hm)
    rw [hvs, List.map_append, Nesting.run_append] at hrun
    obtain ⟨k, _, hk⟩ := Option.bind_eq_some_iff.mp hrun
    have hk : k.read (.operator .caret) = some ⟨[], false⟩ := by
      rw [← run_singleton]
      exact hk
    simp only [Nesting.read] at hk
    split at hk
    · cases hk
    · simp at hk
  have hchain := Canonical.strict_stages hn hs hnested (Canonical.chain_simplified answer) hpasses
    hwords hb hsub hc
  exact ⟨t, _, ts, _, hchain, hbars, hno '\\' (by simp), hlexes, hsum⟩

end NumericAnswer
