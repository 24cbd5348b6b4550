/-
# The canonical form is stable

The expression of an answer that has a value is written with digits, letters,
a few signs and single spaces. No stage looks at any of these, so the
expression is its own canonical form, and as an answer it has the same value.

Key definitions: `plainSigns`, `isPlain`, `SingleSpaced`.
Key theorems: `Lexes.plain_of_run`, `canonical_eq_self`, `Outcome.stable_of_success`.
-/
import NumericAnswer.Outcome
import NumericAnswer.Proofs.Acceptance
import NumericAnswer.Proofs.Piece

namespace NumericAnswer

/-! ### The characters of an expression -/

/-- The points, operators, brackets and commas of expressions. -/
def plainSigns : List Char :=
  ['.', '+', '-', '*', '/', '^', '!', '(', ')', '[', ']', '\x7b', '\x7d', ',']

/-- A character of an expression that has been read, other than the space: a
decimal digit, one of the 52 letters, or a sign. -/
def isPlain (c : Char) : Bool :=
  isDecimalDigit c || isAsciiLetter c || plainSigns.contains c

theorem isPlain_of_mem_plainSigns {c : Char} (h : c ∈ plainSigns) : isPlain c = true := by
  simp [isPlain, h]

theorem isPlain_of_lexeme_char {c : Char}
    (h : isAsciiLetter c = true ∨ isDecimalDigit c = true ∨ c ∈ ['.', '+', '-']) :
    isPlain c = true := by
  rcases h with h | h | h
  · simp [isPlain, h]
  · simp [isPlain, h]
  · refine isPlain_of_mem_plainSigns ?_
    simp only [List.mem_cons, List.not_mem_nil, or_false] at h
    rcases h with rfl | rfl | rfl <;> decide

/-- A sign that is read as part of an expression is one of the signs of
expressions. -/
theorem isPlain_of_read_ofSign {n k : Nesting} {c : Char} (h : n.read (.ofSign c) = some k) :
    isPlain c = true := by
  have hoperator : ∀ o : Operator, o.sign ∈ plainSigns := by intro o; cases o <;> decide
  have hbracket : ∀ b : Bracket, b.opening ∈ plainSigns ∧ b.closing ∈ plainSigns := by
    intro b; cases b <;> decide
  refine isPlain_of_mem_plainSigns ?_
  unfold Symbol.ofSign at h
  split at h
  · next ho => exact Operator.sign_of_ofSign? ho ▸ hoperator _
  · next hb => exact Bracket.ofOpening?_eq_some_iff.mp hb ▸ (hbracket _).1
  · next hb => exact Bracket.ofClosing?_eq_some_iff.mp hb ▸ (hbracket _).2
  · split at h
    · next hc => simp [hc, plainSigns]
    · split at h <;> cases h

/-- The first character of a lexeme that is read. -/
theorem isPlain_of_run_lexeme {n k : Nesting} {c : Char} {s : Text}
    (h : n.run (lexeme c s).1 = some k) : isPlain c = true := by
  have hc := ne_backslash_of_run h
  unfold lexeme at h
  split at h
  · next literal rest hl =>
    refine isPlain_of_lexeme_char (Literal.mem_text_of_read? hl c ?_)
    rw [(Literal.text_eq_cons hl).1]
    exact List.mem_cons_self ..
  · split at h
    · next hletter => exact isPlain_of_lexeme_char (.inl hletter)
    · rw [run_singleton] at h
      exact isPlain_of_read_ofSign h

/-- A text whose symbols are read holds plain characters and blanks only. -/
theorem Lexes.plain_of_run {afterNumber : Bool} {s : Text} {us : List (Symbol × Bool)}
    (h : Lexes afterNumber s us) : ∀ {n m : Nesting}, n.run (us.map Prod.fst) = some m →
      ∀ c ∈ s, isBlank c = true ∨ isPlain c = true := by
  induction h with
  | nil => exact fun _ _ hc => absurd hc List.not_mem_nil
  | blank hb _ ih =>
    intro n m hm d hd
    rcases List.mem_cons.mp hd with rfl | hd
    · exact .inl hb
    · exact ih hm d hd
  | @step c s us afterNumber _ _ _ ih =>
    intro n m hm d hd
    obtain ⟨k, hk, hm⟩ := run_append_lexeme hm
    rcases List.mem_cons.mp hd with rfl | hd
    · exact .inr (isPlain_of_run_lexeme hk)
    · rw [← List.take_append_drop (lexeme c s).2 s] at hd
      rcases List.mem_append.mp hd with hd | hd
      · exact .inr (isPlain_of_lexeme_char (mem_take_lexeme (ne_backslash_of_run hk) s d hd))
      · exact ih hm d hd

/-! ### Single spaces -/

/-- Every space of the text stands between two characters that are none. -/
def SingleSpaced (s : Text) : Prop :=
  ∀ u v, s = u ++ ' ' :: v →
    (∃ c, u.getLast? = some c ∧ c ≠ ' ') ∧ ∃ c, v.head? = some c ∧ c ≠ ' '

theorem ne_space_of_not_isBlank {c : Char} (h : isBlank c = false) : c ≠ ' ' := by
  rintro rfl
  rw [isBlank_space] at h
  cases h

/-- Words joined by spaces begin with a character that is no space. -/
theorem exists_head_intercalate {w : Text} {ws : List Text} (h : w ≠ [] ∧ ∀ c ∈ w, isBlank c = false) :
    ∃ c, ([' '].intercalate (w :: ws)).head? = some c ∧ c ≠ ' ' := by
  obtain ⟨c, w, rfl⟩ := List.exists_cons_of_ne_nil h.1
  refine ⟨c, ?_, ne_space_of_not_isBlank (h.2 c (List.mem_cons_self ..))⟩
  cases ws <;> simp [List.intercalate_cons_cons]

theorem singleSpaced_intercalate : ∀ {ws : List Text},
    (∀ w ∈ ws, w ≠ [] ∧ ∀ c ∈ w, isBlank c = false) → SingleSpaced ([' '].intercalate ws)
  | [], _ => fun u v h => by simp at h
  | [w], h => fun u v hs => by
    have hmem : ' ' ∈ w := by
      rw [List.intercalate_singleton] at hs
      simp [hs]
    exact absurd rfl (ne_space_of_not_isBlank ((h w (List.mem_cons_self ..)).2 ' ' hmem))
  | w :: w' :: ws, h => by
    intro u v hs
    have hw := h w (List.mem_cons_self ..)
    have ih := singleSpaced_intercalate fun x hx => h x (List.mem_cons_of_mem _ hx)
    have hhead := @exists_head_intercalate w' ws (h w' (by simp))
    rw [List.intercalate_cons_cons, List.append_assoc, List.singleton_append] at hs
    rcases List.append_eq_append_iff.mp hs with ⟨a, rfl, ha⟩ | ⟨a, rfl, ha⟩
    · cases a with
      | nil =>
        obtain ⟨_, rfl⟩ := List.cons.inj ha
        refine ⟨?_, hhead⟩
        rw [List.append_nil, List.getLast?_eq_some_getLast hw.1]
        exact ⟨_, rfl, ne_space_of_not_isBlank (hw.2 _ (List.getLast_mem hw.1))⟩
      | cons d a =>
        obtain ⟨hlast, hnext⟩ := ih a v (List.cons.inj ha).2
        obtain ⟨c, hc, hne⟩ := hlast
        refine ⟨⟨c, ?_, hne⟩, hnext⟩
        have hane : a ≠ [] := by
          rintro rfl
          cases hc
        rw [List.getLast?_append_of_ne_nil _ (List.cons_ne_nil d a), List.getLast?_cons, hc]
        rfl
    · cases a with
      | nil =>
        obtain ⟨_, rfl⟩ := List.cons.inj ha
        refine ⟨?_, hhead⟩
        rw [List.append_nil] at hw
        rw [List.getLast?_eq_some_getLast hw.1]
        exact ⟨_, rfl, ne_space_of_not_isBlank (hw.2 _ (List.getLast_mem hw.1))⟩
      | cons d a =>
        obtain ⟨rfl, _⟩ := List.cons.inj ha
        exact absurd rfl (ne_space_of_not_isBlank (hw.2 ' ' (by simp)))

theorem singleSpaced_collapse (s : Text) : SingleSpaced (collapse s) :=
  singleSpaced_intercalate (isWord_of_mem_words fun _ hd => absurd hd List.not_mem_nil)

theorem collapse_collapse (s : Text) : collapse (collapse s) = collapse s := by
  rw [collapse, words_collapse, collapse]

theorem mem_intercalate {c : Char} : ∀ {ws : List Text}, c ∈ [' '].intercalate ws →
    c = ' ' ∨ ∃ w ∈ ws, c ∈ w
  | [w], h => .inr ⟨w, List.mem_cons_self .., by rwa [List.intercalate_singleton] at h⟩
  | w :: w' :: ws, h => by
    rw [List.intercalate_cons_cons, List.append_assoc, List.singleton_append] at h
    rcases List.mem_append.mp h with h | h
    · exact .inr ⟨w, List.mem_cons_self .., h⟩
    · rcases List.mem_cons.mp h with h | h
      · exact .inl h
      · exact (mem_intercalate h).imp id fun ⟨x, hx, hc⟩ => ⟨x, List.mem_cons_of_mem _ hx, hc⟩

/-- The blanks of a collapsed text are spaces. -/
theorem eq_space_of_mem_collapse {s : Text} {c : Char} (h : c ∈ collapse s)
    (hb : isBlank c = true) : c = ' ' := by
  refine (mem_intercalate h).resolve_right ?_
  rintro ⟨w, hw, hc⟩
  have := (isWord_of_mem_words (fun _ hd => absurd hd List.not_mem_nil) w hw).2 c hc
  rw [hb] at this
  cases this

theorem strip_eq_self {s : Text} (hhead : s.head?.any isBlank = false)
    (hlast : s.getLast?.any isBlank = false) : strip s = s := by
  have hdrop : ∀ t : Text, t.head?.any isBlank = false → dropBlanks t = t := by
    intro t ht
    cases t with
    | nil => rfl
    | cons c t => exact dropBlanks_cons_of_not_isBlank (by simpa using ht) t
  rw [strip, hdrop s hhead, hdrop s.reverse (by rwa [List.head?_reverse]), List.reverse_reverse]

theorem strip_collapse (s : Text) : strip (collapse s) = collapse s := by
  have hblank : ∀ {c : Char}, c ∈ collapse s → c ≠ ' ' → isBlank c = false := by
    intro c hc hne
    by_contra hb
    exact hne (eq_space_of_mem_collapse hc (by simpa using hb))
  have hspaced := singleSpaced_collapse s
  refine strip_eq_self ?_ ?_
  · cases hc : (collapse s).head? with
    | none => rfl
    | some c =>
      obtain ⟨v, hv⟩ := List.head?_eq_some_iff.mp hc
      refine hblank (List.mem_of_mem_head? hc) ?_
      rintro rfl
      obtain ⟨⟨_, hnone, _⟩, _⟩ := hspaced [] v hv
      cases hnone
  · cases hc : (collapse s).getLast? with
    | none => rfl
    | some c =>
      obtain ⟨u, hu⟩ := List.getLast?_eq_some_iff.mp hc
      refine hblank (List.mem_of_getLast? hc) ?_
      rintro rfl
      obtain ⟨_, _, hnone, _⟩ := hspaced u [] hu
      cases hnone

/-! ### What no stage looks at -/

theorem notMem_triggers_of_isPlain {c : Char} (h : isPlain c = true) : c ∉ triggers := by
  have hall : ∀ c ∈ triggers, isPlain c = false := forall_mem_of_all (by decide)
  intro hc
  rw [hall c hc] at h
  cases h

/-- A text that every stage leaves as it is. -/
theorem chain_of_rewrites {strict : Bool} {s : Text} : ∀ {stages : List Stage},
    (∀ stage ∈ stages, Rewrites strict stage none s s) → Chain strict stages s s
  | [], _ => rfl
  | stage :: _, h => ⟨s, h stage (List.mem_cons_self ..),
      chain_of_rewrites fun stage hs => h stage (List.mem_cons_of_mem _ hs)⟩

/-- Stages leave a text as it is in which they look at no character. -/
theorem chain_refl {strict : Bool} {s : Text} (hs : ∀ c ∈ s, c ∉ triggers) {stages : List Stage}
    (hl : ∀ stage ∈ stages, stage.Local) : Chain strict stages s s := by
  refine chain_of_rewrites fun stage hstage => ?_
  have hr : Rewrites strict stage none (s ++ []) (s ++ []) :=
    rewrites_plain_append (hl stage hstage) hs (.nil (s.getLast?.or none))
  rwa [List.append_nil] at hr

theorem pairs_foldl_read {s : Text} (hs : '|' ∉ s) : ∀ state : BarState,
    (s.foldl BarState.read state).pairs = state.pairs := by
  induction s with
  | nil => exact fun _ => rfl
  | cons c s ih =>
    intro state
    have hc : c ≠ '|' := fun h => hs (h ▸ List.mem_cons_self ..)
    rw [List.foldl_cons, ih fun h => hs (List.mem_cons_of_mem _ h)]
    exact (state.read_of_ne_bar hc).2

/-- A text without bars has none to expand. -/
theorem expandBars_eq_self {s : Text} (hs : '|' ∉ s) : expandBars s = s := by
  have hpairs : barPairs s = [] := pairs_foldl_read hs BarState.start
  have hself : ∀ (t : Text) (position : Nat), unbarredFrom [] position t = t := by
    intro t
    induction t with
    | nil => exact fun _ => rfl
    | cons c t ih => exact fun position => congrArg (c :: ·) (ih (position + 1))
  rw [expandBars_eq, hpairs, hself]

theorem stripDollars_eq_self {s : Text} (h : '$' ∉ s) : stripDollars s = s := by
  have hdrop : ∀ t : Text, '$' ∉ t → t.dropWhile (· = '$') = t := by
    intro t ht
    cases t with
    | nil => rfl
    | cons c t =>
      have hc : c ≠ '$' := fun he => ht (he ▸ List.mem_cons_self ..)
      simp [hc]
  rw [stripDollars, hdrop s h, hdrop s.reverse (by simpa using h), List.reverse_reverse]

theorem dropDisplayOpening_eq_self {s : Text} (h : '\\' ∉ s) : dropDisplayOpening s = s := by
  unfold dropDisplayOpening
  split
  · simp at h
  · simp at h
  · rfl

theorem dropDisplayClosing_eq_self {s : Text} (h : '\\' ∉ s) : dropDisplayClosing s = s := by
  have hr : '\\' ∉ s.reverse := by simpa using h
  unfold dropDisplayClosing
  split
  · next heq => simp [heq] at hr
  · next heq => simp [heq] at hr
  · rfl

/-- An answer without backslashes, dollar signs and superfluous blanks has no wrappers. -/
theorem unwrapped_eq_self {s : Text} (hbackslash : '\\' ∉ s) (hdollar : '$' ∉ s)
    (hspaces : collapse s = s) : unwrapped s = s := by
  have hstrip : strip s = s := hspaces ▸ strip_collapse s
  rw [unwrapped, hstrip, stripDollars_eq_self hdollar, hstrip,
    dropDisplayOpening_eq_self hbackslash, dropDisplayClosing_eq_self hbackslash, hstrip]

/-- An answer without backslashes, glyphs, bars, dollar signs and superfluous
blanks is in canonical form. -/
theorem canonical_eq_self {s : Text} (hs : ∀ c ∈ s, c ∉ triggers) (hbar : '|' ∉ s)
    (hdollar : '$' ∉ s) (hspaces : collapse s = s) : canonical s = s := by
  have hbackslash : '\\' ∉ s := fun h => hs _ h backslash_mem_triggers
  have hchain : Chain true Canonical.stages (unwrapped s) s := by
    rw [unwrapped_eq_self hbackslash hdollar hspaces]
    exact chain_refl hs Canonical.local_of_mem_stages
  rw [canonical_eq_of_chain hchain, expandBars_eq_self hbar, hspaces]

/-- What the parser accepts is not blank. -/
theorem Expr.isAllBlank_of_parseWithin {calls : Nat} {text : Text} {x : Expr}
    (h : parseWithin calls text = .ok x) : isAllBlank text = false := by
  obtain ⟨ts, hts, h⟩ := exists_of_bind_ok h
  have hne := (operand_of_ofTokens h).1.1
  by_contra hb
  have hnil := (Lexes.of_tokensFrom hts).eq_nil (by simpa using hb)
  rw [List.map_eq_nil_iff] at hnil
  exact hne (by rw [hnil]; rfl)

namespace Outcome

variable [MathLibrary]

theorem eq_canonical_of_success {answer expression : Text} {value : Float}
    (h : ofText answer = success value expression) :
    expression = canonical answer ∧ evaluateCanonical (canonical answer) = .ok value := by
  unfold ofText at h
  split at h
  · cases h
  · split at h
    · next hv =>
      obtain ⟨rfl, rfl⟩ := Outcome.success.inj h
      exact ⟨rfl, hv⟩
    · cases h

theorem exists_parse_of_evaluateCanonical {expression : Text} {value : Float}
    (h : evaluateCanonical expression = .ok value) : ∃ x, Expr.parse expression = .ok x := by
  unfold evaluateCanonical at h
  split at h
  · cases h
  · next x hx => exact ⟨x, hx⟩

/-- The expression of an answer that has a value is written with few
characters, is its own canonical form, and has this value. -/
theorem stable_of_success {answer expression : Text} {value : Float}
    (h : ofText answer = success value expression) :
    (∀ c ∈ expression, isPlain c = true ∨ c = ' ') ∧ SingleSpaced expression ∧
      canonical expression = expression ∧ ofText expression = success value expression := by
  obtain ⟨rfl, hvalue⟩ := eq_canonical_of_success h
  obtain ⟨x, hparse⟩ := exists_parse_of_evaluateCanonical hvalue
  obtain ⟨ts, hlexes, hrun, _⟩ := Expr.exists_lexes_of_parseWithin hparse
  have hplain : ∀ c ∈ canonical answer, isPlain c = true ∨ c = ' ' := by
    intro c hc
    rcases hlexes.plain_of_run hrun c hc with hb | hp
    · exact .inr (eq_space_of_mem_collapse hc hb)
    · exact .inl hp
  have hno : ∀ d, isPlain d = false → d ≠ ' ' → d ∉ canonical answer := by
    intro d hd hne hm
    rcases hplain d hm with hp | rfl
    · rw [hd] at hp
      cases hp
    · exact hne rfl
  have hself : canonical (canonical answer) = canonical answer := by
    refine canonical_eq_self (fun c hc => ?_) (hno '|' (by decide) (by decide))
      (hno '$' (by decide) (by decide)) (collapse_collapse _)
    rcases hplain c hc with hp | rfl
    · exact notMem_triggers_of_isPlain hp
    · decide
  refine ⟨hplain, singleSpaced_collapse _, hself, ?_⟩
  rw [ofText, Expr.isAllBlank_of_parseWithin hparse, hself, hvalue]
  rfl

omit [MathLibrary] in
theorem stable_of_success_glyphs :
    ∃ value, @ofText .native "2π×|3|".toList = success value "2 pi*abs(3)".toList ∧
      (∀ c ∈ "2 pi*abs(3)".toList, isPlain c = true ∨ c = ' ') ∧
      SingleSpaced "2 pi*abs(3)".toList ∧ canonical "2 pi*abs(3)".toList = "2 pi*abs(3)".toList ∧
      @ofText .native "2 pi*abs(3)".toList = success value "2 pi*abs(3)".toList := by
  have hsuccess : (@ofText .native "2π×|3|".toList).isSuccess = true := by decide +kernel
  have hexpression : (@ofText .native "2π×|3|".toList).expression? =
      some "2 pi*abs(3)".toList := by decide +kernel
  cases h : @ofText .native "2π×|3|".toList with
  | success value expression =>
    rw [h] at hexpression
    obtain rfl := Option.some.inj hexpression
    exact ⟨value, rfl, @stable_of_success .native _ _ _ h⟩
  | failure fault expression =>
    rw [h] at hsuccess
    cases hsuccess

end Outcome
end NumericAnswer
