/-
# Blanks that mean nothing

When every glyph has its word, texts that differ in the spellings of glyphs differ in blanks only:
behind the word for a glyph, behind signs and closing brackets, and behind other blanks. Bars are
paired alike in such texts, and they become the same symbols, so one of them is read if the other
one is.

Key definitions: `Slack`, `Aligned`, `Stops`.
Key theorems: `Slack.induction`, `BarsPair.slack`, `Lexes.slack`, `Expr.parseWithin_slack`.
-/
import NumericAnswer.Proofs.Loosened
import NumericAnswer.Proofs.Renaming

namespace NumericAnswer

/-- Every glyph has its word, so that the texts differ in blanks only. -/
abbrev Slack (stops : Text → Prop) : Option Char → Text → Text → Prop :=
  Voiced (fun _ => false) stops

theorem seat_of_inNumeral {c : Char} (hc : InNumeral c) : seat c = some c := by
  have hsigns : ∀ c ∈ ['.', '+', '-', 'e', 'E'], seat c = some c := forall_mem_of_all (by decide)
  rcases hc with hc | hc
  · exact seat_of_isAlphanumeric (by simp [isAlphanumeric, isDigit, hc])
  · exact hsigns c hc

namespace Slack

variable {stops : Text → Prop} {p : Option Char} {c d : Char} {s t w : Text}

theorem pi (hp : p.any isAlphanumeric = false) (hs : stops s) (ht : stops t)
    (h : Slack stops none s t) : Slack stops p ("pi".toList ++ s) ("pi".toList ++ t) :=
  h.glyph_front (g := 'π') rfl (.word rfl fun _ => hs) (.word rfl fun _ => ht) fun _ _ => hp

/-- Signs for glyphs are characters like others. -/
@[elab_as_elim]
theorem induction {motive : ∀ p s t, Slack stops p s t → Prop}
    (nil : ∀ {p : Option Char}, motive p [] [] .nil)
    (char : ∀ {p : Option Char} {c : Char} {s t : Text} (hb : isBlank c = false)
      (hc : glyphName? c = none) (h : Slack stops (seat c) s t), motive (seat c) s t h →
      motive p (c :: s) (c :: t) (.char hb hc h))
    (blank : ∀ {p : Option Char} {e e' : Char} {s t : Text} (he : isBlank e = true)
      (he' : isBlank e' = true) (h : Slack stops none s t), motive none s t h →
      motive p (e :: s) (e' :: t) (.blank he he' h))
    (pi : ∀ {p : Option Char} {s t : Text} (hp : p.any isAlphanumeric = false) (hs : stops s)
      (ht : stops t) (h : Slack stops none s t), motive none s t h →
      motive p ("pi".toList ++ s) ("pi".toList ++ t) (h.pi hp hs ht))
    (left : ∀ {e : Char} {s t : Text} (he : isBlank e = true) (h : Slack stops none s t),
      motive none s t h → motive none (e :: s) t (.left he h))
    (right : ∀ {e : Char} {s t : Text} (he : isBlank e = true) (h : Slack stops none s t),
      motive none s t h → motive none s (e :: t) (.right he h))
    (h : Slack stops p s t) : motive p s t h := by
  induction h with
  | nil => exact nil
  | char hb hc h ih => exact char hb hc h ih
  | blank he he' h ih => exact blank he he' h ih
  | @glyph p g name b b' x y s t hg hx hy hb h ih =>
    cases hx with
    | spelling hl => cases hl
    | word _ hs =>
      cases hy with
      | spelling hl => cases hl
      | word _ ht =>
        cases hb with
        | blanks hl => cases hl
        | nothing hp =>
          rcases glyphName_cases hg with ⟨rfl, -⟩ | ⟨rfl, -⟩ | ⟨rfl, -⟩ | ⟨rfl, -⟩
          · exact pi (hp rfl rfl) (hs rfl) (ht rfl) h ih
          · exact char (c := '*') (by decide) (by decide) h ih
          · exact char (c := '*') (by decide) (by decide) h ih
          · exact char (c := '/') (by decide) (by decide) h ih
  | left he h ih => exact left he h ih
  | right he h ih => exact right he h ih

/-- The same characters stand in both texts, but for blanks. -/
theorem mem (h : Slack stops p s t) (hc : isBlank c = false) (hm : c ∈ s) : c ∈ t := by
  have hne : ∀ {e}, isBlank e = true → c ≠ e := by
    rintro e he rfl
    exact absurd (hc.symm.trans he) (by decide)
  induction h using Slack.induction with
  | nil => exact hm
  | char _ _ _ ih =>
    simp only [List.mem_cons] at hm ⊢
    exact hm.imp_right ih
  | blank he _ _ ih =>
    simp only [List.mem_cons, hne he, false_or] at hm ⊢
    exact .inr (ih hm)
  | pi _ _ _ _ ih =>
    simp only [List.mem_append] at hm ⊢
    exact hm.imp_right ih
  | left he _ ih => exact ih ((List.mem_cons.mp hm).resolve_left (hne he))
  | right _ _ ih => exact List.mem_cons_of_mem _ (ih hm)

/-- The same character begins both texts where blanks mean something. -/
theorem exists_cons (h : Slack stops (some d) (c :: s) t) (hc : isBlank c = false) (hp : c ≠ 'p') :
    ∃ t', t = c :: t' ∧ Slack stops (seat c) s t' := by
  generalize hq : some d = q, hu : c :: s = u at h
  cases h using Slack.induction with
  | nil => cases hu
  | char _ _ h =>
    obtain ⟨rfl, rfl⟩ := List.cons.inj hu
    exact ⟨_, rfl, h⟩
  | blank he =>
    obtain ⟨rfl, -⟩ := List.cons.inj hu
    exact absurd (hc.symm.trans he) (by decide)
  | pi => exact absurd (List.cons.inj hu).1 hp
  | left | right => cases hq

/-- The characters of a number begin both texts. -/
theorem of_numerals_append (h : Slack stops (some d) (w ++ s) t) (hw : ∀ c ∈ w, InNumeral c) :
    ∃ t' e, t = w ++ t' ∧ Slack stops (some e) s t' := by
  induction w generalizing t d with
  | nil => exact ⟨t, d, rfl, h⟩
  | cons c w ih =>
    have hc := hw c (List.mem_cons_self ..)
    have hp : c ≠ 'p' := by
      rintro rfl
      rcases hc with hc | hc <;> exact absurd hc (by decide)
    obtain ⟨t, rfl, hrest⟩ := h.exists_cons (isBlank_of_lexeme_char hc.inLexeme) hp
    rw [seat_of_inNumeral hc] at hrest
    obtain ⟨t', e, rfl, hlater⟩ := ih hrest fun d hd => hw d (List.mem_cons_of_mem _ hd)
    exact ⟨t', e, rfl, hlater⟩

theorem numerals (h : Slack stops (some d) s t) : LooseNumerals t s := by
  rintro w hw ⟨t, rfl⟩
  obtain ⟨s, -, rfl, -⟩ := of_numerals_append h.symm hw
  exact List.prefix_append w s

end Slack

/-! ### Bars -/

/-- What is to stop the word for a glyph: no letter or digit, or a bar that is paired. -/
def Stops (s : Text) : Prop :=
  ClearFront s ∨ "abs(".toList <+: s

/-- The front of a text goes on with no word that ends the text before it, in reverse. -/
def Fresh (before s : Text) : Prop :=
  s.head?.any isLetter = true → before.head?.any isLetter = false ∧ before.head? ≠ some '\\'

/-- Two texts in reverse end in the same word, with which the texts behind them do not go on. -/
structure Beyond (before before' s t : Text) : Prop where
  last : (dropBlanks before).head? = (dropBlanks before').head?
  word : SameRun (dropBlanks before) (dropBlanks before')
  left : Fresh before s
  right : Fresh before' t

/-- What stands before two texts, in reverse, ends alike. -/
def Aligned (p : Option Char) (before before' s t : Text) : Prop :=
  if p.isSome then Behind before before' else Beyond before before' s t

section Aligned

variable {p : Option Char} {before before' s t s' t' : Text} {c e e' : Char}

theorem isLetter_of_isBlank (he : isBlank e = true) : isLetter e = false :=
  isLetter_of_isAlphanumeric (isAlphanumeric_of_isBlank he)

theorem fresh_cons (hc : isLetter c = false) (hne : c ≠ '\\') (before s : Text) :
    Fresh (c :: before) s :=
  fun _ => ⟨hc, by simpa using hne⟩

theorem fresh_of_clear (hs : ClearFront s) (before : Text) : Fresh before s := by
  intro hletter
  cases s with
  | nil => cases hletter
  | cons c s => exact absurd (hletter.symm.trans (isLetter_of_isAlphanumeric hs)) (by decide)

theorem ne_backslash_of_isBlank (he : isBlank e = true) : e ≠ '\\' := by
  rintro rfl
  cases he

namespace Aligned

theorem last (h : Aligned p before before' s t) :
    (dropBlanks before).head? = (dropBlanks before').head? := by
  unfold Aligned at h
  split at h
  · exact h.last
  · exact h.last

theorem word (h : Aligned p before before' s t) :
    SameRun (dropBlanks before) (dropBlanks before') := by
  unfold Aligned at h
  split at h
  · exact h.word
  · exact h.word

/-- Texts that both go on with letters. -/
theorem run (h : Aligned p before before' s t) (hs : s.head?.any isLetter = true)
    (ht : t.head?.any isLetter = true) : SameRun before before' := by
  unfold Aligned at h
  split at h
  · exact h.run
  · exact Behind.sameRun_of_head (h.left hs).1 (h.right ht).1 (h.left hs).2 (h.right ht).2

theorem cons (h : Aligned p before before' (c :: s) (c :: t)) (hc : isBlank c = false) :
    Aligned (seat c) (c :: before) (c :: before') s t := by
  have hbehind : Behind (c :: before) (c :: before') :=
    .of_sameRun hc fun hletter => h.run hletter hletter
  unfold Aligned
  split
  · exact hbehind
  · next hseat =>
    have hfree : isLetter c = false ∧ c ≠ '\\' := by
      unfold seat at hseat
      split at hseat
      · next hsign =>
        simp only [Bool.or_eq_true, decide_eq_true_eq] at hsign
        rcases hsign with ((rfl | rfl) | rfl) | rfl <;> exact ⟨by decide +kernel, by decide⟩
      · exact absurd rfl hseat
    exact ⟨hbehind.last, hbehind.word, fresh_cons hfree.1 hfree.2 _ _, fresh_cons hfree.1 hfree.2 _ _⟩

theorem blank (h : Aligned p before before' s t) (he : isBlank e = true) (he' : isBlank e' = true) :
    Aligned none (e :: before) (e' :: before') s' t' where
  last := by simpa [dropBlanks, he, he'] using h.last
  word := by simpa [dropBlanks, he, he'] using h.word
  left := fresh_cons (isLetter_of_isBlank he) (ne_backslash_of_isBlank he) _ _
  right := fresh_cons (isLetter_of_isBlank he') (ne_backslash_of_isBlank he') _ _

theorem left (h : Aligned none before before' (e :: s) t) (he : isBlank e = true) :
    Aligned none (e :: before) before' s t where
  last := by simpa [dropBlanks, he] using h.last
  word := by simpa [dropBlanks, he] using h.word
  left := fresh_cons (isLetter_of_isBlank he) (ne_backslash_of_isBlank he) _ _
  right := Beyond.right h

theorem right (h : Aligned none before before' s (e :: t)) (he : isBlank e = true) :
    Aligned none before (e :: before') s t where
  last := by simpa [dropBlanks, he] using h.last
  word := by simpa [dropBlanks, he] using h.word
  left := Beyond.left h
  right := fresh_cons (isLetter_of_isBlank he) (ne_backslash_of_isBlank he) _ _

/-- The word for a glyph is one letter after the other. -/
theorem pi (h : Aligned p before before' ("pi".toList ++ s) ("pi".toList ++ t)) (hs : ClearFront s)
    (ht : ClearFront t) : Aligned none ('i' :: 'p' :: before) ('i' :: 'p' :: before') s t := by
  have hletter : ∀ s : Text, ("pi".toList ++ s).head?.any isLetter = true := fun _ => by
    simpa using (by decide +kernel : isLetter 'p' = true)
  have hbehind : Behind ('i' :: 'p' :: before) ('i' :: 'p' :: before') :=
    .of_sameRun (by decide) fun _ => Behind.sameRun_cons fun _ => h.run (hletter s) (hletter t)
  exact ⟨hbehind.last, hbehind.word, fresh_of_clear hs _, fresh_of_clear ht _⟩

end Aligned
end Aligned

section Bars

variable {p : Option Char} {before before' s t x : Text} {marks : List Opened} {lastOpened : Bool}

/-- A blank stays in front. -/
theorem BarsPair.blank_iff {e : Char} (he : isBlank e = true) :
    BarsPair before marks lastOpened (e :: s) x ↔
      ∃ y, x = e :: y ∧ BarsPair (e :: before) marks lastOpened s y :=
  plain_append_iff (b := [e]) (noBar_of_isAllBlank (by simpa [isAllBlank] using he))

/-- A paired bar may come to the front. -/
theorem BarsPair.stops (h : BarsPair before marks lastOpened s x) (hs : ClearFront s) : Stops x := by
  cases h with
  | nil => exact .inl rfl
  | opening | closing | other => exact .inl hs
  | opens => exact .inr (List.prefix_append _ _)
  | closes =>
    left
    rw [ClearFront, List.head?_cons, Option.any_some]
    exact isAlphanumeric_of_mem_closers (by decide)

/-- **Bars are paired alike** in texts that differ in blanks only. -/
theorem BarsPair.slack (hr : Slack ClearFront p s t) :
    ∀ {before before' : Text} {marks : List Opened} {lastOpened : Bool} {x : Text},
      BarsPair before marks lastOpened s x → Aligned p before before' s t →
      ∃ y, BarsPair before' marks lastOpened t y ∧ Slack Stops p x y := by
  induction hr using Slack.induction with
  | nil =>
    intro before before' marks lastOpened x h _
    cases h
    exact ⟨[], .nil _ _, .nil⟩
  | @char p c s t hb hc hr ih =>
    intro before before' marks lastOpened x h haligned
    have hlater := haligned.cons hb
    cases h with
    | opening bracket h =>
      obtain ⟨y, hy, hxy⟩ := ih h hlater
      exact ⟨_, .opening bracket hy, .char hb hc hxy⟩
    | closing bracket h =>
      obtain ⟨y, hy, hxy⟩ := ih h hlater
      exact ⟨_, .closing bracket hy, .char hb hc hxy⟩
    | other hplain hbar h =>
      obtain ⟨y, hy, hxy⟩ := ih h hlater
      exact ⟨_, .other hplain hbar hy, .char hb hc hxy⟩
    | opens hm h =>
      obtain ⟨y, hy, hxy⟩ := ih h hlater
      refine ⟨_, .opens (fun hmarks => ?_) hy, ?_⟩
      · rw [← Behind.barOpens_eq haligned.last haligned.word]
        exact hm hmarks
      · have hopened : Voiced (fun _ => false) Stops (some 's') ('(' :: _) ('(' :: _) :=
          .char (by decide) (by decide) (Voiced.congr (d := '(') hxy (by decide +kernel))
        exact Voiced.word_append (w := "abs".toList) (forall_mem_of_all (by decide)) hopened
    | closes hcloses h =>
      obtain ⟨y, hy, hxy⟩ := ih h hlater
      refine ⟨_, .closes ?_ hy, .char (by decide) (by decide) ?_⟩
      · rw [← Behind.barOpens_eq haligned.last haligned.word]
        exact hcloses
      · exact Voiced.congr (d := ')') hxy (by decide +kernel)
  | blank he he' hr ih =>
    intro before before' marks lastOpened x h haligned
    obtain ⟨x, rfl, hrest⟩ := (blank_iff he).mp h
    obtain ⟨y, hy, hxy⟩ := ih hrest (haligned.blank he he')
    exact ⟨_, (blank_iff he').mpr ⟨y, rfl, hy⟩, .blank he he' hxy⟩
  | pi hp hs ht hr ih =>
    intro before before' marks lastOpened x h haligned
    have hplain : ∀ c ∈ "pi".toList, NoBracket c ∧ c ≠ '|' := forall_mem_of_all (by decide)
    obtain ⟨x, rfl, hrest⟩ := (plain_append_iff hplain).mp h
    obtain ⟨y, hy, hxy⟩ := ih hrest (haligned.pi hs ht)
    exact ⟨_, (plain_append_iff hplain).mpr ⟨y, rfl, hy⟩,
      Slack.pi hp (hrest.stops hs) (hy.stops ht) hxy⟩
  | left he hr ih =>
    intro before before' marks lastOpened x h haligned
    obtain ⟨x, rfl, hrest⟩ := (blank_iff he).mp h
    obtain ⟨y, hy, hxy⟩ := ih hrest (haligned.left he)
    exact ⟨y, hy, .left he hxy⟩
  | right he hr ih =>
    intro before before' marks lastOpened x h haligned
    obtain ⟨y, hy, hxy⟩ := ih h (haligned.right he)
    exact ⟨_, (blank_iff he).mpr ⟨y, rfl, hy⟩, .right he hxy⟩

end Bars

/-! ### Symbols -/

section Symbols

variable {p : Option Char} {afterNumber : Bool} {s t r : Text} {us : List (Symbol × Bool)}

theorem Lexes.of_blank {e : Char} (h : Lexes afterNumber (e :: s) us) (he : isBlank e = true) :
    Lexes afterNumber s us := by
  cases h with
  | blank _ h => exact h
  | step _ hb => exact absurd (hb.symm.trans he) (by decide)

/-- The word for a glyph is a symbol of its own. -/
theorem lexes_pi_iff (hr : Stops r) :
    Lexes afterNumber ("pi".toList ++ r) us ↔
      ∃ vs, us = (.word (.constant .pi), false) :: vs ∧ Lexes false r vs := by
  have hpi : splitWords "pi".toList = [.word (.constant .pi)] := splitWords_text (.constant .pi)
  rcases hr with hr | ⟨r, rfl⟩
  · rw [lexes_letters_iff (forall_mem_of_all (by decide)) (by decide) hr.head?_letter, hpi]
    rfl
  · -- The bar that follows the word has become a word itself, and the letters are split again.
    have habs : splitWords "abs".toList = [.word .absolute] := splitWords_text .absolute
    have hrun : splitWords "piabs".toList = [.word (.constant .pi), .word .absolute] := by
      have happend : splitWords ((Word.constant .pi).text ++ "abs".toList) = _ :=
        splitWords_append (by decide)
      rwa [habs] at happend
    have hsplit : "pi".toList ++ ("abs(".toList ++ r) = "piabs".toList ++ '(' :: r := rfl
    have hsplit' : "abs(".toList ++ r = "abs".toList ++ '(' :: r := rfl
    have hbar : ∀ {vs}, Lexes false ("abs".toList ++ '(' :: r) vs ↔ _ :=
      lexes_letters_iff (forall_mem_of_all (by decide)) (by decide) rfl
    rw [hsplit, hsplit', lexes_letters_iff (forall_mem_of_all (by decide)) (by decide) rfl, hrun]
    simp only [hbar, habs]
    constructor
    · rintro ⟨vs, rfl, hvs⟩
      exact ⟨_, rfl, vs, rfl, hvs⟩
    · rintro ⟨_, rfl, vs, rfl, hvs⟩
      exact ⟨vs, rfl, hvs⟩

/-- A lexeme that is no row of letters ends in both texts where it ends in one of them. -/
theorem lexeme_slack {c : Char} (hr : Slack Stops (seat c) s t) (hletter : isAsciiLetter c = false)
    (hne : c ≠ '\\') : lexeme c t = lexeme c s ∧
      ∃ q, Slack Stops q (s.drop (lexeme c s).2) (t.drop (lexeme c s).2) ∧
        (repeatsPoint (lexeme c s).1 (s.drop (lexeme c s).2) = false →
          repeatsPoint (lexeme c s).1 (t.drop (lexeme c s).2) = false) := by
  cases hread : Literal.read? (c :: s) with
  | some found =>
    obtain ⟨l, rest⟩ := found
    obtain ⟨htext, hrest⟩ := Literal.text_eq_cons hread
    obtain ⟨hformed, hends⟩ := Literal.formed_of_read? hread
    have hnumeral : ∀ d ∈ c :: s.take (l.text.length - 1), InNumeral d := htext ▸ hformed.inNumeral
    have hlexeme : lexeme c s = ([.number l], l.text.length - 1) := by rw [lexeme, hread]
    rw [seat_of_inNumeral (hnumeral c (List.mem_cons_self ..)),
      ← List.take_append_drop (l.text.length - 1) s] at hr
    obtain ⟨t, e, rfl, hdrop⟩ :=
      Slack.of_numerals_append hr fun d hd => hnumeral d (List.mem_cons_of_mem _ hd)
    have hread' : Literal.read? (c :: (s.take (l.text.length - 1) ++ t)) = some (l, t) := by
      rw [← List.cons_append, ← htext]
      exact Literal.read?_text_append hformed ((hrest ▸ hends).loose (Slack.numerals hdrop))
    have hlength : (s.take (l.text.length - 1)).length = l.text.length - 1 := by
      have := congrArg List.length htext
      simp only [List.length_cons] at this
      omega
    rw [hlexeme]
    refine ⟨by rw [lexeme, hread'], some e, ?_, ?_⟩
    · rwa [List.drop_left' hlength]
    · rw [List.drop_left' hlength]
      exact repeatsPoint_of_loose (Slack.numerals hdrop)
  | none =>
    have hread' : Literal.read? (c :: t) = none := by
      by_cases hc : InNumeral c
      · rw [seat_of_inNumeral hc] at hr
        exact Literal.read?_none_of_loose hread (Slack.numerals hr)
      · refine Literal.read?_eq_none (Bool.eq_false_iff.mpr fun hd => hc (.inl hd)) ?_ t
        rintro rfl
        exact hc (.inr (by simp))
    have hlexeme : ∀ {s : Text}, Literal.read? (c :: s) = none → lexeme c s = ([.ofSign c], 0) :=
      fun hread => by simp [lexeme, hread, hletter, hne]
    rw [hlexeme hread, hlexeme hread']
    exact ⟨rfl, _, hr, fun _ => repeatsPoint_eq_false (by simp [Symbol.isNumber_ofSign]) _⟩

/-- **Texts that differ in blanks only become the same symbols.** -/
theorem Lexes.slack (hs : '\\' ∉ s) (h : Lexes afterNumber s us) (hr : Slack Stops p s t) :
    Lexes afterNumber t us := by
  induction hn : s.length + t.length using Nat.strong_induction_on
    generalizing p s t afterNumber us with
  | _ n ih =>
  subst hn
  cases hr using Slack.induction with
  | nil => exact h
  | blank he he' hr =>
    refine .blank he' (ih _ ?_ (fun hm => hs (List.mem_cons_of_mem _ hm)) ?_ hr rfl)
    · simp only [List.length_cons]
      omega
    · exact h.of_blank he
  | left he hr =>
    refine ih _ ?_ (fun hm => hs (List.mem_cons_of_mem _ hm)) ?_ hr rfl
    · simp only [List.length_cons]
      omega
    · exact h.of_blank he
  | right he hr =>
    refine .blank he (ih _ ?_ hs h hr rfl)
    simp only [List.length_cons]
    omega
  | pi hp hstops hstops' hr =>
    obtain ⟨vs, rfl, hvs⟩ := (lexes_pi_iff hstops).mp h
    refine (lexes_pi_iff hstops').mpr ⟨vs, rfl, ih _ ?_ (fun hm => hs ?_) hvs hr rfl⟩
    · simp only [List.length_append]
      have : 0 < "pi".toList.length := by decide
      omega
    · exact List.mem_append_right _ hm
  | @char p c s t hb hc hr =>
    have hbackslash : '\\' ∉ s := fun hm => hs (List.mem_cons_of_mem _ hm)
    have hne : c ≠ '\\' := fun hc => hs (by simp [hc])
    have hlater : ∀ {n m : Nat} {p : Option Char} {afterNumber : Bool} {us : List (Symbol × Bool)},
        Lexes afterNumber (s.drop n) us → Slack Stops p (s.drop n) (t.drop m) →
        Lexes afterNumber (t.drop m) us := by
      intro n m p afterNumber us h hr
      refine ih _ ?_ (fun hm => hbackslash (List.mem_of_mem_drop hm)) h hr rfl
      simp only [List.length_drop, List.length_cons]
      omega
    cases hletter : isAsciiLetter c with
    | true =>
      have halpha := isAlphanumeric_of_isAsciiLetter hletter
      rw [seat_of_isAlphanumeric halpha] at hr
      obtain ⟨hno, -⟩ | ⟨hletters, hrest⟩ := Voiced.letters hr
      · exact absurd (halpha.symm.trans hno) (by decide)
      · rw [lexes_leadingLetters_iff hletter] at h ⊢
        obtain ⟨vs, rfl, hvs⟩ := h
        rw [← hletters] at hrest ⊢
        exact ⟨vs, rfl, hlater hvs hrest⟩
    | false =>
      cases h with
      | blank he => exact absurd (hb.symm.trans he) (by decide)
      | @step _ _ us _ _ hp hrest =>
        obtain ⟨hlexeme, _, hdrop, hpoint⟩ := lexeme_slack hr hletter hne
        have hstep := @Lexes.step c t us afterNumber hb
        rw [hlexeme] at hstep
        exact hstep (hpoint hp) (hlater hrest hdrop)

/-- **Texts that differ in blanks only are read alike.** -/
theorem Expr.parseWithin_slack {calls : Nat} {x : Expr} (hr : Slack ClearFront none s t)
    (h : parseWithin calls (collapse (expandBars s)) = .ok x) :
    parseWithin calls (collapse (expandBars t)) = .ok x := by
  obtain ⟨u, ts, stop, hbars, hu, hlexes, hsum⟩ := exists_barsPair_of_parseWithin h
  have haligned : Aligned none [] [] s t :=
    ⟨rfl, ⟨rfl, Iff.rfl⟩, fun _ => ⟨rfl, by simp⟩, fun _ => ⟨rfl, by simp⟩⟩
  obtain ⟨v, hbars', huv⟩ := hbars.slack hr haligned
  exact parseWithin_of_lexes hbars' (fun hm => hu (Slack.mem (Voiced.symm huv) (by decide) hm))
    (hlexes.slack hu huv) hsum

end Symbols
end NumericAnswer
