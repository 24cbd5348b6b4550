/-
# Words for glyphs

Once the macros are gone, names and glyphs become words and signs. A word is kept apart from the
letters and digits next to it, and a glyph for pi counts as a letter where its command does not; so
blanks come and go around glyphs before they have their words, and around these they differ only
where no letter or digit stands next to them.

Key definitions: `glyphWord`, `seat`, `Voiced`.
Key theorems: `Voiced.of_glossed`, `Voiced.letters`.
-/
import NumericAnswer.Proofs.Macros

namespace NumericAnswer

/-! ### Texts with words for glyphs -/

/-- The word or sign for a glyph. -/
def glyphWord (c : Char) : Text :=
  if c = 'π' then "pi".toList else if c = '÷' then ['/'] else ['*']

/-- The character, if the blanks behind it mean something. -/
def seat (c : Char) : Option Char :=
  if c = '\x7d' || c = ']' || c = '*' || c = '/' then none else some c

theorem seat_of_isAlphanumeric {c : Char} (hc : isAlphanumeric c = true) : seat c = some c := by
  rw [seat, if_neg]
  simp only [Bool.or_eq_true, decide_eq_true_eq]
  rintro (((rfl | rfl) | rfl) | rfl) <;> exact absurd hc (by decide +kernel)

theorem glyphName_of_isAsciiLetter {c : Char} (hc : isAsciiLetter c = true) : glyphName? c = none := by
  cases hg : glyphName? c with
  | none => rfl
  | some name =>
    have hno := glyph_all (p := fun c => !isAsciiLetter c) (isSome_of_glyphName hg) (by decide)
    simp [hc] at hno

/-- The text is a spelling of a glyph that has no word yet, or the word for it. What follows a word
that is made of letters is to stop it. -/
inductive Sounds (live : Char → Bool) (stops : Text → Prop) (g : Char) (name rest : Text) :
    Text → Prop
  | spelling {x : Text} (hl : live g = true) (hx : Spelling g name rest x) :
      Sounds live stops g name rest x
  | word (hl : live g = false) (hrest : g = 'π' → stops rest) :
      Sounds live stops g name rest (glyphWord g)

/-- What may stand before a glyph in two texts, behind the character `p`: blanks only between
a letter or digit and a glyph that counts as one, and nothing else before a word, which such a
character does not precede. -/
inductive Before (live : Char → Bool) (p : Option Char) (g : Char) : Text → Text → Prop
  | nothing (h : live g = false → g = 'π' → p.any isAlphanumeric = false) : Before live p g [] []
  | blanks {b b' : Text} (hl : live g = true) (hp : p.any isAlphanumeric = true)
      (hg : isAlphanumeric g = true) (hb : isAllBlank b = true) (hb' : isAllBlank b' = true) :
      Before live p g b b'

/-- The texts differ in the spellings of glyphs that are alive, and in blanks where they mean
nothing. The character before both texts is `p`, if blanks mean something behind it. -/
inductive Voiced (live : Char → Bool) (stops : Text → Prop) : Option Char → Text → Text → Prop
  | nil {p : Option Char} : Voiced live stops p [] []
  | char {p : Option Char} {c : Char} {s t : Text} (hb : isBlank c = false)
      (hc : glyphName? c = none) (h : Voiced live stops (seat c) s t) :
      Voiced live stops p (c :: s) (c :: t)
  | blank {p : Option Char} {e e' : Char} {s t : Text} (he : isBlank e = true)
      (he' : isBlank e' = true) (h : Voiced live stops none s t) :
      Voiced live stops p (e :: s) (e' :: t)
  | glyph {p : Option Char} {g : Char} {name b b' x y s t : Text} (hg : glyphName? g = some name)
      (hx : Sounds live stops g name s x) (hy : Sounds live stops g name t y)
      (hb : Before live p g b b') (h : Voiced live stops none s t) :
      Voiced live stops p (b ++ (x ++ s)) (b' ++ (y ++ t))
  | left {e : Char} {s t : Text} (he : isBlank e = true) (h : Voiced live stops none s t) :
      Voiced live stops none (e :: s) t
  | right {e : Char} {s t : Text} (he : isBlank e = true) (h : Voiced live stops none s t) :
      Voiced live stops none s (e :: t)

/-- No letter or digit stands at the front. -/
def ClearFront (s : Text) : Prop :=
  s.head?.any isAlphanumeric = false

theorem ClearFront.head?_letter {s : Text} (h : ClearFront s) : s.head?.any isAsciiLetter = false := by
  cases s with
  | nil => rfl
  | cons c s => exact isAsciiLetter_of_isAlphanumeric h

namespace Voiced

variable {live : Char → Bool} {stops : Text → Prop} {p q : Option Char} {c d g : Char}
  {b b' name s t : Text}

theorem symm (h : Voiced live stops p s t) : Voiced live stops p t s := by
  induction h with
  | nil => exact .nil
  | char hb hc _ ih => exact .char hb hc ih
  | blank he he' _ ih => exact .blank he' he ih
  | glyph hg hx hy hb _ ih =>
    refine .glyph hg hy hx ?_ ih
    cases hb with
    | nothing h => exact .nothing h
    | blanks hl hp hg hb hb' => exact .blanks hl hp hg hb' hb
  | left he _ ih => exact .right he ih
  | right he _ ih => exact .left he ih

/-- A glyph with nothing before it. -/
theorem glyph_front {x y : Text} (h : Voiced live stops none s t) (hg : glyphName? g = some name)
    (hx : Sounds live stops g name s x) (hy : Sounds live stops g name t y)
    (hp : live g = false → g = 'π' → p.any isAlphanumeric = false) :
    Voiced live stops p (x ++ s) (y ++ t) :=
  @Voiced.glyph live stops p g name [] [] x y s t hg hx hy (.nothing hp) h

theorem blanks_append (h : Voiced live stops none s t) (hb : isAllBlank b = true)
    (hb' : isAllBlank b' = true) : Voiced live stops none (b ++ s) (b' ++ t) := by
  have hright : Voiced live stops none s (b' ++ t) := by
    induction b' with
    | nil => exact h
    | cons e b' ih =>
      simp only [isAllBlank, List.all_cons, Bool.and_eq_true] at hb'
      exact .right hb'.1 (ih hb'.2)
  induction b with
  | nil => exact hright
  | cons e b ih =>
    simp only [isAllBlank, List.all_cons, Bool.and_eq_true] at hb
    exact .left hb.1 (ih hb.2)

/-- Rows of blanks may stand before both texts behind any character. -/
theorem rows_append (h : Voiced live stops none s t) (hb : isAllBlank b = true)
    (hb' : isAllBlank b' = true) (hne : b ≠ []) (hne' : b' ≠ []) :
    Voiced live stops p (b ++ s) (b' ++ t) := by
  obtain ⟨e, b, rfl⟩ := List.exists_cons_of_ne_nil hne
  obtain ⟨e', b', rfl⟩ := List.exists_cons_of_ne_nil hne'
  simp only [isAllBlank, List.all_cons, Bool.and_eq_true] at hb hb'
  exact .blank hb.1 hb'.1 (h.blanks_append hb.2 hb'.2)

theorem freed (h : Voiced live stops p s t) : Voiced live stops none s t := by
  cases h with
  | nil => exact .nil
  | char hb hc h => exact .char hb hc h
  | blank he he' h => exact .blank he he' h
  | glyph hg hx hy hb h =>
    have hglyph := h.glyph_front (p := none) hg hx hy fun _ _ => rfl
    cases hb with
    | nothing => exact hglyph
    | blanks _ _ _ hb hb' => exact hglyph.blanks_append hb hb'
  | left he h => exact .left he h
  | right he h => exact .right he h

/-- Only letters and digits differ from other characters in what may follow them. -/
theorem congr (h : Voiced live stops (some c) s t) (hcd : isAlphanumeric c = isAlphanumeric d) :
    Voiced live stops (some d) s t := by
  have hany : (some c).any isAlphanumeric = (some d).any isAlphanumeric := hcd
  cases h with
  | nil => exact .nil
  | char hb hc h => exact .char hb hc h
  | blank he he' h => exact .blank he he' h
  | glyph hg hx hy hb h =>
    refine .glyph hg hx hy ?_ h
    cases hb with
    | nothing h => exact .nothing fun hl hp => hany ▸ h hl hp
    | blanks hl hp hg hb hb' => exact .blanks hl (hany ▸ hp) hg hb hb'

/-- Letters and digits stand before both texts. -/
theorem word_append {w : Text} (hw : ∀ c ∈ w, isAsciiLetter c = true)
    (h : Voiced live stops ((w.getLast?).or p) s t) :
    Voiced live stops p (w ++ s) (w ++ t) := by
  induction w generalizing p with
  | nil => exact h
  | cons c w ih =>
    have hc := hw c (List.mem_cons_self ..)
    refine .char (isBlank_of_lexeme_char (.inl hc)) (glyphName_of_isAsciiLetter hc)
      (ih (fun d hd => hw d (List.mem_cons_of_mem _ hd)) ?_)
    rw [seat_of_isAlphanumeric (isAlphanumeric_of_isAsciiLetter hc)]
    cases w with
    | nil => exact h
    | cons d w =>
      rw [List.getLast?_cons_cons] at h
      cases hlast : (d :: w).getLast? with
      | none => simp at hlast
      | some e => rwa [hlast] at h

/-- Texts that differ in spellings have no words for glyphs yet. -/
theorem of_glossed {free : Bool} (h : Glossed true free s t) :
    ∀ {p : Option Char}, (free = true → p = none) → Voiced (fun _ => true) stops p s t := by
  induction h with
  | nil => exact fun _ => .nil
  | @char _ c s t hc h ih =>
    intro p _
    cases hb : isBlank c with
    | true => exact .blank hb hb (ih fun _ => rfl)
    | false =>
      refine .char hb hc (ih fun hfree => ?_)
      simp only [frees, hb, Bool.false_or, Bool.true_and, Bool.or_eq_true, decide_eq_true_eq] at hfree
      rcases hfree with rfl | rfl <;> rfl
  | @glyph _ g name x y s t hg hx hy _ ih =>
    intro p _
    exact (ih fun _ => rfl).glyph_front hg (.spelling rfl hx) (.spelling rfl hy)
      fun hl => absurd hl (by decide)
  | left he _ ih =>
    intro p hp
    rw [hp rfl]
    exact .left he (ih fun _ => rfl)
  | right he _ ih =>
    intro p hp
    rw [hp rfl]
    exact .right he (ih fun _ => rfl)

/-! ### The front of a text -/

/-- A spelling or a sign begins with no letter or digit, if the glyph is none. -/
theorem head?_of_sounds {rest x : Text} (hx : Sounds live stops g name rest x)
    (hlive : live g = true → isAlphanumeric g = false) (hword : live g = false → g ≠ 'π')
    (s : Text) : (x ++ s).head?.any isAlphanumeric = false := by
  have hsigns : ∀ c ∈ ['\\', '*', '/'], isAlphanumeric c = false :=
    forall_mem_of_all (by decide +kernel)
  cases hx with
  | spelling hl hx =>
    cases hx with
    | glyph => exact hlive hl
    | command => simpa using hsigns '\\' (by simp)
  | word hl =>
    rw [glyphWord, if_neg (hword hl)]
    split
    · simpa using hsigns '/' (by simp)
    · simpa using hsigns '*' (by simp)

theorem head?_letter_of_sounds {rest x : Text} (hg : glyphName? g = some name)
    (hx : Sounds live stops g name rest x) (hword : live g = false → g ≠ 'π') (s : Text) :
    (x ++ s).head?.any isAsciiLetter = false := by
  cases hx with
  | spelling _ hx => exact hx.head?_any hg (by decide) s
  | word hl =>
    rw [glyphWord, if_neg (hword hl)]
    split <;> rfl

theorem head?_letter_of_blanks (hb : isAllBlank b = true)
    (hs : s.head?.any isAsciiLetter = false) : (b ++ s).head?.any isAsciiLetter = false := by
  cases b with
  | nil => exact hs
  | cons e b =>
    simp only [isAllBlank, List.all_cons, Bool.and_eq_true] at hb
    exact isAsciiLetter_of_isAlphanumeric (isAlphanumeric_of_isBlank hb.1)

/-- The texts begin with the same letters, and differ as they do behind them. -/
def SameLetters (live : Char → Bool) (stops : Text → Prop) (p : Option Char) (s t : Text) : Prop :=
  leadingLetters s = leadingLetters t ∧
    Voiced live stops ((leadingLetters s).getLast?.or p) (s.drop (leadingLetters s).length)
      (t.drop (leadingLetters t).length)

/-- No letters stand at the front of the texts. -/
theorem sameLetters (h : Voiced live stops p s t) (hs : s.head?.any isAsciiLetter = false)
    (ht : t.head?.any isAsciiLetter = false) : SameLetters live stops p s t := by
  rw [SameLetters, show leadingLetters s = [] from leadingLetters_append_of_head hs [],
    show leadingLetters t = [] from leadingLetters_append_of_head ht []]
  exact ⟨rfl, h⟩

theorem SameLetters.cons (h : SameLetters live stops (some c) s t) (hc : isAsciiLetter c = true) :
    SameLetters live stops p (c :: s) (c :: t) := by
  have hcons : ∀ s : Text, leadingLetters (c :: s) = c :: leadingLetters s := fun s => by
    rw [leadingLetters, List.takeWhile_cons, if_pos hc]
    rfl
  obtain ⟨hletters, hrest⟩ := h
  refine ⟨by rw [hcons, hcons, hletters], ?_⟩
  rw [hcons, hcons, List.length_cons, List.length_cons, List.drop_succ_cons, List.drop_succ_cons,
    List.getLast?_cons]
  cases hlast : (leadingLetters s).getLast? with
  | none => rwa [hlast] at hrest
  | some e => rwa [hlast] at hrest

/-- The letters at the front of the texts are the same, unless a word stands there that takes the
place of a glyph. -/
theorem letters (h : Voiced live stops (some c) s t) :
    (isAlphanumeric c = false ∧ live 'π' = false ∧ ∃ r r', s = "pi".toList ++ r ∧
      t = "pi".toList ++ r' ∧ stops r ∧ stops r' ∧ Voiced live stops none r r') ∨
    SameLetters live stops (some c) s t := by
  generalize hp : some c = p at h
  induction h generalizing c with
  | nil => exact .inr (sameLetters .nil rfl rfl)
  | @char p d s t hb hd h ih =>
    subst hp
    cases hletter : isAsciiLetter d with
    | true =>
      have halphanumeric := isAlphanumeric_of_isAsciiLetter hletter
      rw [seat_of_isAlphanumeric halphanumeric] at ih
      rcases ih rfl with ⟨hno, -⟩ | hsame
      · exact absurd (halphanumeric.symm.trans hno) (by decide)
      · exact .inr (hsame.cons hletter)
    | false => exact .inr (sameLetters (.char hb hd h) hletter hletter)
  | blank he he' h =>
    subst hp
    exact .inr (sameLetters (.blank he he' h)
      (isAsciiLetter_of_isAlphanumeric (isAlphanumeric_of_isBlank he))
      (isAsciiLetter_of_isAlphanumeric (isAlphanumeric_of_isBlank he')))
  | @glyph p g name b b' x y s t hg hx hy hb h =>
    subst hp
    have hsame : (live g = false → g ≠ 'π') → isAllBlank b = true → isAllBlank b' = true →
        SameLetters live stops (some c) (b ++ (x ++ s)) (b' ++ (y ++ t)) := fun hword hblank hblank' =>
      sameLetters (.glyph hg hx hy hb h)
        (head?_letter_of_blanks hblank (head?_letter_of_sounds hg hx hword s))
        (head?_letter_of_blanks hblank' (head?_letter_of_sounds hg hy hword t))
    cases hb with
    | nothing hnothing =>
      by_cases hword : live g = false ∧ g = 'π'
      · obtain ⟨hl, rfl⟩ := hword
        cases hx with
        | spelling hl' => exact absurd (hl.symm.trans hl') (by decide)
        | word _ hrest =>
          cases hy with
          | spelling hl' => exact absurd (hl.symm.trans hl') (by decide)
          | word _ hrest' =>
            exact .inl ⟨hnothing hl rfl, hl, s, t, rfl, rfl, hrest rfl, hrest' rfl, h⟩
      · exact .inr (hsame (fun hl hpi => hword ⟨hl, hpi⟩) rfl rfl)
    | blanks hl _ _ hb hb' =>
      exact .inr (hsame (fun hl' => absurd (hl.symm.trans hl') (by decide)) hb hb')
  | left | right => cases hp

end Voiced

end NumericAnswer
