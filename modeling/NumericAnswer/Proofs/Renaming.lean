/-
# Renamed texts

Names of functions, signs, pi and e get their words one rule after the other. Each rule makes texts
that differ in the spellings of glyphs into such texts again, with fewer glyphs: a space parts a word
from the letter or digit next to it, and where a glyph is one and its command is none, the space is
one of the blanks that may differ.

Key definitions: `Rule.Voices`, `gap`, `Side`.
Key theorems: `Voiced.renamed`, `Canonical.voiced_worded`.
-/
import NumericAnswer.Proofs.Voiced

namespace NumericAnswer

/-! ### Rules that give glyphs their words -/

/-- The rule puts words in the places of some of the glyphs that have none, and leaves alone how the
other ones are spelled. -/
structure Rule.Voices (rule : Rule) (glyph : Char → Option Text) (word : Text → Option Text)
    (live live' : Char → Bool) : Prop extends rule.Lexical glyph word where
  closers {c : Char} (hc : endsName c = true) : glyph c = none
  signs {c : Char} (hc : c = '*' ∨ c = '/') : glyph c = none
  kept {g : Char} {name : Text} (hg : glyphName? g = some name) (hl : live' g = live g) :
    glyph g = none ∧ word name = none
  voiced {g : Char} {name : Text} (hg : glyphName? g = some name) (hl : live' g ≠ live g) :
    live g = true ∧ live' g = false ∧ glyph g = some (glyphWord g) ∧ word name = some (glyphWord g)
  others {c : Char} {w : Text} (hc : glyphName? c = none) (h : glyph c = some w) :
    isAlphanumeric c = false ∧ seat c = some c ∧ (w = ['*'] ∨ w = ['-'])
  commands {name w : Text} (h : word name = some w) :
    (w = name ∧ name ≠ []) ∨ w = ['*'] ∨ w = ['/']

theorem glyphWord_ne_nil (g : Char) : glyphWord g ≠ [] := by
  unfold glyphWord
  split
  · decide
  · split <;> decide

theorem any_head?_glyphWord (g : Char) :
    (glyphWord g).head?.any isAlphanumeric = decide (g = 'π') := by
  unfold glyphWord
  split
  · next hg => simpa [hg] using isAlphanumeric_of_isAsciiLetter (c := 'p') (by decide)
  · next hg =>
    rw [decide_eq_false hg]
    split <;> decide +kernel

theorem any_getLast?_glyphWord (g : Char) :
    (glyphWord g).getLast?.any isAlphanumeric = decide (g = 'π') := by
  unfold glyphWord
  split
  · next hg => simpa [hg] using isAlphanumeric_of_isAsciiLetter (c := 'i') (by decide)
  · next hg =>
    rw [decide_eq_false hg]
    split <;> decide +kernel

theorem Sounds.length_pos {live : Char → Bool} {stops : Text → Prop} {g : Char} {name rest x : Text}
    (h : Sounds live stops g name rest x) : 0 < x.length := by
  cases h with
  | spelling _ hx => exact List.length_pos_of_ne_nil hx.ne_nil
  | word => exact List.length_pos_of_ne_nil (glyphWord_ne_nil g)

/-- What the word for a glyph is made of. -/
theorem forall_mem_glyphWord {g : Char} : ∀ c ∈ glyphWord g,
    (isAsciiLetter c = true ∧ g = 'π') ∨ c = '*' ∨ c = '/' := by
  intro c hc
  unfold glyphWord at hc
  split at hc
  · next hg =>
    have hpi : ∀ c ∈ "pi".toList, isAsciiLetter c = true := forall_mem_of_all (by decide)
    exact .inl ⟨hpi c hc, hg⟩
  · split at hc
    · exact .inr (.inr (List.mem_singleton.mp hc))
    · exact .inr (.inl (List.mem_singleton.mp hc))

/-- A space, or none. -/
def gap (b : Bool) : Text :=
  if b then [' '] else []

theorem isAllBlank_gap (b : Bool) : isAllBlank (gap b) = true := by
  cases b <;> decide

/-- Padding puts spaces on both sides of a word. -/
theorem padded_eq {before after : Option Char} {w : Text} (hw : w ≠ []) :
    padded before after w = gap (before.any isAlphanumeric && w.head?.any isAlphanumeric) ++
      (w ++ gap (after.any isAlphanumeric && w.getLast?.any isAlphanumeric)) := by
  obtain ⟨c, w, rfl⟩ := List.exists_cons_of_ne_nil hw
  have hlast : (' ' :: c :: w).getLast? = (c :: w).getLast? := List.getLast?_cons_cons
  unfold padded gap
  simp only
  split
  · rw [hlast]
    split
    · rfl
    · rw [List.append_nil]
      rfl
  · split
    · rfl
    · rw [List.append_nil, List.nil_append]

theorem padded_sign {before after : Option Char} {c : Char} (hc : isAlphanumeric c = false) :
    padded before after [c] = [c] := by
  rw [padded_of_last (w := [c]) hc, List.head?_cons, Option.any_some, hc, Bool.and_false,
    if_neg (by decide)]

namespace Rule.Voices

variable {rule : Rule} {glyph : Char → Option Text} {word : Text → Option Text}
  {live live' : Char → Bool} {c g : Char} {name rest s t w x : Text} {before : Option Char}

theorem word_ne_nil (hr : rule.Voices glyph word live live') {n : Nat}
    (h : rule c s = some (w, n)) : w ≠ [] := by
  by_cases hc : c = '\\'
  · subst hc
    rw [hr.command] at h
    obtain ⟨v, hv, he⟩ := Option.map_eq_some_iff.mp h
    obtain ⟨rfl, -⟩ := Prod.mk.inj he
    rcases hr.commands hv with ⟨rfl, hne⟩ | rfl | rfl
    · exact hne
    · decide
    · decide
  · rw [hr.char hc] at h
    obtain ⟨v, hv, he⟩ := Option.map_eq_some_iff.mp h
    obtain ⟨rfl, -⟩ := Prod.mk.inj he
    cases hg : glyphName? c with
    | none => rcases (hr.others hg hv).2.2 with rfl | rfl <;> decide
    | some name =>
      by_cases hl : live' c = live c
      · exact absurd ((hr.kept hg hl).1.symm.trans hv) (by simp)
      · have hvoiced := (hr.voiced hg hl).2.2.1
        obtain rfl := Option.some.inj (hvoiced.symm.trans hv)
        exact glyphWord_ne_nil c

theorem apart_eq_none (hr : rule.Voices glyph word live live') (hc : c ≠ '\\')
    (hglyph : glyph c = none) (before : Option Char) (s : Text) : rule.apart before c s = none := by
  rw [Rule.apart, hr.char hc, hglyph]
  rfl

/-- What the rule leaves alone stays in front. -/
theorem substituteFrom_plain (hr : rule.Voices glyph word live live')
    (hw : ∀ c ∈ w, c ≠ '\\' ∧ glyph c = none) (before : Option Char) (s : Text) :
    substituteFrom rule.apart before (w ++ s) =
      w ++ substituteFrom rule.apart (w.getLast?.or before) s :=
  substituteFrom_skip (fun c hc => hr.apart_eq_none (hw c hc).1 (hw c hc).2) s

theorem substituteFrom_blanks (hr : rule.Voices glyph word live live') (hw : isAllBlank w = true)
    (before : Option Char) (s : Text) :
    substituteFrom rule.apart before (w ++ s) =
      w ++ substituteFrom rule.apart (w.getLast?.or before) s :=
  hr.substituteFrom_plain (fun c hc => by
    have hblank := List.all_eq_true.mp hw c hc
    exact ⟨Lexical.ne_backslash_of_skips (.inl hblank), hr.skips (.inl hblank)⟩) before s

theorem plain_of_letters (hr : rule.Voices glyph word live live')
    (hw : ∀ c ∈ w, isAsciiLetter c = true) : ∀ c ∈ w, c ≠ '\\' ∧ glyph c = none := fun c hc => by
  have hcommand : InCommand c := .inl (hw c hc)
  exact ⟨hcommand.ne_backslash, hr.skips (.inr (.inr hcommand))⟩

/-- A command that is no glyph stays. -/
theorem apart_of_none (hr : rule.Voices glyph word live live')
    (hw : word (leadingLetters s) = none) (before : Option Char) :
    rule.apart before '\\' s = none := by
  rw [Rule.apart, hr.command, hw]
  rfl

/-- A command that is a glyph is replaced by its word, apart from the letters around it. -/
theorem substituteFrom_command (hr : rule.Voices glyph word live live')
    (hw : word (leadingLetters s) = some w) (before : Option Char) :
    substituteFrom rule.apart before ('\\' :: s) =
      padded before (s.drop (leadingLetters s).length).head? w ++
        substituteFrom rule.apart ((leadingLetters s).getLast?.or (some '\\'))
          (s.drop (leadingLetters s).length) := by
  have hfound : rule.apart before '\\' s =
      some (padded before (s.drop (leadingLetters s).length).head? w, (leadingLetters s).length) := by
    rw [Rule.apart, hr.command, hw, Option.map_some, Option.map_some]
  rw [substituteFrom_of_some hfound, take_leadingLetters, List.getLast?_cons]
  cases (leadingLetters s).getLast? <;> rfl

/-- Behind a letter or digit, letters and digits do not come to the front. -/
theorem clear_substituteFrom (hr : rule.Voices glyph word live live') (hs : ClearFront s)
    (hb : before.any isAlphanumeric = true) : ClearFront (substituteFrom rule.apart before s) := by
  cases s with
  | nil =>
    rw [substituteFrom]
    rfl
  | cons c s =>
    cases hfound : rule c s with
    | none =>
      rw [substituteFrom_of_none (by rw [Rule.apart, hfound]; rfl)]
      exact hs
    | some found =>
      obtain ⟨w, n⟩ := found
      obtain ⟨d, w, rfl⟩ := List.exists_cons_of_ne_nil (hr.word_ne_nil hfound)
      rw [substituteFrom_of_some (show rule.apart before c s = some (_, n) by
        rw [Rule.apart, hfound]; rfl)]
      rw [ClearFront, padded_eq (List.cons_ne_nil d w), hb, Bool.true_and, List.head?_cons,
        Option.any_some]
      cases hd : isAlphanumeric d with
      | true => simpa [gap] using isAlphanumeric_of_isBlank isBlank_space
      | false => simpa [gap] using hd

/-- What ends the name of a command still does. -/
theorem endsName_substituteFrom (hr : rule.Voices glyph word live live')
    (hs : s.head?.all endsName = true) (before : Option Char) :
    (substituteFrom rule.apart before s).head?.all endsName = true := by
  cases s with
  | nil =>
    rw [substituteFrom]
    rfl
  | cons c s =>
    rw [substituteFrom_of_none (hr.apart_eq_none (ne_backslash_of_endsName hs) (hr.closers hs) _ _)]
    exact hs

/-- A glyph that keeps its word, or stays without one. -/
theorem kept_append (hr : rule.Voices glyph word live live') (hg : glyphName? g = some name)
    (hl : live' g = live g) (hx : Sounds live ClearFront g name s x) (before : Option Char) :
    ∃ before', substituteFrom rule.apart before (x ++ s) =
        x ++ substituteFrom rule.apart before' s ∧
      Sounds live' ClearFront g name (substituteFrom rule.apart before' s) x := by
  obtain ⟨hglyph, hword⟩ := hr.kept hg hl
  cases hx with
  | spelling hlive hx =>
    cases hx with
    | glyph =>
      have hne : g ≠ '\\' := by
        simpa using glyph_all (p := fun c => c ≠ '\\') (isSome_of_glyphName hg) (by decide)
      exact ⟨_, hr.substituteFrom_plain (by simp [hne, hglyph]) before s,
        .spelling (hl.trans hlive) .glyph⟩
    | command hs =>
      have hnone : word (leadingLetters (name ++ s)) = none := by
        rwa [leadingLetters_glyphName hg hs]
      rw [List.cons_append, substituteFrom_of_none (hr.apart_of_none hnone before),
        hr.substituteFrom_plain (hr.plain_of_letters (isName_of_glyphName hg).2)]
      exact ⟨_, rfl, .spelling (hl.trans hlive) (.command (hr.endsName_substituteFrom hs _))⟩
  | word hlive hrest =>
    have hplain : ∀ c ∈ glyphWord g, c ≠ '\\' ∧ glyph c = none := by
      intro c hc
      rcases forall_mem_glyphWord c hc with ⟨hletter, -⟩ | hsign
      · exact hr.plain_of_letters (w := [c]) (by simpa using hletter) c (by simp)
      · refine ⟨?_, hr.signs hsign⟩
        rintro rfl
        rcases hsign with h | h <;> cases h
    refine ⟨_, hr.substituteFrom_plain hplain before s, .word (hl.trans hlive) fun hpi => ?_⟩
    refine hr.clear_substituteFrom (hrest hpi) ?_
    rw [List.getLast?_eq_some_getLast (glyphWord_ne_nil g), Option.some_or,
      ← List.getLast?_eq_some_getLast, any_getLast?_glyphWord, hpi]
    rfl

/-- A glyph that gets its word, with spaces where letters or digits stand next to it. -/
theorem voiced_append (hr : rule.Voices glyph word live live') (hg : glyphName? g = some name)
    (hl : live' g ≠ live g) (hx : Spelling g name s x) (before : Option Char) :
    ∃ before' b, isAllBlank b = true ∧ substituteFrom rule.apart before (x ++ s) =
        gap (before.any isAlphanumeric && decide (g = 'π')) ++
          (glyphWord g ++ (b ++ substituteFrom rule.apart before' s)) ∧
      (g = 'π' → ClearFront (b ++ substituteFrom rule.apart before' s)) := by
  obtain ⟨-, -, hglyph, hword⟩ := hr.voiced hg hl
  have hpadded : ∃ before', (g = 'π' → before'.any isAlphanumeric = true) ∧
      substituteFrom rule.apart before (x ++ s) =
        padded before s.head? (glyphWord g) ++ substituteFrom rule.apart before' s := by
    cases hx with
    | glyph =>
      have hne : g ≠ '\\' := by
        simpa using glyph_all (p := fun c => c ≠ '\\') (isSome_of_glyphName hg) (by decide)
      have hfound : rule.apart before g s = some (padded before s.head? (glyphWord g), 0) := by
        rw [Rule.apart, hr.char hne, hglyph]
        rfl
      refine ⟨some g, fun hpi => ?_, by
        rw [List.singleton_append, substituteFrom_of_some hfound]
        rfl⟩
      rw [hpi]
      decide +kernel
    | command hs =>
      have hletters := leadingLetters_glyphName hg hs
      have hfound := hr.substituteFrom_command (s := name ++ s) (hletters.symm ▸ hword) before
      rw [hletters, List.drop_left] at hfound
      refine ⟨_, fun _ => ?_, hfound⟩
      obtain ⟨hne, hname⟩ := isName_of_glyphName hg
      rw [List.getLast?_eq_some_getLast hne, Option.some_or, Option.any_some]
      exact isAlphanumeric_of_isAsciiLetter (hname _ (List.getLast_mem hne))
  obtain ⟨before', hbefore, hs⟩ := hpadded
  refine ⟨before', gap (s.head?.any isAlphanumeric && decide (g = 'π')), isAllBlank_gap _, ?_,
    fun hpi => ?_⟩
  · rw [hs, padded_eq (glyphWord_ne_nil g), any_head?_glyphWord, any_getLast?_glyphWord,
      List.append_assoc, List.append_assoc]
  · cases hclear : s.head?.any isAlphanumeric with
    | true => simpa [ClearFront, gap, hpi] using isAlphanumeric_of_isBlank isBlank_space
    | false => exact hr.clear_substituteFrom hclear (hbefore hpi)

end Rule.Voices

/-! ### Renamed texts -/

/-- A letter or digit stands before a text if the text is behind one. -/
def Side (p before : Option Char) : Prop :=
  ∀ c, p = some c → before.any isAlphanumeric = isAlphanumeric c

section Renamed

variable {rule : Rule} {glyph : Char → Option Text} {word : Text → Option Text}
  {live live' : Char → Bool} {p before before' : Option Char} {c g : Char}
  {b b' d d' name s t w x y : Text}

theorem Before.isAllBlank (h : Before live p g b b') :
    NumericAnswer.isAllBlank b = true ∧ NumericAnswer.isAllBlank b' = true := by
  cases h with
  | nothing => exact ⟨rfl, rfl⟩
  | blanks _ _ _ hb hb' => exact ⟨hb, hb'⟩

theorem Before.congr (h : Before live p g b b') (hl : live' g = live g) : Before live' p g b b' := by
  cases h with
  | nothing h => exact .nothing fun hlive => h (hl.symm.trans hlive)
  | blanks hlive hp hg hb hb' => exact .blanks (hl.trans hlive) hp hg hb hb'

theorem side_self (p : Option Char) : Side p p := by
  rintro c rfl
  rfl

theorem side_seat (c : Char) : Side (seat c) (some c) := by
  intro d hd
  unfold seat at hd
  split at hd
  · cases hd
  · rw [Option.some.inj hd]
    rfl

theorem side_none : Side none before :=
  fun _ h => by cases h

/-- The rule makes texts up to a length that differ in spellings into such texts. -/
def Rule.Renames (rule : Rule) (live live' : Char → Bool) (length : Nat) : Prop :=
  ∀ {p before before' : Option Char} {s t : Text}, s.length + t.length ≤ length →
    Voiced live ClearFront p s t → Side p before → Side p before' →
      Voiced live' ClearFront p (substituteFrom rule.apart before s)
        (substituteFrom rule.apart before' t)

namespace Voiced

/-- A glyph that gets its word. Where a letter or digit stands before it, there are blanks in both
texts: those there were, or a space that is new. -/
theorem renamed_voiced (hr : rule.Voices glyph word live live') (hg : glyphName? g = some name)
    (hl : live' g ≠ live g) (hx : Spelling g name s x) (hy : Spelling g name t y)
    (hb : Before live p g (d ++ b) (d' ++ b')) (hside : Side p before) (hside' : Side p before')
    (ih : ∀ before before', Voiced live' ClearFront none (substituteFrom rule.apart before s)
      (substituteFrom rule.apart before' t)) :
    Voiced live' ClearFront p
      ((d ++ b) ++ substituteFrom rule.apart (b.getLast?.or before) (x ++ s))
      ((d' ++ b') ++ substituteFrom rule.apart (b'.getLast?.or before') (y ++ t)) := by
  obtain ⟨hlive, hlive', -⟩ := hr.voiced hg hl
  obtain ⟨hblank, hblank'⟩ := hb.isAllBlank
  obtain ⟨_, e, he, hs, hclear⟩ := hr.voiced_append hg hl hx (b.getLast?.or before)
  obtain ⟨_, e', he', ht, hclear'⟩ := hr.voiced_append hg hl hy (b'.getLast?.or before')
  rw [hs, ht, ← List.append_assoc (d ++ b), ← List.append_assoc (d' ++ b')]
  have hword : ∀ {q}, (g = 'π' → q.any isAlphanumeric = false) → Voiced live' ClearFront q
      (glyphWord g ++ (e ++ substituteFrom rule.apart _ s))
      (glyphWord g ++ (e' ++ substituteFrom rule.apart _ t)) := fun hq =>
    ((ih _ _).blanks_append he he').glyph_front hg (.word hlive' hclear) (.word hlive' hclear')
      fun _ => hq
  have hall : ∀ {b : Text} (k : Bool), isAllBlank b = true → isAllBlank (b ++ gap k) = true :=
    fun k hb => isAllBlank_append.mpr ⟨hb, isAllBlank_gap k⟩
  cases p with
  | none => exact (hword fun _ => rfl).blanks_append (hall _ hblank) (hall _ hblank')
  | some c =>
    have hbefore : ∀ {b : Text} {before : Option Char}, Side (some c) before → b = [] →
        (b.getLast?.or before).any isAlphanumeric = isAlphanumeric c := by
      rintro _ before hside rfl
      exact hside c rfl
    cases hpi : isAlphanumeric c && decide (g = 'π') with
    | true =>
      have hne : ∀ {d b : Text} {before : Option Char}, Side (some c) before →
          (d ++ b) ++ gap ((b.getLast?.or before).any isAlphanumeric && decide (g = 'π')) ≠ [] := by
        intro d b before hside hnil
        obtain ⟨hdb, hgap⟩ := List.append_eq_nil_iff.mp hnil
        rw [hbefore hside (List.append_eq_nil_iff.mp hdb).2, hpi] at hgap
        cases hgap
      exact (hword fun _ => rfl).rows_append (hall _ hblank) (hall _ hblank') (hne hside)
        (hne hside')
    | false =>
      have hplain : g = 'π' → isAlphanumeric c = false := fun hg => by
        rwa [decide_eq_true hg, Bool.and_true] at hpi
      generalize hB : d ++ b = B, hB' : d' ++ b' = B' at hb
      cases hb with
      | nothing =>
        rw [hbefore hside (List.append_eq_nil_iff.mp hB).2,
          hbefore hside' (List.append_eq_nil_iff.mp hB').2, hpi]
        exact hword hplain
      | blanks _ hp hgalpha =>
        have honly := glyph_all (p := fun g => !isAlphanumeric g || decide (g = 'π'))
          (isSome_of_glyphName hg) (by decide +kernel)
        simp only [hgalpha, Bool.not_true, Bool.false_or, decide_eq_true_eq] at honly
        exact absurd (hp.symm.trans (hplain honly)) (by decide)

/-- A glyph at the front of both texts. -/
theorem renamed_glyph (hr : rule.Voices glyph word live live') (hg : glyphName? g = some name)
    (hx : Sounds live ClearFront g name s x) (hy : Sounds live ClearFront g name t y)
    (hb : Before live p g (d ++ b) (d' ++ b')) (hside : Side p before) (hside' : Side p before')
    (ih : ∀ before before', Voiced live' ClearFront none (substituteFrom rule.apart before s)
      (substituteFrom rule.apart before' t)) :
    Voiced live' ClearFront p (d ++ substituteFrom rule.apart before (b ++ (x ++ s)))
      (d' ++ substituteFrom rule.apart before' (b' ++ (y ++ t))) := by
  obtain ⟨hblank, hblank'⟩ := hb.isAllBlank
  rw [hr.substituteFrom_blanks (isAllBlank_append.mp hblank).2,
    hr.substituteFrom_blanks (isAllBlank_append.mp hblank').2, ← List.append_assoc,
    ← List.append_assoc]
  by_cases hl : live' g = live g
  · obtain ⟨_, hs, hx'⟩ := hr.kept_append hg hl hx (b.getLast?.or before)
    obtain ⟨_, ht, hy'⟩ := hr.kept_append hg hl hy (b'.getLast?.or before')
    rw [hs, ht]
    exact .glyph hg hx' hy' (hb.congr hl) (ih _ _)
  · have hspelling : ∀ {rest x : Text}, Sounds live ClearFront g name rest x →
        Spelling g name rest x := by
      intro rest x hx
      cases hx with
      | spelling _ hx => exact hx
      | word hdead => exact absurd ((hr.voiced hg hl).1.symm.trans hdead) (by decide)
    exact renamed_voiced hr hg hl (hspelling hx) (hspelling hy) hb hside hside' ih

/-- Behind a word, with the space that parts it from a letter or digit. -/
theorem renamed_after (hr : rule.Voices glyph word live live') (hc : isAlphanumeric c = true)
    (h : Voiced live ClearFront (some c) s t) (ih : rule.Renames live live' (s.length + t.length)) :
    Voiced live' ClearFront (some c)
      (gap (s.head?.any isAlphanumeric) ++ substituteFrom rule.apart (some c) s)
      (gap (t.head?.any isAlphanumeric) ++ substituteFrom rule.apart (some c) t) := by
  have hside := side_self (some c)
  have hsame : s.head?.any isAlphanumeric = t.head?.any isAlphanumeric →
      Voiced live' ClearFront (some c)
        (gap (s.head?.any isAlphanumeric) ++ substituteFrom rule.apart (some c) s)
        (gap (t.head?.any isAlphanumeric) ++ substituteFrom rule.apart (some c) t) := by
    intro hhead
    have hlater := ih (Nat.le_refl _) h hside hside
    rw [hhead]
    cases t.head?.any isAlphanumeric with
    | true => exact .blank isBlank_space isBlank_space hlater.freed
    | false => exact hlater
  cases h with
  | nil => exact hsame rfl
  | char => exact hsame rfl
  | blank he he' =>
    refine hsame ?_
    rw [List.head?_cons, List.head?_cons, Option.any_some, Option.any_some,
      isAlphanumeric_of_isBlank he, isAlphanumeric_of_isBlank he']
  | @glyph _ g name b b' x y s t hg hx hy hb h =>
    -- A space stands before the glyph and none before its command, which is no letter.
    refine renamed_glyph hr hg hx hy ?_ hside hside fun before before' =>
      ih ?_ h side_none side_none
    · have hall : ∀ {b : Text} (k : Bool), isAllBlank b = true → isAllBlank (gap k ++ b) = true :=
        fun k hb => isAllBlank_append.mpr ⟨isAllBlank_gap k, hb⟩
      obtain ⟨hblank, hblank'⟩ := hb.isAllBlank
      cases hb with
      | nothing hnothing =>
        by_cases hlive : live g = true ∧ isAlphanumeric g = true
        · exact .blanks hlive.1 hc hlive.2 (hall _ hblank) (hall _ hblank')
        · have hhead : ∀ {rest x : Text}, Sounds live ClearFront g name rest x →
              ([] ++ (x ++ rest)).head?.any isAlphanumeric = false := fun hx =>
            head?_of_sounds hx
              (fun hl => Bool.eq_false_iff.mpr fun halpha => hlive ⟨hl, halpha⟩)
              (fun hl hpi => absurd (hc.symm.trans (hnothing hl hpi)) (by decide)) _
          rw [hhead hx, hhead hy]
          exact .nothing hnothing
      | blanks hlive _ hgalpha => exact .blanks hlive hc hgalpha (hall _ hblank) (hall _ hblank')
    · simp only [List.length_append]
      omega

/-- A name that becomes a word, with spaces where letters or digits stand next to it. -/
theorem renamed_name (hr : rule.Voices glyph word live live')
    (hw : ∀ c ∈ w, isAsciiLetter c = true) (hne : w ≠ [])
    (h : Voiced live ClearFront (w.getLast?.or p) s t)
    (ih : rule.Renames live live' (s.length + t.length)) (hside : Side p before)
    (hside' : Side p before') :
    Voiced live' ClearFront p
      (padded before s.head? w ++ substituteFrom rule.apart w.getLast? s)
      (padded before' t.head? w ++ substituteFrom rule.apart w.getLast? t) := by
  obtain ⟨l, hl⟩ : ∃ l, w.getLast? = some l := ⟨_, List.getLast?_eq_some_getLast hne⟩
  have halpha : isAlphanumeric l = true :=
    isAlphanumeric_of_isAsciiLetter (hw l (List.mem_of_getLast? hl))
  have hhead : w.head?.any isAlphanumeric = true := by
    obtain ⟨c, w, rfl⟩ := List.exists_cons_of_ne_nil hne
    rw [List.head?_cons, Option.any_some]
    exact isAlphanumeric_of_isAsciiLetter (hw c (List.mem_cons_self ..))
  rw [hl, Option.some_or] at h
  have hafter := renamed_after hr halpha h ih
  have hword : ∀ {q}, Voiced live' ClearFront q _ _ := fun {q} =>
    word_append (p := q) hw (by rw [hl, Option.some_or]; exact hafter)
  rw [padded_eq hne, padded_eq hne, hhead, hl, Option.any_some, halpha]
  simp only [Bool.and_true, List.append_assoc]
  cases p with
  | none => exact hword.blanks_append (isAllBlank_gap _) (isAllBlank_gap _)
  | some c =>
    rw [hside c rfl, hside' c rfl]
    cases isAlphanumeric c with
    | false => exact hword
    | true => exact hword.rows_append (by decide) (by decide) (by decide) (by decide)

/-- A command at the front of both texts. -/
theorem renamed_command (hr : rule.Voices glyph word live live')
    (h : Voiced live ClearFront (some '\\') s t) (hside : Side p before) (hside' : Side p before')
    (hkeep : rule.apart before '\\' s = none → rule.apart before' '\\' t = none →
      Voiced live' ClearFront p (substituteFrom rule.apart before ('\\' :: s))
        (substituteFrom rule.apart before' ('\\' :: t)))
    (ih : rule.Renames live live' (s.length + t.length)) :
    Voiced live' ClearFront p (substituteFrom rule.apart before ('\\' :: s))
      (substituteFrom rule.apart before' ('\\' :: t)) := by
  rcases h.letters with ⟨-, hdead, r, r', rfl, rfl, hclear, hclear', -⟩ | ⟨hletters, hrest⟩
  · -- The letters behind the backslash have taken the place of a glyph, and are no command.
    have hl : live' 'π' = live 'π' := by
      by_contra hl
      exact absurd (hdead.symm.trans (hr.voiced rfl hl).1) (by decide)
    have hword : ∀ {r : Text}, ClearFront r → word (leadingLetters ("pi".toList ++ r)) = none := by
      intro r hr'
      rw [leadingLetters_append_of_head hr'.head?_letter]
      exact (hr.kept rfl hl).2
    exact hkeep (hr.apart_of_none (hword hclear) _) (hr.apart_of_none (hword hclear') _)
  · cases hw : word (leadingLetters s) with
    | none => exact hkeep (hr.apart_of_none hw _) (hr.apart_of_none (hletters ▸ hw) _)
    | some w =>
      rw [hr.substituteFrom_command hw, hr.substituteFrom_command (hletters ▸ hw), ← hletters]
      rw [← hletters] at hrest
      have hname := isAsciiLetter_of_mem_leadingLetters (s := s)
      generalize leadingLetters s = name at hw hrest hname
      have hlighter : rule.Renames live live' ((s.drop name.length).length +
          (t.drop name.length).length) := fun hle => ih (hle.trans (by
        simp only [List.length_drop]
        omega))
      rcases hr.commands hw with ⟨rfl, hne⟩ | hsign
      · have hlast : w.getLast?.or (some '\\') = w.getLast?.or p := by
          rw [List.getLast?_eq_some_getLast hne]
          rfl
        have hlast' : w.getLast?.or (some '\\') = w.getLast? := by
          rw [List.getLast?_eq_some_getLast hne]
          rfl
        rw [hlast] at hrest
        rw [hlast']
        exact renamed_name hr hname hne hrest hlighter hside hside'
      · have hpadded : ∀ before after : Option Char, padded before after w = w := by
          intro before after
          rcases hsign with rfl | rfl <;> exact padded_sign (by decide +kernel)
        have hlater := hlighter (Nat.le_refl _) hrest (side_self _) (side_self _)
        rw [hpadded, hpadded]
        rcases hsign with rfl | rfl <;> exact .char (by decide) (by decide) hlater.freed

/-- A character at the front of both texts that the rule replaces by a sign. -/
theorem renamed_sign (hr : rule.Voices glyph word live live') (hc : glyphName? c = none)
    (hbackslash : c ≠ '\\') (hglyph : glyph c = some w)
    (ih : Voiced live' ClearFront (seat c) (substituteFrom rule.apart (some c) s)
      (substituteFrom rule.apart (some c) t)) :
    Voiced live' ClearFront p (substituteFrom rule.apart before (c :: s))
      (substituteFrom rule.apart before' (c :: t)) := by
  obtain ⟨halpha, hseat, hw⟩ := hr.others hc hglyph
  have hfound : ∀ before s, rule.apart before c s = some (w, 0) := by
    intro before s
    have hplain : padded before s.head? w = w := by
      rcases hw with rfl | rfl <;> exact padded_sign (by decide +kernel)
    rw [Rule.apart, hr.char hbackslash, hglyph]
    exact congrArg (fun w => some (w, 0)) hplain
  rw [substituteFrom_of_some (hfound _ _), substituteFrom_of_some (hfound _ _)]
  rw [hseat] at ih
  rcases hw with rfl | rfl
  · exact .char (by decide) (by decide) ih.freed
  · exact .char (by decide) (by decide) (ih.congr (halpha.trans (by decide +kernel)))

/-- **Renamed texts differ as the texts do**, but for the glyphs that have their words now. -/
theorem renamed (hr : rule.Voices glyph word live live') (h : Voiced live ClearFront p s t)
    (hside : Side p before) (hside' : Side p before') :
    Voiced live' ClearFront p (substituteFrom rule.apart before s)
      (substituteFrom rule.apart before' t) := by
  induction hn : s.length + t.length using Nat.strong_induction_on
    generalizing p s t before before' with
  | _ n ih =>
  subst hn
  have hrenames : ∀ {length}, length < s.length + t.length → rule.Renames live live' length :=
    fun hlt _ _ _ _ _ hle h hside hside' => ih _ (hle.trans_lt hlt) h hside hside' rfl
  have hblank : ∀ {e : Char} {before : Option Char} {s : Text}, isBlank e = true →
      substituteFrom rule.apart before (e :: s) = e :: substituteFrom rule.apart (some e) s :=
    fun he => substituteFrom_of_none
      (hr.apart_eq_none (Rule.Lexical.ne_backslash_of_skips (.inl he)) (hr.skips (.inl he)) _ _)
  cases h with
  | nil =>
    rw [substituteFrom, substituteFrom]
    exact .nil
  | blank he he' h =>
    rw [hblank he, hblank he']
    exact .blank he he' (ih _ (by simp only [List.length_cons]; omega) h side_none side_none rfl)
  | left he h =>
    rw [hblank he]
    exact .left he (ih _ (by simp only [List.length_cons]; omega) h side_none side_none rfl)
  | right he h =>
    rw [hblank he]
    exact .right he (ih _ (by simp only [List.length_cons]; omega) h side_none side_none rfl)
  | @glyph _ g name b b' x y s t hg hx hy hb h =>
    change Voiced live' ClearFront p ([] ++ _) ([] ++ _)
    refine renamed_glyph hr hg hx hy hb hside hside' fun before before' =>
      ih _ ?_ h side_none side_none rfl
    have := hx.length_pos
    simp only [List.length_append]
    omega
  | @char _ c s t hb hc h =>
    have hlater := @hrenames (s.length + t.length) (by simp only [List.length_cons]; omega)
    have hrest := hlater (Nat.le_refl _) h (side_seat c) (side_seat c)
    have hkeep : rule.apart before c s = none → rule.apart before' c t = none →
        Voiced live' ClearFront p (substituteFrom rule.apart before (c :: s))
          (substituteFrom rule.apart before' (c :: t)) := by
      intro hs ht
      rw [substituteFrom_of_none hs, substituteFrom_of_none ht]
      exact .char hb hc hrest
    by_cases hbackslash : c = '\\'
    · subst hbackslash
      exact renamed_command hr h hside hside' hkeep hlater
    · cases hglyph : glyph c with
      | none =>
        have hnone := hr.apart_eq_none hbackslash hglyph
        exact hkeep (hnone _ _) (hnone _ _)
      | some w => exact renamed_sign hr hc hbackslash hglyph hrest

end Voiced
end Renamed

/-! ### The rules in turn -/

namespace Rule

theorem voices_functionName : functionName.Voices (fun _ => none)
    (fun name => (UnaryFunction.ofCommand? name).map fun f => f.name.toList) (fun _ => true)
    (fun _ => true) where
  toLexical := lexical_functionName
  closers _ := rfl
  signs _ := rfl
  kept {g name} hg _ := by
    have hnone := glyphName_all (p := fun name => (UnaryFunction.ofCommand? name).isNone) hg
      (by decide +kernel)
    exact ⟨rfl, by rw [Option.isNone_iff_eq_none.mp hnone]; rfl⟩
  voiced _ hl := absurd rfl hl
  others _ h := by cases h
  commands {name w} h := by
    obtain ⟨f, hf, rfl⟩ := Option.map_eq_some_iff.mp h
    have hname : f.name.toList = name := by simpa using List.find?_some hf
    exact .inl ⟨hname, hname ▸ f.isName.1⟩

theorem voices_sign : sign.Voices
    (fun c => if timesGlyphs.contains c then some ['*'] else if c = '÷' then some ['/']
      else if c = '−' then some ['-'] else none)
    (fun name => if ["times".toList, "cdot".toList, "ast".toList].contains name then some ['*']
      else if name = "div".toList then some ['/'] else none)
    (fun _ => true) (fun g => g = 'π') where
  toLexical := lexical_sign
  closers {c} hc := by
    simp only [endsName, Bool.or_eq_true, decide_eq_true_eq] at hc
    rcases hc with (hc | rfl) | rfl
    · exact lexical_sign.skips (.inl hc)
    · decide
    · decide
  signs {c} hc := by
    rcases hc with rfl | rfl <;> decide
  kept {g name} hg hl := by
    rcases glyphName_cases hg with ⟨rfl, rfl⟩ | ⟨rfl, rfl⟩ | ⟨rfl, rfl⟩ | ⟨rfl, rfl⟩
    · decide
    all_goals exact absurd hl (by decide)
  voiced {g name} hg hl := by
    rcases glyphName_cases hg with ⟨rfl, rfl⟩ | ⟨rfl, rfl⟩ | ⟨rfl, rfl⟩ | ⟨rfl, rfl⟩
    · exact absurd rfl hl
    all_goals decide
  others {c w} hc h := by
    have hminus : isAlphanumeric '−' = false ∧ isAlphanumeric '∙' = false ∧
        isAlphanumeric '⋅' = false := by
      decide +kernel
    split at h
    · next htimes =>
      have hmem : c ∈ timesGlyphs := by simpa using htimes
      obtain rfl := Option.some.inj h
      simp only [timesGlyphs, List.mem_cons, List.not_mem_nil, or_false] at hmem
      rcases hmem with rfl | rfl | rfl | rfl
      · cases hc
      · cases hc
      · exact ⟨hminus.2.1, rfl, .inl rfl⟩
      · exact ⟨hminus.2.2, rfl, .inl rfl⟩
    · split at h
      · next hdivision =>
        rw [hdivision] at hc
        cases hc
      · split at h
        · next hsign =>
          obtain rfl := Option.some.inj h
          rw [hsign]
          exact ⟨hminus.1, rfl, .inr rfl⟩
        · cases h
  commands {name w} h := by
    repeat' split at h
    · exact .inr (.inl (Option.some.inj h).symm)
    · exact .inr (.inr (Option.some.inj h).symm)
    · cases h

theorem voices_pi : pi.Voices (fun c => if c = 'π' then some "pi".toList else none)
    (fun name => if ["pi".toList].contains name then some "pi".toList else none)
    (fun g => g = 'π') (fun _ => false) where
  toLexical := lexical_pi
  closers {c} hc := by
    refine if_neg ?_
    rintro rfl
    cases hc
  signs {c} hc := by
    rcases hc with rfl | rfl <;> decide
  kept {g name} hg hl := by
    rcases glyphName_cases hg with ⟨rfl, rfl⟩ | ⟨rfl, rfl⟩ | ⟨rfl, rfl⟩ | ⟨rfl, rfl⟩
    · exact absurd hl (by decide)
    all_goals decide
  voiced {g name} hg hl := by
    rcases glyphName_cases hg with ⟨rfl, rfl⟩ | ⟨rfl, rfl⟩ | ⟨rfl, rfl⟩ | ⟨rfl, rfl⟩
    · decide
    all_goals exact absurd rfl hl
  others {c w} hc h := by
    split at h
    · next hpi =>
      rw [hpi] at hc
      cases hc
    · cases h
  commands {name w} h := by
    split at h
    · next hname =>
      obtain rfl : name = "pi".toList := by simpa using hname
      exact .inl ⟨(Option.some.inj h).symm, by decide⟩
    · cases h

theorem voices_e : e.Voices (fun _ => none)
    (fun name => if ["e".toList].contains name then some ['e'] else none) (fun _ => false)
    (fun _ => false) where
  toLexical := lexical_e
  closers _ := rfl
  signs _ := rfl
  kept {g name} hg _ := ⟨rfl, by
    rcases glyphName_cases hg with ⟨-, rfl⟩ | ⟨-, rfl⟩ | ⟨-, rfl⟩ | ⟨-, rfl⟩ <;> decide⟩
  voiced _ hl := absurd rfl hl
  others _ h := by cases h
  commands {name w} h := by
    split at h
    · next hname =>
      obtain rfl : name = "e".toList := by simpa using hname
      exact .inl ⟨(Option.some.inj h).symm, by decide⟩
    · cases h

/-- Signs need no spaces next to them. -/
theorem sign_apart : sign.apart = fun _ => sign := by
  funext before c s
  unfold apart
  cases h : sign c s with
  | none => rfl
  | some found =>
    obtain ⟨w, n⟩ := found
    have hw : w = ['*'] ∨ w = ['/'] ∨ w = ['-'] := by
      simp only [sign] at h
      repeat' split at h
      all_goals cases h <;> simp
    have hplain : padded before (s.drop n).head? w = w := by
      rcases hw with rfl | rfl | rfl <;> exact padded_sign (by decide +kernel)
    exact congrArg (fun w => some (w, n)) hplain

end Rule

/-- **Texts that differ in their spellings have the same words**, but for blanks where they mean
nothing. -/
theorem Canonical.voiced_worded {s t : Text} (h : Glossed true false s t) :
    Voiced (fun _ => false) ClearFront none (worded s) (worded t) := by
  have hside : Side none none := side_self none
  have hspelled : Voiced (fun _ => true) ClearFront none s t := .of_glossed h (by decide)
  have hname := hspelled.renamed Rule.voices_functionName hside hside
  have hsign := hname.renamed Rule.voices_sign hside hside
  rw [Rule.sign_apart] at hsign
  have hpi := hsign.renamed Rule.voices_pi hside hside
  exact hpi.renamed Rule.voices_e hside hside

end NumericAnswer
