/-
# Cosmetic macros around glyphs

An answer loses its wrappers and cosmetic macros in the same way however its glyphs are spelled:
no macro that is dropped or replaced takes in a glyph, but for the names in upright letters. If
these are the same, the simplified answers differ in their spellings only.

Key definitions: `trimEnd`, `Rule.replacements`, `Rule.Blind`.
Key theorems: `Glossed.unwrapped`, `Glossed.substituted`, `Canonical.glossed_simplified`.
-/
import NumericAnswer.Proofs.Glyphs
import NumericAnswer.Proofs.Reworded

namespace NumericAnswer

/-! ### The end of a text -/

/-- The text without the characters of a kind at its end. -/
def trimEnd (p : Char → Bool) (s : Text) : Text :=
  (s.reverse.dropWhile p).reverse

section Trim

variable {free : Bool} {s t : Text} {p : Char → Bool}

theorem trimEnd_cons (p : Char → Bool) (c : Char) (s : Text) :
    trimEnd p (c :: s) = if trimEnd p s = [] ∧ p c = true then [] else c :: trimEnd p s := by
  unfold trimEnd
  rw [List.reverse_cons, List.dropWhile_append]
  by_cases hs : s.reverse.dropWhile p = []
  · cases hc : p c <;> simp [hs, hc]
  · simp [hs]

theorem trimEnd_append {x : Text} (hx : x ≠ []) (hlast : x.getLast?.any p = false) (s : Text) :
    trimEnd p (x ++ s) = x ++ trimEnd p s := by
  obtain ⟨x, d, rfl⟩ := List.eq_nil_or_concat x |>.resolve_left hx
  rw [List.concat_eq_append] at hlast ⊢
  rw [List.getLast?_concat] at hlast
  rw [List.append_assoc, List.append_assoc, List.singleton_append, List.singleton_append]
  exact reverse_dropWhile_reverse_append hlast x s

theorem head?_trimEnd (p : Char → Bool) (s : Text) :
    trimEnd p s = [] ∨ (trimEnd p s).head? = s.head? := by
  cases s with
  | nil => exact .inl rfl
  | cons c s =>
    rw [trimEnd_cons]
    split
    · exact .inl rfl
    · exact .inr rfl

/-- What is dropped at the end does not belong to the spelling of a glyph, and if it is a kind of
blank, then all blanks are dropped. -/
structure Trims (p : Char → Bool) : Prop where
  glyphs : ['π', '×', '·', '÷', '\\'].all (fun c => !p c) = true
  letter {c : Char} (hc : isAsciiLetter c = true) : p c = false
  blank : (∀ c, isBlank c = true → p c = true) ∨ (∀ c, isBlank c = true → p c = false)

theorem trims_isBlank : Trims isBlank where
  glyphs := by decide
  letter hc := isBlank_of_lexeme_char (.inl hc)
  blank := .inl fun _ => id

theorem trims_dollar : Trims (· = '$') where
  glyphs := by decide
  letter {c} hc := by
    by_contra h
    obtain rfl : c = '$' := by simpa using h
    cases hc
  blank := .inr fun c hc => by
    by_contra h
    obtain rfl : c = '$' := by simpa using h
    cases hc

theorem Spelling.trimEnd_append {g : Char} {name rest x : Text} (hp : Trims p)
    (hx : Spelling g name rest x) (hg : glyphName? g = some name) (s : Text) :
    trimEnd p (x ++ s) = x ++ trimEnd p s := by
  have hall := hx.forall_mem (p := fun c => p c = false) hg
    (List.all_eq_true.mpr fun c hc => by
      have := List.all_eq_true.mp hp.glyphs c (by
        simp only [List.mem_cons, List.not_mem_nil, or_false] at hc ⊢
        tauto)
      simpa using this)
    (by simpa using List.all_eq_true.mp hp.glyphs '\\' (by simp)) fun _ => hp.letter
  refine NumericAnswer.trimEnd_append hx.ne_nil ?_ s
  rw [List.getLast?_eq_some_getLast hx.ne_nil]
  exact hall _ (List.getLast_mem hx.ne_nil)

theorem Spelling.before_trimEnd {g : Char} {name x : Text} (hx : Spelling g name s x) :
    Spelling g name (trimEnd p s) x := by
  refine hx.before fun hs => ?_
  rcases head?_trimEnd p s with h | h
  · rw [h]
    rfl
  · rwa [h]

theorem Glossed.trimEnd (hp : Trims p) (h : Glossed false free s t) :
    Glossed false free (trimEnd p s) (trimEnd p t) ∧
      (free = false ∨ (∀ c, isBlank c = true → p c = true) →
        (NumericAnswer.trimEnd p s = [] ↔ NumericAnswer.trimEnd p t = [])) := by
  induction h with
  | nil => exact ⟨.nil, fun _ => Iff.rfl⟩
  | @char _ c s t hc h ih =>
    rw [trimEnd_cons, trimEnd_cons]
    cases hpc : p c with
    | false => exact ⟨by simpa using .char hc ih.1, by simp⟩
    | true =>
      -- Either the character frees nothing, or all blanks are dropped.
      have hiff := ih.2 (hp.blank.elim .inr fun hblank => .inl (by
        cases hb : isBlank c with
        | false => simp [frees, hb]
        | true => exact absurd (hpc.symm.trans (hblank c hb)) (by decide)))
      by_cases hs : NumericAnswer.trimEnd p s = []
      · rw [if_pos ⟨hs, rfl⟩, if_pos ⟨hiff.mp hs, rfl⟩]
        exact ⟨.nil, fun _ => Iff.rfl⟩
      · rw [if_neg fun h => hs h.1, if_neg fun h => hs (hiff.mpr h.1)]
        exact ⟨.char hc ih.1, fun _ => by simp⟩
  | glyph hg hx hy _ ih =>
    rw [hx.trimEnd_append hp hg, hy.trimEnd_append hp hg]
    refine ⟨.glyph hg hx.before_trimEnd hy.before_trimEnd ih.1, fun _ => ?_⟩
    simp [hx.ne_nil, hy.ne_nil]
  | @left e s t he _ ih =>
    rw [trimEnd_cons]
    split
    · next hnil => exact ⟨hnil.1 ▸ ih.1, fun hfree => by simpa [hnil.1] using ih.2 hfree⟩
    · next hne =>
      refine ⟨.left he ih.1, fun hfree => ?_⟩
      have hall := hfree.resolve_left (by decide)
      have hs : NumericAnswer.trimEnd p s ≠ [] := fun hnil => hne ⟨hnil, hall e he⟩
      simpa [hs] using ih.2 hfree
  | @right e s t he _ ih =>
    rw [trimEnd_cons]
    split
    · next hnil => exact ⟨hnil.1 ▸ ih.1, fun hfree => by simpa [hnil.1] using ih.2 hfree⟩
    · next hne =>
      refine ⟨.right he ih.1, fun hfree => ?_⟩
      have hall := hfree.resolve_left (by decide)
      have ht : NumericAnswer.trimEnd p t ≠ [] := fun hnil => hne ⟨hnil, hall e he⟩
      simpa [ht] using ih.2 hfree

end Trim

/-! ### Wrappers -/

section Wrappers

variable {free : Bool} {g : Char} {name rest s t x : Text}

theorem dropDisplayClosing_cons (c : Char) (s : Text) : dropDisplayClosing (c :: s) =
    if c = '\\' ∧ (s = [']'] ∨ s = [')']) then [] else c :: dropDisplayClosing s := by
  rcases List.eq_nil_or_concat s with rfl | ⟨u, e, rfl⟩
  · simp [dropDisplayClosing]
  · rw [List.concat_eq_append]
    rcases List.eq_nil_or_concat u with rfl | ⟨u, d, rfl⟩
    · have hpair := dropDisplayClosing_escape [] c e
      have hone : dropDisplayClosing [e] = [e] := by simp [dropDisplayClosing]
      simpa [hone] using hpair
    · have hsplit : (u ++ [d]) ++ [e] = u ++ [d, e] := by simp
      have hcons := dropDisplayClosing_escape (c :: u) d e
      have hlong : ¬(c = '\\' ∧ (u ++ [d, e] = [']'] ∨ u ++ [d, e] = [')'])) := by
        rintro ⟨-, h | h⟩ <;> simpa using congrArg List.length h
      rw [List.concat_eq_append, hsplit, if_neg hlong, ← List.cons_append, hcons,
        dropDisplayClosing_escape]
      split <;> rfl

theorem head?_dropDisplayClosing (hs : s.head?.all endsName = true) :
    (dropDisplayClosing s).head? = s.head? := by
  cases s with
  | nil => rfl
  | cons c s =>
    have hne : c ≠ '\\' := ne_backslash_of_endsName hs
    rw [dropDisplayClosing_cons, if_neg fun h => hne h.1]
    rfl

namespace Spelling

theorem dropDisplayOpening_append (hx : Spelling g name rest x) (hg : glyphName? g = some name)
    (s : Text) : dropDisplayOpening (x ++ s) = x ++ s := by
  cases hx with
  | glyph =>
    have hne := glyph_all (p := fun c => c ≠ '\\') (isSome_of_glyphName hg) (by decide)
    exact dropDisplayOpening_cons (by simpa using hne) s
  | command =>
    obtain ⟨hne, hletters⟩ := isName_of_glyphName hg
    obtain ⟨d, u, rfl⟩ := List.exists_cons_of_ne_nil hne
    have hd := hletters d (List.mem_cons_self ..)
    rw [List.cons_append, List.cons_append, dropDisplayOpening_escape, if_neg]
    rintro (rfl | rfl) <;> cases hd

theorem dropDisplayClosing_append (hx : Spelling g name rest x) (hg : glyphName? g = some name)
    (s : Text) : dropDisplayClosing (x ++ s) = x ++ dropDisplayClosing s := by
  have hplain : ∀ w : Text, '\\' ∉ w → dropDisplayClosing (w ++ s) = w ++ dropDisplayClosing s := by
    intro w hw
    induction w with
    | nil => rfl
    | cons c w ih =>
      obtain ⟨hc, hw⟩ := List.ne_and_not_mem_of_not_mem_cons hw
      rw [List.cons_append, dropDisplayClosing_cons, if_neg fun h => hc h.1.symm, ih hw]
      rfl
  cases hx with
  | glyph =>
    refine hplain [g] fun hm => ?_
    have hne := glyph_all (p := fun c => c ≠ '\\') (isSome_of_glyphName hg) (by decide)
    simp [← List.mem_singleton.mp hm] at hne
  | command =>
    obtain ⟨hne, hletters⟩ := isName_of_glyphName hg
    rw [List.cons_append, dropDisplayClosing_cons, if_neg,
      hplain name (notMem_backslash_of_letters hletters)]
    · rfl
    -- A letter stands behind the backslash.
    · obtain ⟨d, u, rfl⟩ := List.exists_cons_of_ne_nil hne
      have hd := hletters d (List.mem_cons_self ..)
      rintro ⟨-, h | h⟩ <;> (obtain ⟨rfl, -⟩ := List.cons.inj h; cases hd)

theorem head?_any_bracket (hx : Spelling g name rest x) (hg : glyphName? g = some name) (s : Text) :
    (x ++ s).head?.any (fun c => c = '[' || c = '(' || c = ']' || c = ')') = false :=
  hx.head?_any hg (by decide) s

end Spelling

namespace Glossed

theorem strip (h : Glossed false free s t) : Glossed false false (strip s) (strip t) :=
  (h.front.trimEnd trims_isBlank).1

theorem stripDollars (h : Glossed false false s t) :
    Glossed false false (stripDollars s) (stripDollars t) := by
  have hinner : Inner false (· = '$') :=
    { glyphs := by decide
      tight := fun {c} hc => by
        obtain rfl : c = '$' := by simpa using hc
        decide }
  exact ((h.span hinner).2.trimEnd trims_dollar).1

theorem dropDisplayOpening (h : Glossed false false s t) :
    Glossed false false (dropDisplayOpening s) (dropDisplayOpening t) := by
  cases h with
  | nil => exact .nil
  | @char _ c s t hc h =>
    by_cases hne : c = '\\'
    · subst hne
      cases h with
      | nil => exact .refl _
      | @char _ d s t hd h =>
        rw [dropDisplayOpening_escape, dropDisplayOpening_escape]
        split
        · next hopens =>
          have hfrees : frees false d = false := by rcases hopens with rfl | rfl <;> decide
          rw [hfrees] at h
          exact h
        · exact .char hc (.char hd h)
      | @glyph _ g name x y s t hg hx hy h =>
        have hkeep : ∀ {x s : Text}, Spelling g name s x →
            NumericAnswer.dropDisplayOpening ('\\' :: (x ++ s)) = '\\' :: (x ++ s) := by
          intro x s hx
          have hhead := hx.head?_any_bracket hg s
          cases hxs : x ++ s with
          | nil => rfl
          | cons d u =>
            rw [hxs] at hhead
            simp only [List.head?_cons, Option.any_some, Bool.or_eq_false_iff,
              decide_eq_false_iff_not] at hhead
            rw [dropDisplayOpening_escape, if_neg fun h => h.elim hhead.1.1.1 hhead.1.1.2]
        rw [hkeep hx, hkeep hy]
        exact .char hc (.glyph hg hx hy h)
    · rw [dropDisplayOpening_cons hne, dropDisplayOpening_cons hne]
      exact .char hc h
  | glyph hg hx hy h =>
    rw [hx.dropDisplayOpening_append hg, hy.dropDisplayOpening_append hg]
    exact .glyph hg hx hy h

theorem dropDisplayClosing (h : Glossed false free s t) :
    Glossed false free (dropDisplayClosing s) (dropDisplayClosing t) := by
  have hlast : ∀ {s t : Text}, Glossed false false s t → s = [']'] ∨ s = [')'] →
      t = [']'] ∨ t = [')'] := by
    rintro s t h (rfl | rfl)
    · obtain ⟨t, rfl, hrest⟩ := h.of_cons (by decide)
      have hnil : t = [] := hrest.eq_nil
      exact .inl (by rw [hnil])
    · obtain ⟨t, rfl, hrest⟩ := h.of_cons (by decide)
      have hnil : t = [] := hrest.eq_nil
      exact .inr (by rw [hnil])
  induction h with
  | nil => exact .nil
  | @char _ c s t hc h ih =>
    rw [dropDisplayClosing_cons, dropDisplayClosing_cons]
    by_cases hne : c = '\\'
    · subst hne
      by_cases hs : s = [']'] ∨ s = [')']
      · rw [if_pos ⟨rfl, hs⟩, if_pos ⟨rfl, hlast h hs⟩]
        exact .nil
      · rw [if_neg fun h => hs h.2, if_neg fun ht => hs (hlast h.symm ht.2)]
        exact .char hc ih
    · rw [if_neg fun h => hne h.1, if_neg fun h => hne h.1]
      exact .char hc ih
  | glyph hg hx hy _ ih =>
    rw [hx.dropDisplayClosing_append hg, hy.dropDisplayClosing_append hg]
    have hbefore : ∀ {g : Char} {name s x : Text}, Spelling g name s x →
        Spelling g name (NumericAnswer.dropDisplayClosing s) x := fun hx =>
      hx.before fun hs => by rwa [head?_dropDisplayClosing hs]
    exact .glyph hg (hbefore hx) (hbefore hy) ih
  | @left e s t he _ ih =>
    have hne : e ≠ '\\' := by
      rintro rfl
      cases he
    rw [dropDisplayClosing_cons, if_neg fun h => hne h.1]
    exact .left he ih
  | @right e s t he _ ih =>
    have hne : e ≠ '\\' := by
      rintro rfl
      cases he
    rw [dropDisplayClosing_cons, if_neg fun h => hne h.1]
    exact .right he ih

/-- Texts with different spellings have the same wrappers. -/
theorem unwrapped (h : Glossed false free s t) :
    Glossed false false (unwrapped s) (unwrapped t) :=
  h.strip.stripDollars.strip.dropDisplayOpening.dropDisplayClosing.strip

end Glossed
end Wrappers

/-! ### Substitutions -/

/-- What the rule puts in, in order. -/
def Rule.replacements (rule : Rule) : Text → List Text
  | [] => []
  | c :: s =>
    match rule c s with
    | some (w, n) => w :: rule.replacements (s.drop n)
    | none => rule.replacements s
termination_by s => s.length
decreasing_by all_goals simp only [List.length_cons, List.length_drop]; omega

/-- The rule sees no glyphs and none of their commands. In texts that differ in spellings it finds
the same, and takes in nothing but what is the same or blank; `named` says that it may put in
something else. -/
structure Rule.Blind (rule : Rule) (named : Prop) : Prop where
  plain {c : Char} (hc : c ≠ '\\') (htie : c ≠ '~') (s : Text) : rule c s = none
  tie : (∀ s, rule '~' s = none) ∨ ∀ s, rule '~' s = some ([' '], 0)
  glyph {g : Char} {name s : Text} (hg : glyphName? g = some name)
    (hs : s.head?.all endsName = true) : rule '\\' (name ++ s) = none
  command {s t : Text} (h : Glossed false false s t) :
    (rule '\\' s = none ∧ rule '\\' t = none) ∨
      ∃ w w' n m, rule '\\' s = some (w, n) ∧ rule '\\' t = some (w', m) ∧ (named ∨ w = w') ∧
        Glossed false (w = [' ']) (s.drop n) (t.drop m)

section Substitute

variable {rule : Rule} {named : Prop} {before before' : Option Char} {c g : Char}
  {name rest s t w x : Text} {free : Bool}

theorem Rule.replacements_of_none (h : rule c s = none) :
    rule.replacements (c :: s) = rule.replacements s := by
  rw [replacements, h]

theorem Rule.replacements_of_some {n : Nat} (h : rule c s = some (w, n)) :
    rule.replacements (c :: s) = w :: rule.replacements (s.drop n) := by
  rw [replacements, h]

theorem Rule.Blind.replacements_skip (hr : rule.Blind named) : ∀ {w : Text}, '\\' ∉ w → '~' ∉ w →
    ∀ s, rule.replacements (w ++ s) = rule.replacements s
  | [], _, _, _ => rfl
  | c :: w, hc, htie, s => by
    obtain ⟨hc, hw⟩ := List.ne_and_not_mem_of_not_mem_cons hc
    obtain ⟨htie, hw'⟩ := List.ne_and_not_mem_of_not_mem_cons htie
    rw [List.cons_append, Rule.replacements_of_none (hr.plain hc.symm htie.symm _),
      hr.replacements_skip hw hw']

theorem notMem_of_letters {d : Char} (hd : isAsciiLetter d = false)
    (hw : ∀ c ∈ w, isAsciiLetter c = true) : d ∉ w :=
  fun hm => absurd (hd.symm.trans (hw d hm)) (by decide)

/-- A spelling stays where it is. -/
theorem Rule.Blind.spells (hr : rule.Blind named) (hx : Spelling g name s x)
    (hg : glyphName? g = some name) :
    rule.replacements (x ++ s) = rule.replacements s ∧ ∀ before, ∃ before',
      substituteFrom (fun _ => rule) before (x ++ s) =
        x ++ substituteFrom (fun _ => rule) before' s := by
  have hskip : ∀ {w : Text}, '\\' ∉ w → '~' ∉ w → ∀ before, ∃ before',
      substituteFrom (fun _ => rule) before (w ++ s) =
        w ++ substituteFrom (fun _ => rule) before' s := fun hw htie before =>
    ⟨_, substituteFrom_skip (fun c hc _ s => hr.plain (fun h => hw (h ▸ hc)) (fun h => htie (h ▸ hc)) s)
      s⟩
  cases hx with
  | glyph =>
    have hne := glyph_all (p := fun c => c ≠ '\\' && c ≠ '~') (isSome_of_glyphName hg) (by decide)
    simp only [Bool.and_eq_true, decide_eq_true_eq] at hne
    have hbackslash : '\\' ∉ [g] := by simpa using hne.1.symm
    have htie : '~' ∉ [g] := by simpa using hne.2.symm
    exact ⟨hr.replacements_skip hbackslash htie s, hskip hbackslash htie⟩
  | command hs =>
    have hletters := (isName_of_glyphName hg).2
    have hbackslash := notMem_of_letters (d := '\\') (by decide) hletters
    have htie := notMem_of_letters (d := '~') (by decide) hletters
    have hnone := hr.glyph hg hs
    refine ⟨?_, fun before => ?_⟩
    · rw [List.cons_append, Rule.replacements_of_none hnone, hr.replacements_skip hbackslash htie]
    · obtain ⟨before', h⟩ := hskip hbackslash htie (some '\\')
      exact ⟨before', by rw [List.cons_append, substituteFrom_of_none hnone, h]; rfl⟩

theorem Rule.Blind.head? (hr : rule.Blind named) (hs : s.head?.all endsName = true)
    (before : Option Char) : (substituteFrom (fun _ => rule) before s).head?.all endsName = true := by
  cases s with
  | nil =>
    rw [substituteFrom]
    rfl
  | cons c s =>
    have hends : endsName c = true := hs
    have htie : c ≠ '~' := by
      rintro rfl
      cases hends
    rw [substituteFrom_of_none (hr.plain (ne_backslash_of_endsName hends) htie s)]
    exact hends

theorem Spelling.before_substituteFrom (hr : rule.Blind named) (hx : Spelling g name s x)
    (before : Option Char) : Spelling g name (substituteFrom (fun _ => rule) before s) x :=
  hx.before fun hs => hr.head? hs before

/-- At a character that is no glyph the rule finds the same in both texts. -/
theorem Rule.Blind.found (hr : rule.Blind named) (h : Glossed false (frees false c) s t) :
    (rule c s = none ∧ rule c t = none) ∨
      ∃ w w' n m, rule c s = some (w, n) ∧ rule c t = some (w', m) ∧ (named ∨ w = w') ∧
        Glossed false (w = [' ']) (s.drop n) (t.drop m) := by
  by_cases hc : c = '\\'
  · subst hc
    exact hr.command h
  · by_cases htie : c = '~'
    · subst htie
      rcases hr.tie with hnone | hspace
      · exact .inl ⟨hnone s, hnone t⟩
      · exact .inr ⟨_, _, _, _, hspace s, hspace t, .inr rfl, h.freed⟩
    · exact .inl ⟨hr.plain hc htie s, hr.plain hc htie t⟩

/-- The texts stay alike where the rule puts the same in. -/
theorem Glossed.replaced {n m : Nat} (hs : rule c s = some (w, n)) (ht : rule c t = some (w, m))
    (h : ∀ before before', Glossed false (w = [' '])
      (substituteFrom (fun _ => rule) before (s.drop n))
      (substituteFrom (fun _ => rule) before' (t.drop m))) :
    Glossed false free (substituteFrom (fun _ => rule) before (c :: s))
      (substituteFrom (fun _ => rule) before' (c :: t)) := by
  rw [substituteFrom_of_some hs, substituteFrom_of_some ht]
  by_cases hspace : w = [' ']
  · subst hspace
    exact .char (by decide) (h _ _)
  · have h := h (c :: s.take n).getLast? (c :: t.take m).getLast?
    rw [decide_eq_false hspace] at h
    exact h.same_append w

/-- **A substitution that sees no glyphs** leaves texts that differ in spellings, if it puts the
same in their places. -/
theorem Glossed.substituted (h : Glossed false free s t) (hr : rule.Blind named)
    (hnamed : named → rule.replacements s = rule.replacements t) :
    Glossed false free (substituteFrom (fun _ => rule) before s)
      (substituteFrom (fun _ => rule) before' t) := by
  induction hn : s.length + t.length using Nat.strong_induction_on
    generalizing s t free before before' with
  | _ n ih =>
  subst hn
  have hblank : ∀ {e : Char}, isBlank e = true → ∀ s, rule e s = none := by
    intro e he
    refine hr.plain ?_ ?_ <;> (rintro rfl; cases he)
  cases h with
  | nil =>
    rw [substituteFrom, substituteFrom]
    exact .nil
  | @char _ c s t hc h =>
    rcases hr.found h with ⟨hs, ht⟩ | ⟨w, w', n, m, hs, ht, hw, hrest⟩
    · rw [Rule.replacements_of_none hs, Rule.replacements_of_none ht] at hnamed
      rw [substituteFrom_of_none hs, substituteFrom_of_none ht]
      exact .char hc (ih _ (by simp only [List.length_cons]; omega) h hnamed rfl)
    · rw [Rule.replacements_of_some hs, Rule.replacements_of_some ht] at hnamed
      obtain rfl : w = w' := hw.elim (fun h => (List.cons.inj (hnamed h)).1) id
      refine Glossed.replaced hs ht fun _ _ =>
        ih _ ?_ hrest (fun h => (List.cons.inj (hnamed h)).2) rfl
      simp only [List.length_cons, List.length_drop]
      omega
  | @glyph _ g name x y s t hg hx hy h =>
    obtain ⟨hreplaced, hskip⟩ := hr.spells hx hg
    obtain ⟨hreplaced', hskip'⟩ := hr.spells hy hg
    obtain ⟨b, hb⟩ := hskip before
    obtain ⟨b', hb'⟩ := hskip' before'
    rw [hreplaced, hreplaced'] at hnamed
    rw [hb, hb']
    have hlength : 0 < x.length := List.length_pos_iff.mpr hx.ne_nil
    refine .glyph hg (hx.before_substituteFrom hr b) (hy.before_substituteFrom hr b')
      (ih _ ?_ h hnamed rfl)
    simp only [List.length_append]
    omega
  | @left e s t he h =>
    rw [Rule.replacements_of_none (hblank he s)] at hnamed
    rw [substituteFrom_of_none (hblank he s)]
    exact .left he (ih _ (by simp only [List.length_cons]; omega) h hnamed rfl)
  | @right e s t he h =>
    rw [Rule.replacements_of_none (hblank he t)] at hnamed
    rw [substituteFrom_of_none (hblank he t)]
    exact .right he (ih _ (by simp only [List.length_cons]; omega) h hnamed rfl)

theorem Glossed.substitute (h : Glossed false free s t) (hr : rule.Blind named)
    (hnamed : named → rule.replacements s = rule.replacements t) :
    Glossed false free (substitute rule s) (substitute rule t) :=
  h.substituted hr hnamed

end Substitute

/-! ### Cosmetic macros -/

section Cosmetic

variable {free : Bool} {named : Prop} {s t : Text}

namespace Glossed

/-- The texts from their first braces on. -/
theorem braces (h : Glossed false free s t) :
    Glossed false false (s.dropWhile notBrace) (t.dropWhile notBrace) := by
  induction h with
  | nil => exact .nil
  | @char _ c s t hc h ih =>
    cases hbrace : notBrace c with
    | true => simpa [hbrace] using ih
    | false => simpa [hbrace] using .char hc h
  | glyph hg hx hy _ ih =>
    have hpass : ∀ {x s : Text} {g : Char} {name : Text}, glyphName? g = some name →
        Spelling g name s x → ∀ c ∈ x, notBrace c = true := fun hg hx =>
      hx.forall_mem hg (by decide) (by decide) fun c hc => by
        by_contra hbrace
        have hcases : c = '\x7b' ∨ c = '\x7d' := by
          simpa [notBrace, imp_iff_not_or] using hbrace
        rcases hcases with rfl | rfl <;> cases hc
    rw [List.dropWhile_append_of_pos (hpass hg hx), List.dropWhile_append_of_pos (hpass hg hy)]
    exact ih
  | left he _ ih => simpa [notBrace_of_isBlank he] using ih
  | right he _ ih => simpa [notBrace_of_isBlank he] using ih

/-- In both texts stands something in braces, or in none. -/
theorem braced? (h : Glossed false false s t) :
    (NumericAnswer.braced? s = none ∧ NumericAnswer.braced? t = none) ∨
      ∃ content content' n m, NumericAnswer.braced? s = some (content, n) ∧
        NumericAnswer.braced? t = some (content', m) ∧
        Glossed false false (s.drop n) (t.drop m) := by
  by_cases hopen : (dropBlanks s).head? = some '\x7b'
  · obtain ⟨u, hu⟩ := List.head?_eq_some_iff.mp hopen
    have hfront := h.front
    rw [hu] at hfront
    obtain ⟨v, hv, hrest⟩ := hfront.of_cons (by decide)
    have hbraces := hrest.braces
    rw [braced?_eq hu, braced?_eq hv]
    by_cases hclose : (u.dropWhile notBrace).head? = some '\x7d'
    · have hclose' := (hbraces.head?_eq_iff (by decide)).mp hclose
      rw [if_pos hclose, if_pos hclose']
      refine .inr ⟨_, _, _, _, rfl, rfl, ?_⟩
      rw [drop_braced hu, drop_braced hv]
      obtain ⟨x, hx⟩ := List.head?_eq_some_iff.mp hclose
      rw [hx] at hbraces ⊢
      obtain ⟨y, hy, hrest⟩ := hbraces.of_cons (by decide)
      rw [hy]
      exact hrest
    · rw [if_neg hclose, if_neg fun h => hclose ((hbraces.head?_eq_iff (by decide)).mpr h)]
      exact .inl ⟨rfl, rfl⟩
  · exact .inl ⟨braced?_eq_none hopen,
      braced?_eq_none fun ht => hopen ((h.front.head?_eq_iff (by decide)).mpr ht)⟩

end Glossed

namespace Rule

theorem leadingLetters_glyphName {g : Char} {name : Text} (hg : glyphName? g = some name)
    (hs : s.head?.all endsName = true) : leadingLetters (name ++ s) = name := by
  rw [leadingLetters_append_of_head (head?_any_of_endsName hs)]
  exact List.takeWhile_eq_self_iff.mpr (isName_of_glyphName hg).2

/-- A command that may take in some of the text behind it, but no glyph. -/
theorem blind_command {names : List Text} {build : Nat → Text → Option (Text × Nat)}
    (hnames : ["pi".toList, "times".toList, "cdot".toList, "div".toList].all
      (fun name => !names.contains name) = true)
    (hbuild : ∀ {k : Nat} {s t : Text}, Glossed false false s t →
      (build k s = none ∧ build k t = none) ∨
        ∃ w w' n m, build k s = some (w, k + n) ∧ build k t = some (w', k + m) ∧
          (named ∨ w = w') ∧ Glossed false (w = [' ']) (s.drop n) (t.drop m)) :
    (command names build).Blind named where
  plain hc _ s := by simp [command, hc]
  tie := .inl fun s => by simp [command]
  glyph {g name s} hg hs := by
    have hname := glyphName_all hg hnames
    simp only [Bool.not_eq_true'] at hname
    simp only [command, leadingLetters_glyphName hg hs, hname, decide_true, Bool.true_and,
      Bool.false_eq_true, if_false]
  command {s t} h := by
    have hrest := h.drop_leadingLetters
    unfold command
    simp only [decide_true, Bool.true_and]
    rw [← h.leadingLetters_eq] at hrest ⊢
    split
    · rcases hbuild hrest with ⟨hs, ht⟩ | ⟨w, w', n, m, hs, ht, hw, hdrop⟩
      · exact .inl ⟨hs, ht⟩
      · refine .inr ⟨w, w', _, _, hs, ht, hw, ?_⟩
        rwa [← List.drop_drop, ← List.drop_drop]
    · exact .inl ⟨rfl, rfl⟩

theorem blind_style : style.Blind False :=
  blind_command (by decide) fun {k s t} h => by
    refine .inr ⟨[], [], _, _, rfl, rfl, .inr rfl, ?_⟩
    rw [drop_blankLength, drop_blankLength]
    exact h.front

theorem blind_sizing : sizing.Blind False := by
  rw [sizing_eq]
  refine blind_command (by decide) fun {k s t} h => ?_
  refine .inr ⟨[], [], _, _, by rw [Nat.add_assoc], by rw [Nat.add_assoc], .inr rfl, ?_⟩
  have hfront := h.front
  rw [← List.drop_drop, ← List.drop_drop, drop_blankLength, drop_blankLength]
  by_cases hpoint : (dropBlanks s).head? = some '.'
  · rw [if_pos hpoint, if_pos ((hfront.head?_eq_iff (by decide)).mp hpoint)]
    obtain ⟨u, hu⟩ := List.head?_eq_some_iff.mp hpoint
    rw [hu] at hfront ⊢
    obtain ⟨v, hv, hrest⟩ := hfront.of_cons (by decide)
    rw [hv]
    exact hrest
  · rw [if_neg hpoint, if_neg fun h => hpoint ((hfront.head?_eq_iff (by decide)).mpr h)]
    exact hfront

theorem blind_annotation : annotation.Blind False :=
  blind_command (by decide) fun {k s t} h => by
    rcases h.braced? with ⟨hs, ht⟩ | ⟨content, content', n, m, hs, ht, hdrop⟩
    · exact .inl ⟨by rw [hs]; rfl, by rw [ht]; rfl⟩
    · exact .inr ⟨[], [], n, m, by rw [hs]; rfl, by rw [ht]; rfl, .inr rfl, hdrop⟩

/-- Names in upright letters may be other names. -/
theorem blind_upright : upright.Blind True :=
  blind_command (by decide) fun {k s t} h => by
    rcases h.braced? with ⟨hs, ht⟩ | ⟨content, content', n, m, hs, ht, hdrop⟩
    · exact .inl ⟨by rw [hs]; rfl, by rw [ht]; rfl⟩
    · exact .inr ⟨_, _, n, m, by rw [hs]; rfl, by rw [ht]; rfl, .inl trivial, hdrop.loosened⟩

theorem blind_bar : bar.Blind False :=
  blind_command (by decide) fun {k s t} h => .inr ⟨['|'], ['|'], 0, 0, rfl, rfl, .inr rfl, h⟩

theorem blind_quad : (command ["quad".toList, "qquad".toList]
    fun length _ => some ([' '], length)).Blind False :=
  blind_command (by decide) fun {k s t} h =>
    .inr ⟨[' '], [' '], 0, 0, rfl, rfl, .inr rfl, h.freed⟩

theorem spacing_eq_of_head {sign : Bool} (hs : s.head?.any spacingSigns.contains = sign) :
    spacing '\\' s = if sign then some ([' '], 1)
      else command ["quad".toList, "qquad".toList] (fun length _ => some ([' '], length)) '\\' s := by
  simp only [spacing, Char.reduceEq, if_false, decide_true, Bool.true_and, hs]

theorem blind_spacing : spacing.Blind False where
  plain hc htie s := by simp [spacing, command, hc, htie]
  tie := .inr fun s => by simp [spacing]
  glyph {g name s} hg hs := by
    have hhead := glyphName_all (p := fun name => !name.isEmpty &&
      !name.head?.any spacingSigns.contains) hg (by decide)
    simp only [Bool.and_eq_true, Bool.not_eq_true', List.isEmpty_eq_false_iff] at hhead
    have hnone := blind_quad.glyph hg hs
    obtain ⟨d, u, rfl⟩ := List.exists_cons_of_ne_nil hhead.1
    rw [spacing_eq_of_head (s := d :: u ++ s) hhead.2, hnone]
    rfl
  command {s t} h := by
    have hheads := h.head?_any (p := spacingSigns.contains) (by decide)
    cases hsign : s.head?.any spacingSigns.contains with
    | false =>
      rw [spacing_eq_of_head hsign, spacing_eq_of_head (hheads.symm.trans hsign)]
      exact blind_quad.command h
    | true =>
      obtain ⟨d, s, rfl⟩ : ∃ d u, s = d :: u := by
        cases s with
        | nil => cases hsign
        | cons d u => exact ⟨d, u, rfl⟩
      have hd : d ∈ spacingSigns := by simpa using hsign
      have hplain : ∀ d ∈ spacingSigns, d ∉ ['π', '×', '·', '÷', '\\'] :=
        forall_mem_of_all (by decide)
      obtain ⟨t, rfl, hrest⟩ := h.of_cons (hplain d hd)
      rw [spacing_eq_of_head hsign, spacing_eq_of_head (hheads.symm.trans hsign)]
      exact .inr ⟨[' '], [' '], 1, 1, rfl, rfl, .inr rfl, hrest.freed⟩

theorem blind_escapedBrace : escapedBrace.Blind False where
  plain hc _ s := by simp [escapedBrace, hc]
  tie := .inl fun s => by simp [escapedBrace]
  glyph {g name s} hg hs := by
    have hhead := glyphName_all (p := fun name => !name.isEmpty &&
      !name.head?.any fun c => c = '\x7b' || c = '\x7d') hg (by decide)
    simp only [Bool.and_eq_true, Bool.not_eq_true', List.isEmpty_eq_false_iff] at hhead
    obtain ⟨d, u, rfl⟩ := List.exists_cons_of_ne_nil hhead.1
    have hd := hhead.2
    simp only [List.head?_cons, Option.any_some, Bool.or_eq_false_iff,
      decide_eq_false_iff_not] at hd
    simp [escapedBrace, hd]
  command {s t} h := by
    have hbrace : ∀ s : Text, escapedBrace '\\' s = if s.head? = some '\x7b' then some (['('], 1)
        else if s.head? = some '\x7d' then some ([')'], 1) else none := by
      intro s
      simp [escapedBrace]
    have htake : ∀ {c : Char}, c ∉ ['π', '×', '·', '÷', '\\'] → frees false c = false →
        s.head? = some c → Glossed false false (s.drop 1) (t.drop 1) := by
      intro c hc hfrees hs
      obtain ⟨u, rfl⟩ := List.head?_eq_some_iff.mp hs
      obtain ⟨v, rfl, hrest⟩ := h.of_cons hc
      rwa [hfrees] at hrest
    have hopening := h.head?_eq_iff (c := '\x7b') (by decide)
    have hclosing := h.head?_eq_iff (c := '\x7d') (by decide)
    rw [hbrace, hbrace]
    by_cases hopen : s.head? = some '\x7b'
    · rw [if_pos hopen, if_pos (hopening.mp hopen)]
      exact .inr ⟨['('], ['('], 1, 1, rfl, rfl, .inr rfl, htake (by decide) (by decide) hopen⟩
    · rw [if_neg hopen, if_neg fun ht => hopen (hopening.mpr ht)]
      by_cases hclose : s.head? = some '\x7d'
      · rw [if_pos hclose, if_pos (hclosing.mp hclose)]
        exact .inr ⟨[')'], [')'], 1, 1, rfl, rfl, .inr rfl, htake (by decide) (by decide) hclose⟩
      · rw [if_neg hclose, if_neg fun ht => hclose (hclosing.mpr ht)]
        exact .inl ⟨rfl, rfl⟩

end Rule
end Cosmetic

namespace Canonical

/-- Cosmetic macros go, and texts differ in spellings as before, if they have the same names in
upright letters. -/
theorem glossed_simplified {answer answer' : Text}
    (h : Glossed false false (unwrapped answer) (unwrapped answer'))
    (hnames : Rule.upright.replacements (beforeUpright (unwrapped answer)) =
      Rule.upright.replacements (beforeUpright (unwrapped answer'))) :
    Glossed false false (simplified answer) (simplified answer') := by
  have hstyle := h.substitute Rule.blind_style False.elim
  have hsizing := hstyle.substitute Rule.blind_sizing False.elim
  have hspacing := hsizing.substitute Rule.blind_spacing False.elim
  have hannotation := hspacing.substitute Rule.blind_annotation False.elim
  have hupright := hannotation.substitute Rule.blind_upright fun _ => hnames
  have hbar := hupright.substitute Rule.blind_bar False.elim
  exact hbar.substitute Rule.blind_escapedBrace False.elim

end Canonical
end NumericAnswer
