/-
# Substitutions in respaced texts

A substitution makes respaced texts of respaced texts: it finds the same commands and glyphs in
both, and puts the same words in their places. Names in upright letters keep the text in their
braces, and one that ended in a backslash would make a command of what follows it.

Key definitions: `Rewording`, `Rule.Lexical`, `Escapable`, `Rule.isSealed`.
Key theorems: `Rewording.respaced`, `Canonical.respaced_simplified`, `Canonical.respaced_worded`.
-/
import Mathlib.Data.List.Infix
import NumericAnswer.Proofs.Regrouped
import NumericAnswer.Proofs.Unwrapped

namespace NumericAnswer

/-! ### Rules -/

/-- What a rule does in respaced texts. `side` relates the characters before them, and `good`
holds of what the rule may read. -/
structure Rewording (rule : Option Char → Rule) (side : Option Char → Option Char → Prop)
    (good : Text → Prop) (loose : Bool) (escaped escaped' : Char → Prop) : Prop where
  side_refl (before : Option Char) : side before before
  side_blank {c d : Char} (hc : isBlank c = true) (hd : isBlank d = true) : side (some c) (some d)
  skips {c : Char} (hc : isBlank c = true ∨ opens c = true ∨ escaped c) (before : Option Char)
    (s : Text) : rule before c s = none
  char {before before' : Option Char} {c : Char} {s t : Text} (hside : side before before')
    (hc : c ≠ '\\') (h : Respaced loose escaped s t) :
    (rule before c s = none ∧ rule before' c t = none) ∨
      ∃ w, rule before c s = some (w, 0) ∧ rule before' c t = some (w, 0) ∧ '\\' ∉ w
  command {before before' : Option Char} {d : Char} {s t : Text} (hside : side before before')
    (hgood : good ('\\' :: d :: s)) (hd : escaped d) (h : Respaced loose escaped s t) :
    (rule before '\\' (d :: s) = none ∧ rule before' '\\' (d :: t) = none ∧ escaped' d) ∨
      ∃ w w' n m, rule before '\\' (d :: s) = some (w, n) ∧
        rule before' '\\' (d :: t) = some (w', m) ∧ Respaced loose escaped' w w' ∧
        Respaced loose escaped ((d :: s).drop n) ((d :: t).drop m) ∧
        side ('\\' :: (d :: s).take n).getLast? ('\\' :: (d :: t).take m).getLast?

section Substitute

variable {rule : Option Char → Rule} {before before' : Option Char} {c : Char} {s t w : Text}
  {loose : Bool} {escaped escaped' : Char → Prop}

theorem substituteFrom_of_none (h : rule before c s = none) :
    substituteFrom rule before (c :: s) = c :: substituteFrom rule (some c) s := by
  rw [substituteFrom, h]

theorem substituteFrom_of_some {n : Nat} (h : rule before c s = some (w, n)) :
    substituteFrom rule before (c :: s) =
      w ++ substituteFrom rule ((c :: s.take n).getLast?) (s.drop n) := by
  rw [substituteFrom, h]

theorem substituteFrom_skip : ∀ {b : Text} {before : Option Char},
    (∀ c ∈ b, ∀ before s, rule before c s = none) → ∀ s,
      substituteFrom rule before (b ++ s) = b ++ substituteFrom rule (b.getLast?.or before) s
  | [], _, _, _ => rfl
  | c :: b, before, h, s => by
    rw [List.cons_append, substituteFrom_of_none (h c (List.mem_cons_self ..) _ _),
      substituteFrom_skip (fun c hc => h c (List.mem_cons_of_mem _ hc))]
    cases b <;> rfl

theorem respaced_of_notMem (hw : '\\' ∉ w) : Respaced loose escaped w w :=
  (commanded_of_notMem hw).respaced

/-- **A substitution respaces.** It makes respaced texts of respaced texts. -/
theorem Rewording.respaced {side : Option Char → Option Char → Prop} {good : Text → Prop}
    (hr : Rewording rule side good loose escaped escaped') (h : Respaced loose escaped s t)
    (hgood : ∀ u, u <:+ s → good u) (hside : side before before') :
    Respaced loose escaped' (substituteFrom rule before s) (substituteFrom rule before' t) := by
  have hblank : ∀ {b : Text}, isAllBlank b = true → ∀ c ∈ b, ∀ before s, rule before c s = none :=
    fun hb c hc => hr.skips (.inl (List.all_eq_true.mp hb c hc))
  have hrows : ∀ {b b' : Text}, Rows b b' → ∀ {before before' : Option Char}, side before before' →
      side (b.getLast?.or before) (b'.getLast?.or before') := by
    intro b b' hb before before' hside
    by_cases hnil : b = []
    · obtain rfl := hnil
      obtain rfl := hb.nil_iff.mp rfl
      exact hside
    · have hnil' : b' ≠ [] := fun h => hnil (hb.nil_iff.mpr h)
      rw [List.getLast?_eq_some_getLast hnil, List.getLast?_eq_some_getLast hnil']
      exact hr.side_blank (List.all_eq_true.mp hb.left _ (List.getLast_mem hnil))
        (List.all_eq_true.mp hb.right _ (List.getLast_mem hnil'))
  induction hn : s.length using Nat.strong_induction_on generalizing s t before before' with
  | _ n ih =>
  subst hn
  cases h with
  | ends hb =>
    have hskip : ∀ {b : Text} {before : Option Char}, isAllBlank b = true →
        substituteFrom rule before b = b := by
      intro b before hb
      have happend := @substituteFrom_skip rule b before (hblank hb) []
      rwa [List.append_nil, substituteFrom, List.append_nil] at happend
    rw [hskip hb.left, hskip hb.right]
    exact .ends hb
  | @char b b' c s t hb hc hne h =>
    rw [substituteFrom_skip (hblank hb.left), substituteFrom_skip (hblank hb.right)]
    have hlight : s.length < (b ++ c :: s).length := by
      simp only [List.length_append, List.length_cons]
      omega
    have hgood' : ∀ u, u <:+ s → good u := fun u hu =>
      hgood u (hu.trans ((List.suffix_cons c s).trans (List.suffix_append b _)))
    have hlater := ih _ hlight h hgood' (hr.side_refl (some c)) rfl
    have hkeep : rule (b.getLast?.or before) c s = none → rule (b'.getLast?.or before') c t = none →
        Respaced loose escaped' (b ++ substituteFrom rule (b.getLast?.or before) (c :: s))
          (b' ++ substituteFrom rule (b'.getLast?.or before') (c :: t)) := by
      intro hs ht
      rw [substituteFrom_of_none hs, substituteFrom_of_none ht]
      exact .char hb hc hne hlater
    cases hopens : opens c with
    | true => exact hkeep (hr.skips (.inr (.inl hopens)) _ _) (hr.skips (.inr (.inl hopens)) _ _)
    | false =>
      rcases hr.char (hrows (hb.rows hopens) hside) hne h with ⟨hs, ht⟩ | ⟨w, hs, ht, hw⟩
      · exact hkeep hs ht
      · rw [substituteFrom_of_some hs, substituteFrom_of_some ht]
        exact (hlater.plain_append hw).rows_append (hb.rows hopens)
  | @command b b' d s t hb hd h =>
    rw [substituteFrom_skip (hblank hb.left), substituteFrom_skip (hblank hb.right)]
    refine Respaced.rows_append ?_ hb
    have hsuffix : '\\' :: d :: s <:+ b ++ '\\' :: d :: s := List.suffix_append b _
    have hsuffix' : s <:+ b ++ '\\' :: d :: s :=
      ((List.suffix_cons d s).trans (List.suffix_cons '\\' _)).trans hsuffix
    have hlength := hsuffix.length_le
    simp only [List.length_cons] at hlength
    rcases hr.command (hrows hb hside) (hgood _ hsuffix) hd h with
      ⟨hs, ht, hd'⟩ | ⟨w, w', n, m, hs, ht, hw, hdrop, hside'⟩
    · rw [substituteFrom_of_none hs, substituteFrom_of_none ht,
        substituteFrom_of_none (hr.skips (.inr (.inr hd)) _ _),
        substituteFrom_of_none (hr.skips (.inr (.inr hd)) _ _)]
      exact (ih _ (by omega) h (fun u hu => hgood u (hu.trans hsuffix')) (hr.side_refl _) rfl).escape
        hd'
    · rw [substituteFrom_of_some hs, substituteFrom_of_some ht]
      have hsuffix'' : (d :: s).drop n <:+ b ++ '\\' :: d :: s :=
        ((List.drop_suffix n _).trans (List.suffix_cons '\\' _)).trans hsuffix
      refine hw.append (ih _ ?_ hdrop (fun u hu => hgood u (hu.trans hsuffix'')) hside' rfl)
      simp only [List.length_drop, List.length_cons]
      omega

end Substitute

/-! ### Words for glyphs and commands -/

/-- What stands behind a backslash once there are no commands for spaces. -/
def InCommand (d : Char) : Prop :=
  isAsciiLetter d = true ∨ d = '\x7b' ∨ d = '\x7d'

/-- What may stand behind a backslash in an answer. -/
def Escapable (d : Char) : Prop :=
  InCommand d ∨ d ∈ Rule.spacingSigns

instance : DecidablePred Escapable := fun d =>
  inferInstanceAs (Decidable ((isAsciiLetter d = true ∨ d = '\x7b' ∨ d = '\x7d') ∨
    d ∈ Rule.spacingSigns))

/-- Letters or digits stand before both texts, or before none. -/
def SameSide (before before' : Option Char) : Prop :=
  before.any isAlphanumeric = before'.any isAlphanumeric

/-- The rule puts words in the places of glyphs and of commands without arguments. -/
structure Rule.Lexical (rule : Rule) (glyph : Char → Option Text) (word : Text → Option Text) :
    Prop where
  char {c : Char} (hc : c ≠ '\\') (s : Text) : rule c s = (glyph c).map fun w => (w, 0)
  command (s : Text) :
    rule '\\' s = (word (leadingLetters s)).map fun w => (w, (leadingLetters s).length)
  skips {c : Char} (hc : isBlank c = true ∨ opens c = true ∨ InCommand c) : glyph c = none
  notMem_glyph {c : Char} {w : Text} (h : glyph c = some w) : '\\' ∉ w
  notMem_word {name w : Text} (h : word name = some w) : '\\' ∉ w

section Words

variable {rule : Rule} {glyph : Char → Option Text} {word : Text → Option Text} {loose : Bool}
  {escaped : Char → Prop} {c d : Char} {s t : Text}

theorem InCommand.ne_backslash (hd : InCommand d) : d ≠ '\\' := by
  rintro rfl
  rcases hd with hd | hd | hd <;> cases hd

theorem respaced_cons (hd : d ≠ '\\') (h : Respaced loose escaped s t) :
    Respaced loose escaped (d :: s) (d :: t) :=
  h.plain_append (w := [d]) (by simpa using hd.symm)

namespace Rule.Lexical

theorem ne_backslash_of_skips (hc : isBlank c = true ∨ opens c = true ∨ InCommand c) : c ≠ '\\' := by
  rcases hc with hc | hc | hc
  · rintro rfl
    cases hc
  · exact ne_backslash_of_opens hc
  · exact hc.ne_backslash

theorem rule_skips (hr : rule.Lexical glyph word)
    (hc : isBlank c = true ∨ opens c = true ∨ InCommand c) (s : Text) : rule c s = none := by
  rw [hr.char (ne_backslash_of_skips hc), hr.skips hc]
  rfl

/-- The same command stands in both texts. -/
theorem command_cases (hr : rule.Lexical glyph word) (hd : InCommand d)
    (h : Respaced loose escaped s t) :
    (rule '\\' (d :: s) = none ∧ rule '\\' (d :: t) = none) ∨
      ∃ w n, rule '\\' (d :: s) = some (w, n) ∧ rule '\\' (d :: t) = some (w, n) ∧ '\\' ∉ w ∧
        (d :: s).take n = (d :: t).take n ∧
        Respaced loose escaped ((d :: s).drop n) ((d :: t).drop n) := by
  have hword := respaced_cons hd.ne_backslash h
  have hletters := hword.leadingLetters_eq
  rw [hr.command, hr.command, hletters]
  cases hw : word (leadingLetters (d :: t)) with
  | none => exact .inl ⟨rfl, rfl⟩
  | some w =>
    refine .inr ⟨w, _, rfl, rfl, hr.notMem_word hw, ?_, ?_⟩
    · rw [take_leadingLetters, ← hletters, take_leadingLetters]
    · have hrest := hword.drop_leadingLetters
      rwa [hletters] at hrest

theorem substitutes (hr : rule.Lexical glyph word) (he : ∀ d, escaped d → InCommand d) :
    Rewording (fun _ => rule) (fun _ _ => True) (fun _ => True) loose escaped escaped where
  side_refl _ := trivial
  side_blank _ _ := trivial
  skips hc _ s := hr.rule_skips (hc.imp_right (Or.imp_right (he _))) s
  char {_ _ c s t} _ hc _ := by
    rw [hr.char hc, hr.char hc]
    cases hg : glyph c with
    | none => exact .inl ⟨rfl, rfl⟩
    | some w => exact .inr ⟨w, rfl, rfl, hr.notMem_glyph hg⟩
  command {_ _ d s t} _ _ hd h := by
    rcases hr.command_cases (he d hd) h with ⟨hs, ht⟩ | ⟨w, n, hs, ht, hw, -, hdrop⟩
    · exact .inl ⟨hs, ht, hd⟩
    · exact .inr ⟨w, w, n, n, hs, ht, respaced_of_notMem hw, hdrop, trivial⟩

theorem notMem_padded {before after : Option Char} {w : Text} (hw : '\\' ∉ w) :
    '\\' ∉ padded before after w := by
  rw [← List.count_eq_zero] at hw ⊢
  rwa [count_padded (by decide)]

theorem renames (hr : rule.Lexical glyph word) (he : ∀ d, escaped d → InCommand d) :
    Rewording rule.apart SameSide (fun _ => True) loose escaped escaped where
  side_refl _ := rfl
  side_blank hc hd := by
    simp only [SameSide, Option.any_some]
    rw [isAlphanumeric_of_isBlank hc, isAlphanumeric_of_isBlank hd]
  skips hc _ s := by
    rw [Rule.apart, hr.rule_skips (hc.imp_right (Or.imp_right (he _)))]
    rfl
  char {before before' c s t} hside hc h := by
    rw [Rule.apart, Rule.apart, hr.char hc, hr.char hc]
    cases hg : glyph c with
    | none => exact .inl ⟨rfl, rfl⟩
    | some w =>
      refine .inr ⟨padded before s.head? w, rfl, ?_, notMem_padded (hr.notMem_glyph hg)⟩
      rw [padded_congr hside (h.head_any solid_isAlphanumeric)]
      rfl
  command {before before' d s t} hside _ hd h := by
    rcases hr.command_cases (he d hd) h with ⟨hs, ht⟩ | ⟨w, n, hs, ht, hw, htake, hdrop⟩
    · refine .inl ⟨?_, ?_, hd⟩
      · rw [Rule.apart, hs]
        rfl
      · rw [Rule.apart, ht]
        rfl
    · refine .inr ⟨padded before ((d :: s).drop n).head? w, padded before ((d :: s).drop n).head? w,
        n, n, ?_, ?_, respaced_of_notMem (notMem_padded hw), hdrop, ?_⟩
      · rw [Rule.apart, hs]
        rfl
      · rw [Rule.apart, ht, padded_congr hside (hdrop.head_any solid_isAlphanumeric)]
        rfl
      · rw [htake]
        rfl

end Rule.Lexical

namespace Rule

/-- A command that stands for one word. -/
theorem lexical_command {names : List Text} {w : Text} (hw : '\\' ∉ w) :
    (command names fun length _ => some (w, length)).Lexical (fun _ => none)
      (fun name => if names.contains name then some w else none) where
  char hc s := by simp [Rule.command, hc]
  command s := by
    simp only [Rule.command, decide_true, Bool.true_and]
    split <;> rfl
  skips _ := rfl
  notMem_glyph h := by cases h
  notMem_word {name v} h := by
    split at h
    · obtain rfl := Option.some.inj h
      exact hw
    · cases h

theorem lexical_bar : bar.Lexical (fun _ => none)
    (fun name => if barNames.contains name then some ['|'] else none) :=
  lexical_command (by decide)

theorem lexical_e : e.Lexical (fun _ => none)
    (fun name => if ["e".toList].contains name then some ['e'] else none) :=
  lexical_command (by decide)

theorem lexical_functionName : functionName.Lexical (fun _ => none)
    (fun name => (UnaryFunction.ofCommand? name).map fun f => f.name.toList) where
  char hc s := by simp [functionName, hc]
  command s := by
    simp only [functionName, if_true, Option.map_map]
    rfl
  skips _ := rfl
  notMem_glyph h := by cases h
  notMem_word {name w} h := by
    obtain ⟨f, -, rfl⟩ := Option.map_eq_some_iff.mp h
    exact notMem_backslash_of_letters f.isName.2

/-- The glyphs that stand for signs and for pi. -/
def glyphs : List Char :=
  timesGlyphs ++ ['÷', '−', 'π']

theorem notMem_glyphs (hc : isBlank c = true ∨ opens c = true ∨ InCommand c) : c ∉ glyphs := by
  intro hm
  have hall : ∀ g ∈ glyphs, isBlank g = false ∧ opens g = false ∧ isAsciiLetter g = false ∧
      g ≠ '\x7b' ∧ g ≠ '\x7d' :=
    forall_mem_of_all (by decide)
  obtain ⟨hblank, hopens, hletter, hopening, hclosing⟩ := hall c hm
  rcases hc with hc | hc | hc | hc | hc
  · exact absurd (hblank.symm.trans hc) (by decide)
  · exact absurd (hopens.symm.trans hc) (by decide)
  · exact absurd (hletter.symm.trans hc) (by decide)
  · exact hopening hc
  · exact hclosing hc

theorem lexical_sign : sign.Lexical
    (fun c => if timesGlyphs.contains c then some ['*'] else if c = '÷' then some ['/']
      else if c = '−' then some ['-'] else none)
    (fun name => if ["times".toList, "cdot".toList, "ast".toList].contains name then some ['*']
      else if name = "div".toList then some ['/'] else none) where
  char {c} hc s := by
    simp only [sign, hc, if_false]
    repeat' split
    all_goals rfl
  command s := by
    have hglyph : timesGlyphs.contains '\\' = false := by decide
    simp only [sign, hglyph, Bool.false_eq_true, if_false, if_true, Char.reduceEq]
    repeat' split
    all_goals rfl
  skips hc := by
    have hc := notMem_glyphs hc
    simp only [glyphs, List.mem_append, List.mem_cons, List.not_mem_nil, or_false, not_or] at hc
    obtain ⟨htimes, hdivision, hminus, -⟩ := hc
    rw [if_neg (by simpa using htimes), if_neg hdivision, if_neg hminus]
  notMem_glyph {c w} h := by
    repeat' split at h
    all_goals cases h <;> decide
  notMem_word {name w} h := by
    repeat' split at h
    all_goals cases h <;> decide

theorem lexical_pi : pi.Lexical (fun c => if c = 'π' then some "pi".toList else none)
    (fun name => if ["pi".toList].contains name then some "pi".toList else none) where
  char {c} hc s := by
    simp only [pi, Rule.command, hc, decide_false, Bool.false_and, Bool.false_eq_true, if_false]
    split <;> rfl
  command s := by
    simp only [pi, Rule.command, Char.reduceEq, if_false, decide_true, Bool.true_and]
    split <;> rfl
  skips hc := by
    have hc := notMem_glyphs hc
    simp only [glyphs, List.mem_append, List.mem_cons, List.not_mem_nil, or_false, not_or] at hc
    exact if_neg hc.2.2.2
  notMem_glyph {c w} h := by
    split at h
    all_goals cases h <;> decide
  notMem_word {name w} h := by
    split at h
    all_goals cases h <;> decide

end Rule
end Words

/-! ### Commands with what follows them -/

section Commands

variable {loose : Bool} {escaped escaped' : Char → Prop} {good : Text → Prop} {c d : Char}
  {s t : Text}

theorem Escapable.ne_backslash (hd : Escapable d) : d ≠ '\\' := by
  rcases hd with hd | hd
  · exact hd.ne_backslash
  · rintro rfl
    exact absurd hd (by decide)

namespace Rule

/-- A command that may take in some of the text behind it. -/
theorem rewording_command {names : List Text} {build : Nat → Text → Option (Text × Nat)}
    (he : ∀ d, escaped d → d ≠ '\\') (hsub : ∀ d, escaped d → escaped' d)
    (hbuild : ∀ {u s t : Text}, s = u.drop (leadingLetters u).length →
      names.contains (leadingLetters u) = true → good ('\\' :: u) → Respaced loose escaped s t →
      (build (leadingLetters u).length s = none ∧ build (leadingLetters u).length t = none) ∨
        ∃ w w' n m, build (leadingLetters u).length s = some (w, (leadingLetters u).length + n) ∧
          build (leadingLetters u).length t = some (w', (leadingLetters u).length + m) ∧
          Respaced loose escaped' w w' ∧ Respaced loose escaped (s.drop n) (t.drop m)) :
    Rewording (fun _ => command names build) (fun _ _ => True) good loose escaped escaped' where
  side_refl _ := trivial
  side_blank _ _ := trivial
  skips {c} hc _ s := by
    have hne : c ≠ '\\' := by
      rcases hc with hc | hc | hc
      · rintro rfl
        cases hc
      · exact ne_backslash_of_opens hc
      · exact he c hc
    simp [command, hne]
  char _ hc _ := .inl (by simp [command, hc])
  command {_ _ d s t} _ hgood hd h := by
    have hword := respaced_cons (he d hd) h
    have hletters := hword.leadingLetters_eq
    have hrest := hword.drop_leadingLetters
    rw [← hletters] at hrest
    unfold command
    simp only [decide_true, Bool.true_and, ← hletters]
    split
    · next hname =>
      rcases hbuild rfl hname hgood hrest with ⟨hs, ht⟩ | ⟨w, w', n, m, hs, ht, hw, hdrop⟩
      · exact .inl ⟨hs, ht, hsub d hd⟩
      · refine .inr ⟨w, w', _, _, hs, ht, hw, ?_, trivial⟩
        rwa [← List.drop_drop, ← List.drop_drop]
    · exact .inl ⟨rfl, rfl, hsub d hd⟩

theorem rewording_style (he : ∀ d, escaped d → d ≠ '\\') :
    Rewording (fun _ => style) (fun _ _ => True) (fun _ => True) loose escaped escaped := by
  refine rewording_command he (fun _ => id) fun {u s t} _ _ _ h =>
    .inr ⟨[], [], _, _, rfl, rfl, .nil, ?_⟩
  rw [drop_blankLength, drop_blankLength]
  exact h.trimmed

theorem rewording_sizing (he : ∀ d, escaped d → d ≠ '\\') :
    Rewording (fun _ => sizing) (fun _ _ => True) (fun _ => True) loose escaped escaped := by
  rw [sizing_eq]
  refine rewording_command he (fun _ => id) fun {u s t} _ _ _ h =>
    .inr ⟨[], [], _, _, by rw [Nat.add_assoc], by rw [Nat.add_assoc], .nil, ?_⟩
  have hfront := h.front
  rw [← List.drop_drop, ← List.drop_drop, drop_blankLength, drop_blankLength]
  generalize dropBlanks s = x, dropBlanks t = y at hfront
  cases hfront with
  | ends => exact .nil
  | @char c _ _ hblank hc h =>
    by_cases hpoint : c = '.'
    · subst hpoint
      exact h
    · simpa [hpoint] using h.cons hblank hc
  | command hd h => exact h.escape hd

theorem rewording_annotation (he : ∀ d, escaped d → d ≠ '\\') :
    Rewording (fun _ => annotation) (fun _ _ => True) (fun _ => True) loose escaped escaped := by
  refine rewording_command he (fun _ => id) fun {u s t} _ _ _ h => ?_
  rcases h.braced? with ⟨hs, ht⟩ | ⟨content, content', n, m, hs, ht, hdrop, -⟩
  · exact .inl ⟨by rw [hs]; rfl, by rw [ht]; rfl⟩
  · exact .inr ⟨[], [], n, m, by rw [hs]; rfl, by rw [ht]; rfl, .nil, hdrop⟩

/-- What the rule puts in place of the command at the front does not end in a backslash. -/
def sealedAt (rule : Rule) : Text → Bool
  | [] => true
  | c :: s => (rule c s).all fun found => found.1.getLast? ≠ some '\\'

/-- The rule puts nothing in that ends in a backslash. -/
def isSealed (rule : Rule) (s : Text) : Bool :=
  s.tails.all rule.sealedAt

theorem getLast?_strip {c : Char} (hc : isBlank c = false) (hs : s.getLast? = some c) :
    (strip s).getLast? = some c := by
  by_contra h
  exact getLast?_ne_of_strip hc h hs

/-- The texts are the same if one of them is all letters. -/
theorem eq_of_letters (h : Respaced loose escaped s t) (hs : ∀ c ∈ s, isAsciiLetter c = true) :
    t = s := by
  obtain ⟨htake, hdrop⟩ := h.span solid_isAsciiLetter
  rw [List.dropWhile_eq_nil_iff.mpr hs] at hdrop
  have ht := List.takeWhile_append_dropWhile (p := isAsciiLetter) (l := t)
  rw [hdrop.eq_nil, List.append_nil, ← htake] at ht
  rw [← ht, List.takeWhile_eq_self_iff.mpr hs]

theorem isAsciiLetter_of_ofCommand? {name : Text} (h : (UnaryFunction.ofCommand? name).isSome = true) :
    ∀ c ∈ name, isAsciiLetter c = true := by
  obtain ⟨f, hf⟩ := Option.isSome_iff_exists.mp h
  have hname : f.name.toList = name := by simpa using List.find?_some hf
  exact hname ▸ f.isName.2

theorem rewording_upright (he : ∀ d, escaped d → d ≠ '\\')
    (hletter : ∀ d, IsLetter d → escaped d) (hblank : ∀ d, escaped d → isBlank d = false) :
    Rewording (fun _ => upright) (fun _ _ => True) (fun s => upright.sealedAt s = true) loose escaped
      escaped := by
  refine rewording_command he (fun _ => id) fun {u s t} hu hname hgood h => ?_
  rcases h.braced? with ⟨hs, ht⟩ | ⟨content, content', n, m, hs, ht, hdrop, hcontent⟩
  · exact .inl ⟨by rw [hs]; rfl, by rw [ht]; rfl⟩
  · have hlast : content.getLast? ≠ some '\\' := by
      intro hlast
      have hstrip := getLast?_strip (by decide) hlast
      have hfound : upright '\\' u = some
          (if (UnaryFunction.ofCommand? (strip content)).isSome then '\\' :: strip content
            else strip content, (leadingLetters u).length + n) := by
        simp only [upright, Rule.command, decide_true, Bool.true_and, hname, if_true, ← hu, hs,
          Option.map_some]
      simp only [sealedAt, hfound, Option.all_some] at hgood
      split at hgood <;> simp [List.getLast?_cons, hstrip] at hgood
    have hstripped := (hcontent hlast).strip hblank
    refine .inr ⟨_, _, n, m, by rw [hs]; rfl, by rw [ht]; rfl, ?_, hdrop⟩
    split
    · next hfunction =>
      have hletters := isAsciiLetter_of_ofCommand? hfunction
      rw [eq_of_letters hstripped hletters, if_pos hfunction]
      refine (commanded_command hletters ?_).respaced.mono hletter
      intro hnil
      rw [hnil] at hfunction
      exact absurd hfunction (by decide)
    · next hfunction =>
      have hfunction' : ¬(UnaryFunction.ofCommand? (strip content')).isSome = true := fun h =>
        hfunction (eq_of_letters hstripped.symm (isAsciiLetter_of_ofCommand? h) ▸ h)
      rwa [if_neg hfunction']

theorem rewording_spacing : Rewording (fun _ => spacing) (fun _ _ => True) (fun _ => True) loose
    Escapable InCommand where
  side_refl _ := trivial
  side_blank _ _ := trivial
  skips {c} hc _ s := by
    have hne : c ≠ '\\' ∧ c ≠ '~' := by
      rcases hc with hc | hc | hc
      · constructor <;> (rintro rfl; cases hc)
      · constructor <;> (rintro rfl; cases hc)
      · refine ⟨hc.ne_backslash, ?_⟩
        rintro rfl
        rcases hc with (hc | hc | hc) | hc
        · cases hc
        · cases hc
        · cases hc
        · exact absurd hc (by decide)
    simp [spacing, command, hne]
  char {_ _ c s t} _ hc _ := by
    by_cases htie : c = '~'
    · exact .inr ⟨[' '], by simp [spacing, htie], by simp [spacing, htie], by decide⟩
    · exact .inl (by simp [spacing, command, hc, htie])
  command {_ _ d s t} _ _ hd h := by
    by_cases hsign : d ∈ spacingSigns
    · have hspacing : ∀ s, spacing '\\' (d :: s) = some ([' '], 1) := by
        intro s
        simp [spacing, hsign]
      exact .inr ⟨_, _, _, _, hspacing s, hspacing t, respaced_of_notMem (by decide), h, trivial⟩
    · have hspacing : ∀ s, spacing '\\' (d :: s) =
          command ["quad".toList, "qquad".toList] (fun length _ => some ([' '], length)) '\\'
            (d :: s) := by
        intro s
        simp [spacing, hsign]
      have hd' : InCommand d := hd.resolve_right hsign
      rw [hspacing, hspacing]
      rcases (lexical_command (w := [' ']) (by decide)).command_cases hd' h with
        ⟨hs, ht⟩ | ⟨w, n, hs, ht, hw, -, hdrop⟩
      · exact .inl ⟨hs, ht, hd'⟩
      · exact .inr ⟨w, w, n, n, hs, ht, respaced_of_notMem hw, hdrop, trivial⟩

theorem rewording_escapedBrace : Rewording (fun _ => escapedBrace) (fun _ _ => True)
    (fun _ => True) loose InCommand IsLetter where
  side_refl _ := trivial
  side_blank _ _ := trivial
  skips {c} hc _ s := by
    have hne : c ≠ '\\' := Lexical.ne_backslash_of_skips hc
    simp [escapedBrace, hne]
  char _ hc _ := .inl (by simp [escapedBrace, hc])
  command {_ _ d s t} _ _ hd h := by
    have hbrace : ∀ s, escapedBrace '\\' (d :: s) =
        if d = '\x7b' then some (['('], 1) else if d = '\x7d' then some ([')'], 1) else none := by
      intro s
      simp [escapedBrace]
    rw [hbrace, hbrace]
    split
    · exact .inr ⟨_, _, _, _, rfl, rfl, respaced_of_notMem (by decide), h, trivial⟩
    · split
      · exact .inr ⟨_, _, _, _, rfl, rfl, respaced_of_notMem (by decide), h, trivial⟩
      · next hopening hclosing =>
        exact .inl ⟨rfl, rfl, (hd.resolve_right fun hd => hd.elim hopening hclosing)⟩

end Rule
end Commands

namespace Canonical

/-- The answer before names in upright letters lose their wrappers. -/
def beforeUpright (s : Text) : Text :=
  substitute Rule.annotation (substitute Rule.spacing (substitute Rule.sizing
    (substitute Rule.style s)))

variable {loose : Bool} {s t : Text}

theorem respaced_substitute {rule : Rule} {good : Text → Prop} {escaped escaped' : Char → Prop}
    (hr : Rewording (fun _ => rule) (fun _ _ => True) good loose escaped escaped')
    (h : Respaced loose escaped s t) (hgood : ∀ u, u <:+ s → good u) :
    Respaced loose escaped' (substitute rule s) (substitute rule t) :=
  hr.respaced h hgood trivial

/-- Cosmetic macros go, and texts stay respaced. -/
theorem respaced_simplified {answer answer' : Text}
    (h : Respaced loose Escapable (unwrapped answer) (unwrapped answer'))
    (hsealed : Rule.upright.isSealed (beforeUpright (unwrapped answer)) = true) :
    Respaced loose IsLetter (simplified answer) (simplified answer') := by
  have hcommand : ∀ d, InCommand d → d ≠ '\\' := fun _ => InCommand.ne_backslash
  have hblank : ∀ d, InCommand d → isBlank d = false := by
    rintro d (hd | rfl | rfl)
    · exact isBlank_of_lexeme_char (.inl hd)
    · rfl
    · rfl
  have hfree : ∀ {s : Text}, ∀ u, u <:+ s → True := fun _ _ => trivial
  have hstyle := respaced_substitute (Rule.rewording_style fun _ => Escapable.ne_backslash) h hfree
  have hsizing := respaced_substitute (Rule.rewording_sizing fun _ => Escapable.ne_backslash) hstyle
    hfree
  have hspacing := respaced_substitute Rule.rewording_spacing hsizing hfree
  have hannotation := respaced_substitute (Rule.rewording_annotation hcommand) hspacing hfree
  have hupright := respaced_substitute
    (Rule.rewording_upright hcommand (fun _ => Or.inl) hblank) hannotation fun u hu =>
      List.all_eq_true.mp hsealed u ((List.mem_tails ..).mpr hu)
  have hbar := respaced_substitute (Rule.lexical_bar.substitutes fun _ => id) hupright hfree
  exact respaced_substitute Rule.rewording_escapedBrace hbar hfree

/-- The text with words for function names and glyphs, before bars are paired. -/
def worded (s : Text) : Text :=
  rename Rule.e (rename Rule.pi (substitute Rule.sign (rename Rule.functionName s)))

theorem respaced_worded (h : Respaced loose IsLetter s t) :
    Respaced loose IsLetter (worded s) (worded t) := by
  have hletter : ∀ d, IsLetter d → InCommand d := fun _ => Or.inl
  have hfree : ∀ {s : Text}, ∀ u, u <:+ s → True := fun _ _ => trivial
  have hside : SameSide none none := rfl
  have hname := (Rule.lexical_functionName.renames hletter).respaced h hfree hside
  have hsign := respaced_substitute (Rule.lexical_sign.substitutes hletter) hname hfree
  have hpi := (Rule.lexical_pi.renames hletter).respaced hsign hfree hside
  exact (Rule.lexical_e.renames hletter).respaced hpi hfree hside

end Canonical
end NumericAnswer
