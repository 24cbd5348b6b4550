/-
# Cleaned answers have the value of the answers

Cleaning an answer makes one space of the blanks in a row, and takes away dollar signs around it
and the command for display style. The cleaned answer has the value of the answer, or neither has
one, if no dollar sign is left and the command stands in front of everything else, where no letter
follows it.

Key definitions: `Unspaced`, `StyledFirst`.
Key theorems: `respaced_collapse`, `Outcome.value_collapse`, `Outcome.value_cleaned`.
-/
import NumericAnswer.Answer.Verdict
import NumericAnswer.Proofs.Loosened

namespace NumericAnswer

/-! ### One space for blanks in a row -/

section Collapse

variable {escaped : Char → Prop} {c : Char} {b s t : Text}

theorem words_ne_nil (hc : isBlank c = false) (s : Text) : words (c :: s) ≠ [] := by
  rw [words_cons hc]
  exact List.cons_ne_nil _ _

/-- A character before blanks or before another character. -/
theorem collapse_cons (hc : isBlank c = false) (hb : isAllBlank b = true)
    (hs : s.head?.any isBlank = false) (hend : s = [] → b = []) :
    collapse (c :: (b ++ s)) = c :: ((if b = [] then [] else [' ']) ++ collapse s) := by
  have hcons : ∀ {ws : List Text}, ws ≠ [] →
      [' '].intercalate ([c] :: ws) = c :: ' ' :: [' '].intercalate ws := by
    intro ws hws
    obtain ⟨w, ws, rfl⟩ := List.exists_cons_of_ne_nil hws
    simp [List.intercalate_cons_cons]
  unfold collapse
  rw [words_cons hc]
  cases b with
  | nil =>
    cases s with
    | nil => simp [words, wordsFrom]
    | cons d s =>
      have hd : isBlank d = false := hs
      simp only [List.nil_append, List.takeWhile_cons, List.dropWhile_cons, hd, Bool.not_false,
        if_true]
      rw [words_cons hd]
      cases words (s.dropWhile fun c => !isBlank c) <;> simp [List.intercalate_cons_cons]
  | cons e b =>
    have he : isBlank e = true := by
      simp only [isAllBlank, List.all_cons, Bool.and_eq_true] at hb
      exact hb.1
    have hwords : words (e :: b ++ s) = words s := by
      rw [← words_dropBlanks, dropBlanks_of_isAllBlank hb, words_dropBlanks]
    obtain ⟨d, s, rfl⟩ := List.exists_cons_of_ne_nil fun h => absurd (hend h) (List.cons_ne_nil e b)
    simp only [List.cons_append, List.takeWhile_cons, List.dropWhile_cons, he, Bool.not_true,
      Bool.false_eq_true, if_false, List.cons_ne_nil]
    rw [← List.cons_append, hwords, hcons (words_ne_nil hs s)]
    rfl

/-- **A text and its collapsed form are respaced**, if no blanks stand around the text. -/
theorem respaced_collapse (hescaped : ∀ d, escaped d → isBlank d = false) (h : Commanded escaped s)
    (hhead : s.head?.any isBlank = false) (hlast : s.getLast?.any isBlank = false) :
    Respaced false escaped s (collapse s) := by
  induction hn : s.length using Nat.strong_induction_on generalizing s with
  | _ n ih =>
  subst hn
  -- What stands behind a character: a row of blanks and a text that begins with another one.
  have hrest : ∀ {d : Char} {r : Text}, isBlank d = false → r.length < s.length →
      (d :: r).getLast?.any isBlank = false → Commanded escaped r →
      ∃ t, collapse (d :: r) = d :: t ∧ Respaced false escaped r t := by
    intro d r hd hlight hlast h
    obtain ⟨b, hb, hr⟩ := exists_blanks_append r
    have hhead : (dropBlanks r).head?.any isBlank = false := head?_dropWhile_any isBlank r
    have hafter := h.dropBlanks
    generalize dropBlanks r = r' at hr hhead hafter
    subst hr
    have hend : r' = [] → b = [] := by
      rintro rfl
      by_contra hne
      obtain ⟨b, e, rfl⟩ := List.eq_nil_or_concat b |>.resolve_left hne
      have he : isBlank e = true := List.all_eq_true.mp hb e (by simp)
      rw [List.concat_eq_append, List.append_nil, ← List.cons_append, List.getLast?_concat] at hlast
      exact absurd (he.symm.trans hlast) (by decide)
    have hlast' : r'.getLast?.any isBlank = false :=
      getLast?_any_of_append (t := d :: b) hlast
    have hrows : Rows b (if b = [] then [] else [' ']) := by
      split
      · next hnil => exact hnil ▸ .nil
      · next hne => exact ⟨hb, by decide, by simp [hne]⟩
    refine ⟨_, collapse_cons hd hb hhead hend, Respaced.rows_append ?_ hrows⟩
    refine ih _ ?_ hafter hhead hlast' rfl
    rw [List.length_append] at hlight
    omega
  cases h with
  | nil => exact .nil
  | @cons c s hc h =>
    obtain ⟨t, ht, hr⟩ := hrest hhead (by simp) hlast h
    rw [ht]
    exact respaced_cons hc hr
  | @escape d s hd h =>
    have hblank := hescaped d hd
    obtain ⟨t, ht, hr⟩ := hrest hblank (by simp only [List.length_cons]; omega) hlast h
    have hnext : (d :: s).head?.any isBlank = false := hblank
    have hcollapse := collapse_cons (b := []) hhead rfl hnext fun _ => rfl
    rw [List.nil_append, if_pos rfl, List.nil_append, ht] at hcollapse
    rw [hcollapse]
    exact hr.escape hd

/-- Blanks around a text do not show once it is collapsed. -/
theorem collapse_strip (s : Text) : collapse (strip s) = collapse s := by
  obtain ⟨u, v, hu, hv, hs⟩ := exists_blanks_strip s
  have hend : ∀ x : Text, words (x ++ v) = words x := by
    intro x
    cases v with
    | nil => rw [List.append_nil]
    | cons e v =>
      simp only [isAllBlank, List.all_cons, Bool.and_eq_true] at hv
      have hnil : words v = [] := by
        rw [← words_dropBlanks, dropBlanks_eq_nil_iff.mpr hv.2]
        rfl
      rw [words_append_blank hv.1, hnil, List.append_nil]
  have hwords : words s = words (strip s) := by
    conv_lhs => rw [hs]
    rw [← words_dropBlanks, dropBlanks_of_isAllBlank hu, words_dropBlanks, hend]
  rw [collapse, collapse, hwords]

end Collapse

/-! ### Wrappers -/

/-- What may stand behind a backslash in an answer, but for blanks. -/
def Unspaced (d : Char) : Prop :=
  Escapable d ∧ isBlank d = false

instance : DecidablePred Unspaced := fun d =>
  inferInstanceAs (Decidable (Escapable d ∧ isBlank d = false))

/-- The same, with the brackets of a display. -/
def Wrapping (d : Char) : Prop :=
  Unspaced d ∨ d ∈ displayBrackets

section Wrappers

variable {escaped escaped' : Char → Prop} {loose : Bool} {c d : Char} {a b s t : Text}

theorem Wrapping.isBlank (hd : Wrapping d) : isBlank d = false := by
  have hall : ∀ d ∈ displayBrackets, NumericAnswer.isBlank d = false := forall_mem_of_all (by decide)
  exact hd.elim (fun hd => hd.2) (hall d)

theorem Wrapping.ne_backslash (hd : Wrapping d) : d ≠ '\\' := by
  rcases hd with hd | hd
  · exact hd.1.ne_backslash
  · rintro rfl
    exact absurd hd (by decide)

theorem respaced_dropDisplayOpening (h : Respaced false Wrapping s t)
    (hhead : s.head?.any isBlank = false) :
    Respaced false Wrapping (dropDisplayOpening s) (dropDisplayOpening t) := by
  cases s with
  | nil =>
    rw [h.eq_nil]
    exact .nil
  | cons c s =>
    by_cases hc : c = '\\'
    · subst hc
      obtain ⟨d, s, t, rfl, rfl, hd, h⟩ := h.of_backslash
      rw [dropDisplayOpening_escape, dropDisplayOpening_escape]
      split
      · exact h
      · exact h.escape hd
    · obtain ⟨b, t, rfl, hgap, hrest⟩ := h.of_cons hhead hc
      have hrows := hgap.resolve_right (by simp)
      obtain rfl := hrows.nil_iff.mp rfl
      rw [List.nil_append, dropDisplayOpening_cons hc, dropDisplayOpening_cons hc]
      exact hrest.cons hhead hc

theorem getLast?_ne_of_isAllBlank (hb : isAllBlank b = true) : b.getLast? ≠ some '\\' :=
  fun h => notMem_backslash_of_isAllBlank hb (List.mem_of_getLast? h)

theorem respaced_dropDisplayClosing (h : Respaced loose Wrapping s t) :
    Respaced loose Wrapping (dropDisplayClosing s) (dropDisplayClosing t) := by
  induction h with
  | ends hb =>
    rw [dropDisplayClosing_of_notMem (notMem_backslash_of_isAllBlank hb.left),
      dropDisplayClosing_of_notMem (notMem_backslash_of_isAllBlank hb.right)]
    exact .ends hb
  | char hb hblank hc _ ih =>
    rw [dropDisplayClosing_append hc fun _ h => absurd h (getLast?_ne_of_isAllBlank hb.left),
      dropDisplayClosing_append hc fun _ h => absurd h (getLast?_ne_of_isAllBlank hb.right)]
    exact .char hb hblank hc ih
  | @command b b' d s t hb hd h ih =>
    by_cases hs : s = []
    · subst hs
      obtain rfl := h.eq_nil
      rw [dropDisplayClosing_escape, dropDisplayClosing_escape]
      split
      · exact .ends hb
      · exact .command hb hd h
    · have ht : t ≠ [] := by
        rintro rfl
        exact hs h.symm.eq_nil
      rw [List.append_cons b, List.append_cons b',
        dropDisplayClosing_append hd.ne_backslash fun h => absurd h hs,
        dropDisplayClosing_append hd.ne_backslash fun h => absurd h ht, ← List.append_cons,
        ← List.append_cons]
      exact .command hb hd ih

theorem commanded_of_mem_display {w : Text} (hw : w ∈ displayOpenings ++ displayClosings) :
    Commanded Wrapping w := by
  have hall : ∀ w ∈ displayOpenings ++ displayClosings, Commanded (· ∈ displayBrackets) w := by
    decide +kernel
  exact (hall w hw).mono fun _ => Or.inr

/-- The display brackets of an answer stand behind backslashes. -/
theorem commanded_of_unwrapped
    (h : Commanded Wrapping (strip (dropDisplayClosing (dropDisplayOpening s)))) :
    Commanded Wrapping s := by
  obtain ⟨p, hp, hs⟩ := exists_displayOpening s
  obtain ⟨q, hq, ht⟩ := exists_displayClosing (dropDisplayOpening s)
  obtain ⟨u, v, hu, hv, hr⟩ := exists_blanks_strip (dropDisplayClosing (dropDisplayOpening s))
  have hblank : ∀ {b : Text}, isAllBlank b = true → Commanded Wrapping b := fun hb =>
    commanded_of_notMem (notMem_backslash_of_isAllBlank hb)
  rw [hs, ht, hr]
  exact (commanded_of_mem_display (List.mem_append_left _ hp)).append
    (((hblank hu).append (h.append (hblank hv))).append
      (commanded_of_mem_display (List.mem_append_right _ hq)))

/-- An answer and its collapsed form are respaced without their wrappers. -/
theorem respaced_unwrapped_collapse {answer : Text} (hdollar : '$' ∉ answer)
    (hcommands : Commanded Unspaced (unwrapped answer)) :
    Respaced false Escapable (unwrapped answer) (unwrapped (collapse answer)) := by
  have hstrip := unwrapped_of_notMem hdollar
  have hcommanded : Commanded Wrapping (strip answer) :=
    commanded_of_unwrapped (hstrip ▸ hcommands.mono fun _ => Or.inl)
  have hcollapse := respaced_collapse (fun _ => Wrapping.isBlank) hcommanded (head?_strip_any answer)
    (getLast?_strip_any answer)
  have hdollar' : '$' ∉ collapse answer := by
    rw [← collapse_strip]
    intro hm
    obtain ⟨u, v, -, -, hs⟩ := exists_blanks_strip answer
    exact hdollar (hs ▸ List.mem_append_right _
      (List.mem_append_left _ (hcollapse.symm.mem (by decide) hm)))
  rw [collapse_strip] at hcollapse
  have hwrapped := (respaced_dropDisplayClosing
    (respaced_dropDisplayOpening hcollapse (head?_strip_any answer))).strip fun _ => Wrapping.isBlank
  rw [← hstrip, ← strip_collapse answer, ← unwrapped_of_notMem hdollar'] at hwrapped
  exact hwrapped.of_commanded (hcommands.mono fun _ hd => hd.1)

end Wrappers

/-! ### The command for display style -/

/-- The command for display style stands in front of the text, or nowhere, and no letter follows
it. -/
def StyledFirst (s : Text) : Prop :=
  ∃ v, (s = v ∨ s = displayStyleCommand ++ v ∧ v.head?.any isAsciiLetter = false) ∧
    ¬displayStyleCommand <:+: v

/-- What stands around the text of an answer has no part of a command that is looked for. -/
def Margin (s : Text) : Prop :=
  (∀ c ∈ s, isAsciiLetter c = false) ∧ s.getLast? ≠ some '\\'

section Style

variable {a b s t v : Text}

theorem margin_of_isAllBlank (hb : isAllBlank b = true) : Margin b := by
  refine ⟨fun c hc => ?_, getLast?_ne_of_isAllBlank hb⟩
  have hblank := List.all_eq_true.mp hb c hc
  cases hletter : isAsciiLetter c with
  | false => rfl
  | true => exact absurd (hblank.symm.trans (isBlank_of_lexeme_char (.inl hletter))) (by decide)

theorem Margin.append (ha : Margin a) (hb : Margin b) : Margin (a ++ b) := by
  refine ⟨fun c hc => (List.mem_append.mp hc).elim (ha.1 c) (hb.1 c), fun hlast => ?_⟩
  rw [List.getLast?_append] at hlast
  cases hb' : b.getLast? with
  | none =>
    rw [hb'] at hlast
    exact ha.2 hlast
  | some c =>
    rw [hb'] at hlast
    exact hb.2 (hb'.trans hlast)

theorem margin_of_mem_display {w : Text} (hw : w ∈ displayOpenings ++ displayClosings) : Margin w := by
  simp only [displayOpenings, displayClosings, List.mem_append, List.mem_cons, List.not_mem_nil,
    or_false] at hw
  rcases hw with (rfl | rfl | rfl) | rfl | rfl | rfl
  all_goals exact ⟨forall_mem_of_all (by decide), by decide⟩

theorem erase_append_self (s : Text) : erase displayStyleCommand (displayStyleCommand ++ s) =
    erase displayStyleCommand s := by
  have hcommand : displayStyleCommand ++ s = '\\' :: ("displaystyle".toList ++ s) := rfl
  rw [hcommand, erase, if_pos]
  · rfl
  · rw [← hcommand, List.isPrefixOf_iff_prefix]
    exact List.prefix_append _ _

/-- The command does not begin in a margin. -/
theorem Margin.erase_append (ha : Margin a) (s : Text) :
    erase displayStyleCommand (a ++ s) = a ++ erase displayStyleCommand s := by
  induction a with
  | nil => rfl
  | cons c a ih =>
    have ha' : Margin a := by
      refine ⟨fun d hd => ha.1 d (List.mem_cons_of_mem _ hd), fun h => ha.2 ?_⟩
      rw [List.getLast?_cons, h]
      rfl
    rw [List.cons_append, erase, if_neg, ih ha', List.cons_append]
    rw [List.isPrefixOf_iff_prefix]
    intro hcommand
    have hcommand : '\\' :: ("displaystyle".toList) <+: c :: (a ++ s) := hcommand
    obtain ⟨rfl, hname⟩ := List.cons_prefix_cons.mp hcommand
    cases a with
    | nil => exact ha.2 rfl
    | cons d a =>
      have hname : 'd' :: "isplaystyle".toList <+: d :: (a ++ s) := hname
      obtain ⟨rfl, -⟩ := List.cons_prefix_cons.mp hname
      exact absurd (ha'.1 _ (List.mem_cons_self ..)) (by decide)

theorem Margin.erase_eq (ha : Margin a) : erase displayStyleCommand a = a := by
  have happend := ha.erase_append []
  rwa [List.append_nil, erase, List.append_nil] at happend

theorem Margin.head (ha : Margin a) : a.head?.any isAsciiLetter = false := by
  cases a with
  | nil => rfl
  | cons c a => exact ha.1 c (List.mem_cons_self ..)

/-- Nothing is erased from a text without the command, also before a margin. -/
theorem erase_of_not_infix (hs : ¬displayStyleCommand <:+: s) (ha : Margin a) :
    erase displayStyleCommand (s ++ a) = s ++ a := by
  induction s with
  | nil => exact ha.erase_eq
  | cons c s ih =>
    rw [List.cons_append, erase, if_neg, ih fun h => hs (h.trans (List.suffix_cons c s).isInfix)]
    rw [List.isPrefixOf_iff_prefix]
    intro hcommand
    have hcommand : '\\' :: ("displaystyle".toList) <+: c :: (s ++ a) := hcommand
    obtain ⟨rfl, hname⟩ := List.cons_prefix_cons.mp hcommand
    have hletters : ∀ c ∈ "displaystyle".toList, isAsciiLetter c = true :=
      forall_mem_of_all (by decide)
    have hsplit := leadingLetters_append_dropWhile s
    rw [← hsplit, List.append_assoc] at hname
    have hrest : (s.dropWhile isAsciiLetter ++ a).head?.any isAsciiLetter = false := by
      cases hd : s.dropWhile isAsciiLetter with
      | nil => exact ha.head
      | cons d r =>
        have := head?_dropWhile_any isAsciiLetter s
        rwa [hd] at this
    have hfront := prefix_of_letters hletters isAsciiLetter_of_mem_leadingLetters hrest hname
    refine hs (List.IsPrefix.isInfix ?_)
    exact List.cons_prefix_cons.mpr ⟨rfl, List.IsPrefix.trans hfront (List.takeWhile_prefix _)⟩

theorem Commanded.undisplayed (h : Commanded Escapable s) : Undisplayed s := by
  induction h with
  | nil => exact .nil
  | cons hc _ ih => exact List.isChain_cons.mpr ⟨fun _ _ he => absurd he hc, ih⟩
  | @escape d s hd _ ih =>
    have hbracket : d ∉ displayBrackets := by
      intro hm
      have hall : ∀ d ∈ displayBrackets, ¬Escapable d := forall_mem_of_all (by decide)
      exact hall d hm hd
    refine List.isChain_cons_cons.mpr ⟨fun _ => hbracket, ?_⟩
    exact List.isChain_cons.mpr ⟨fun _ _ he => absurd he hd.ne_backslash, ih⟩

/-- Margins stand around the text of an answer, and around another one in its place. -/
theorem exists_margins (hdollar : '$' ∉ s) : ∃ a b, Margin a ∧ Margin b ∧
    s = a ++ (unwrapped s ++ b) ∧
      ∀ t, Commanded Escapable t → '$' ∉ t → unwrapped (a ++ (t ++ b)) = strip t := by
  obtain ⟨b₁, b₄, hb₁, hb₄, hs⟩ := exists_blanks_strip s
  obtain ⟨p, hp, hopening⟩ := exists_displayOpening (strip s)
  obtain ⟨q, hq, hclosing⟩ := exists_displayClosing (dropDisplayOpening (strip s))
  obtain ⟨b₂, b₃, hb₂, hb₃, hcontent⟩ :=
    exists_blanks_strip (dropDisplayClosing (dropDisplayOpening (strip s)))
  rw [← unwrapped_of_notMem hdollar] at hcontent
  refine ⟨b₁ ++ (p ++ b₂), b₃ ++ (q ++ b₄), ?_, ?_, ?_, fun t ht htdollar => ?_⟩
  · exact (margin_of_isAllBlank hb₁).append
      ((margin_of_mem_display (List.mem_append_left _ hp)).append (margin_of_isAllBlank hb₂))
  · exact (margin_of_isAllBlank hb₃).append
      ((margin_of_mem_display (List.mem_append_right _ hq)).append (margin_of_isAllBlank hb₄))
  · conv_lhs => rw [hs, hopening, hclosing, hcontent]
    simp only [List.append_assoc]
  · have hblank : ∀ {b : Text}, isAllBlank b = true → Commanded Escapable b ∧ '$' ∉ b := by
      intro b hb
      refine ⟨commanded_of_notMem (notMem_backslash_of_isAllBlank hb), fun hm => ?_⟩
      exact absurd (List.all_eq_true.mp hb _ hm) (by decide)
    have hdollars : '$' ∉ b₂ ++ (t ++ b₃) := by
      simp only [List.mem_append, not_or]
      exact ⟨(hblank hb₂).2, htdollar, (hblank hb₃).2⟩
    have hdisplay := (hblank hb₂).1.append (ht.append (hblank hb₃).1) |>.undisplayed
    have hwrapped := unwrapped_wrapped hp hq hdisplay hdollars
    have hassoc : (b₁ ++ (p ++ b₂)) ++ (t ++ (b₃ ++ (q ++ b₄))) =
        b₁ ++ ((p ++ ((b₂ ++ (t ++ b₃)) ++ q)) ++ b₄) := by
      simp only [List.append_assoc]
    rw [strip_blanks hb₂ hb₃] at hwrapped
    rw [hassoc, unwrapped, strip_blanks hb₁ hb₄]
    exact hwrapped

end Style

/-! ### Values -/

section Values

variable {answer v : Text}

/-- **Blanks in a row count as one space.** -/
theorem Outcome.value_collapse [MathLibrary] (hdollar : '$' ∉ answer)
    (hcommands : Commanded Unspaced (unwrapped answer))
    (hsealed : Rule.upright.isSealed (Canonical.beforeUpright (unwrapped answer)) = true) :
    (ofText (collapse answer)).value? = (ofText answer).value? :=
  value_respaced (respaced_unwrapped_collapse hdollar hcommands) hsealed fun h => absurd h (by decide)

theorem getLast?_unwrapped (s : Text) : (unwrapped s).getLast?.any isBlank = false :=
  getLast?_strip_any _

theorem strip_eq_dropBlanks (hlast : v.getLast?.any isBlank = false) : strip v = dropBlanks v := by
  obtain ⟨b, -, hb⟩ := exists_blanks_append v
  have hstrip : strip v = strip (dropBlanks v) := by
    rw [strip, strip, dropBlanks_dropBlanks]
  rw [hb] at hlast
  rw [hstrip]
  exact strip_eq_self (head?_dropWhile_any isBlank v) (getLast?_any_of_append hlast)

theorem Commanded.of_displayStyle {escaped : Char → Prop}
    (h : Commanded escaped (displayStyleCommand ++ v)) : Commanded escaped v := by
  have hcommand : displayStyleCommand ++ v = '\\' :: 'd' :: ("isplaystyle".toList ++ v) := rfl
  rw [hcommand] at h
  cases h with
  | cons hc => exact absurd rfl hc
  | escape _ h => exact h.of_append (by decide)

/-- What is cleaned has the canonical form of the answer before its blanks are collapsed. -/
theorem exists_cleaned (hdollar : '$' ∉ stripDollars (strip answer))
    (hcommands : Commanded Unspaced (unwrapped answer))
    (hsealed : Rule.upright.isSealed (Canonical.beforeUpright (unwrapped answer)) = true)
    (hstyle : StyledFirst (unwrapped answer)) :
    ∃ bare, cleaned answer = collapse bare ∧ canonical bare = canonical answer ∧ '$' ∉ bare ∧
      Commanded Unspaced (unwrapped bare) ∧
        Rule.upright.isSealed (Canonical.beforeUpright (unwrapped bare)) = true := by
  have hunwrapped : unwrapped (stripDollars (strip answer)) = unwrapped answer :=
    unwrapped_of_notMem hdollar
  obtain ⟨a, b, ha, hb, hsplit, hmargins⟩ := exists_margins hdollar
  have hcleaned : cleaned answer =
      collapse (a ++ erase displayStyleCommand (unwrapped answer ++ b)) := by
    rw [cleaned, hsplit, ha.erase_append, hunwrapped]
  rw [hunwrapped] at hsplit
  obtain ⟨v, hv | ⟨hv, hletter⟩, hfree⟩ := hstyle
  · refine ⟨stripDollars (strip answer), ?_, ?_, hdollar, ?_, ?_⟩
    · rw [hcleaned, hv, erase_of_not_infix hfree hb, ← hv, ← hsplit]
    · rw [canonical, canonical, Canonical.simplified, Canonical.simplified, hunwrapped]
    · rw [hunwrapped]
      exact hcommands
    · rw [hunwrapped]
      exact hsealed
  · rw [hv] at hcommands hsplit
    have hcommands := hcommands.of_displayStyle
    have hvdollar : '$' ∉ v := by
      rw [hsplit] at hdollar
      simp only [List.mem_append, not_or] at hdollar
      exact hdollar.2.1.2
    have hlast := getLast?_unwrapped answer
    rw [hv] at hlast
    have hbare : unwrapped (a ++ (v ++ b)) = dropBlanks v := by
      rw [hmargins v (hcommands.mono fun _ hd => hd.1) hvdollar]
      exact strip_eq_dropBlanks (getLast?_any_of_append hlast)
    have hname : "displaystyle".toList ∈ Rule.styleNames := by decide
    have herase : erase displayStyleCommand (displayStyleCommand ++ v ++ b) = v ++ b := by
      rw [List.append_assoc, erase_append_self]
      exact erase_of_not_infix hfree hb
    refine ⟨a ++ (v ++ b), ?_, ?_, ?_, ?_, ?_⟩
    · rw [hcleaned, hv, herase]
    · exact ((Ornament.style _ hname).canonical_dropped
        ⟨hletter, .inl (settled_of_notMem (List.not_mem_nil))⟩ hv hbare).symm
    · rw [hsplit] at hdollar
      simp only [List.mem_append, not_or] at hdollar ⊢
      exact ⟨hdollar.1, hdollar.2.1.2, hdollar.2.2⟩
    · rw [hbare]
      exact hcommands.dropBlanks
    · rw [hbare, Canonical.beforeUpright, ← Ornament.style_taken hname hletter]
      rw [hv] at hsealed
      exact hsealed

/-- **A cleaned answer has the value of the answer**, or neither has one, if no dollar sign is left
and the command for display style stands in front, before no letter. Behind the backslashes of the
answer stand letters, braces or signs for spaces, and no name in upright letters ends in one. -/
theorem Outcome.value_cleaned [MathLibrary] (hdollar : '$' ∉ stripDollars (strip answer))
    (hcommands : Commanded Unspaced (unwrapped answer))
    (hsealed : Rule.upright.isSealed (Canonical.beforeUpright (unwrapped answer)) = true)
    (hstyle : StyledFirst (unwrapped answer)) :
    (ofText (cleaned answer)).value? = (ofText answer).value? ∧
      isNumericAnswer answer = (ofText answer).isSuccess := by
  obtain ⟨bare, hcleaned, hcanonical, hdollar, hcommands, hsealed⟩ :=
    exists_cleaned hdollar hcommands hsealed hstyle
  have hvalue : (ofText (cleaned answer)).value? = (ofText answer).value? := by
    rw [hcleaned, value_collapse hdollar hcommands hsealed, value?_ofText, value?_ofText, hcanonical]
  refine ⟨hvalue, ?_⟩
  have hsuccess : ∀ o : Outcome, o.isSuccess = o.value?.isSome := by
    intro o
    cases o <;> rfl
  rw [isNumericAnswer, hsuccess, hsuccess, hvalue]

end Values

/-- A fraction in display style, in dollar signs. -/
theorem Outcome.value_cleaned_fraction :
    (@ofText .native (cleaned "$\\displaystyle \\frac{1}{  2}$".toList)).value? =
        (@ofText .native "$\\displaystyle \\frac{1}{  2}$".toList).value? ∧
      @isNumericAnswer .native "$\\displaystyle \\frac{1}{  2}$".toList =
        (@ofText .native "$\\displaystyle \\frac{1}{  2}$".toList).isSuccess := by
  have hunwrapped : unwrapped "$\\displaystyle \\frac{1}{  2}$".toList =
      displayStyleCommand ++ " \\frac{1}{  2}".toList := by
    decide +kernel
  have hcommands : Commanded Unspaced (unwrapped "$\\displaystyle \\frac{1}{  2}$".toList) := by
    rw [hunwrapped]
    decide +kernel
  exact @value_cleaned "$\\displaystyle \\frac{1}{  2}$".toList .native (by decide +kernel) hcommands
    (by decide +kernel) ⟨_, .inr ⟨hunwrapped, by decide⟩, by decide +kernel⟩

/-- Letters behind the command for display style make another command of it, which is none. The
front is taken away all the same, and the letters are left. -/
theorem Expr.parse_cut :
    (parse (canonical "\\displaystylepi".toList)).toOption.isSome = false ∧
      (parse (canonical (cleaned "\\displaystylepi".toList))).toOption.isSome = true := by
  have hcanonical : canonical "\\displaystylepi".toList = "\\displaystylepi".toList := by
    decide +kernel
  have hcleaned : canonical (cleaned "\\displaystylepi".toList) = "pi".toList := by
    decide +kernel
  rw [hcanonical, hcleaned]
  exact ⟨by decide +kernel, by decide +kernel⟩

end NumericAnswer
