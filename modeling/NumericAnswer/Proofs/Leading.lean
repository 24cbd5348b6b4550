/-
# The sign in front of an exponent

The exponent between a function and its argument must not begin with a minus sign once
the passes before have rewritten it in its place. There blanks may stand around it, which
its canonical form does not have. But all that blanks change in the cosmetic
substitutions is blanks and backslashes at the end; so the exponent begins with a minus
sign in its place only if its canonical form does.

Key definitions: `Faint`, `Fading`.
Key theorems: `Canonical.fading_unadorned`, `Rewrites.head?_of_minus`,
`Canonical.head?_strip_ne`.
-/
import NumericAnswer.Proofs.NestedPower
import NumericAnswer.Proofs.Unadorned

namespace NumericAnswer

/-! ### Blanks and backslashes at the end -/

/-- Nothing but blanks and backslashes. -/
def Faint (s : Text) : Prop :=
  ∀ c ∈ s, c = '\\' ∨ isBlank c = true

section Faint

variable {c : Char} {s e : Text}

theorem faint_of_isAllBlank (h : isAllBlank s = true) : Faint s :=
  fun c hc => .inr (List.all_eq_true.mp h c hc)

theorem Faint.tail (h : Faint (c :: s)) : Faint s :=
  fun d hd => h d (List.mem_cons_of_mem _ hd)

theorem Faint.drop (h : Faint s) (n : Nat) : Faint (s.drop n) :=
  fun c hc => h c (List.mem_of_mem_drop hc)

theorem Faint.append (hs : Faint s) (he : Faint e) : Faint (s ++ e) :=
  fun c hc => (List.mem_append.mp hc).elim (hs c) (he c)

/-- Some character that is neither a blank nor a backslash. -/
theorem Faint.ne (h : Faint s) {d : Char} (hd : d ≠ '\\' ∧ isBlank d = false) : d ∉ s := by
  intro hm
  rcases h d hm with rfl | hb
  · exact hd.1 rfl
  · rw [hd.2] at hb
    cases hb

theorem Faint.head?_isAsciiLetter (h : Faint s) : s.head?.any isAsciiLetter = false := by
  cases s with
  | nil => rfl
  | cons c s =>
    rcases h c (List.mem_cons_self ..) with rfl | hb
    · exact (by decide : isAsciiLetter '\\' = false)
    · exact isAsciiLetter_of_isAlphanumeric (isAlphanumeric_of_isBlank hb)

theorem Faint.leadingLetters_eq (h : Faint s) : leadingLetters s = [] := by
  cases s with
  | nil => rfl
  | cons c s =>
    have hc : isAsciiLetter c = false := h.head?_isAsciiLetter
    simp [leadingLetters, hc]

end Faint

/-- What a rule finds at a character of a text before faint ends. -/
inductive Rule.Steady (rule : Rule) (c : Char) (s : Text) : Prop where
  | faint (h : Faint (c :: s))
  | nothing (h : ∀ e, Faint e → rule c (s ++ e) = none)
  | inside (out : Text) (n : Nat) (hn : n ≤ s.length)
      (h : ∀ e, Faint e → rule c (s ++ e) = some (out, n))
  | through (out : Text)
      (h : ∀ e, Faint e → ∃ n, s.length ≤ n ∧ rule c (s ++ e) = some (out, n))

/-- Faint ends of a text stay faint ends, and do not matter before them. -/
structure Rule.Fades (rule : Rule) : Prop where
  faint {c : Char} {s out : Text} {n : Nat} (h : Faint (c :: s)) (hr : rule c s = some (out, n)) :
    Faint out
  steady (c : Char) (s : Text) : rule.Steady c s

/-- Faint ends of the text are all that makes a difference, and it is one of faint ends. -/
def Fading (f : Text → Text) : Prop :=
  ∀ p, ∃ q, ∀ e, Faint e → ∃ e', Faint e' ∧ f (p ++ e) = q ++ e'

theorem Fading.comp {f g : Text → Text} (hf : Fading f) (hg : Fading g) :
    Fading fun s => f (g s) := by
  intro p
  obtain ⟨q, hq⟩ := hg p
  obtain ⟨r, hr⟩ := hf q
  refine ⟨r, fun e he => ?_⟩
  obtain ⟨e', he', h⟩ := hq e he
  obtain ⟨e'', he'', h'⟩ := hr e' he'
  exact ⟨e'', he'', (congrArg f h).trans h'⟩

namespace Rule

section Fading

variable {rule : Rule} (hr : rule.Fades)
include hr

theorem Fades.substituteFrom (b : Option Char) {e : Text} (he : Faint e) :
    Faint (substituteFrom (fun _ => rule) b e) := by
  fun_induction NumericAnswer.substituteFrom (fun _ => rule) b e with
  | case1 => exact he
  | case2 _ c s out n h ih => exact (hr.faint he h).append (ih (he.tail.drop n))
  | case3 _ c s _ ih =>
    intro d hd
    rcases List.mem_cons.mp hd with rfl | hd
    · exact he _ (List.mem_cons_self ..)
    · exact ih he.tail d hd

theorem Fades.exists_front (p : Text) (b : Option Char) : ∃ q, ∀ e, Faint e → ∃ e', Faint e' ∧
    NumericAnswer.substituteFrom (fun _ => rule) b (p ++ e) = q ++ e' := by
  cases p with
  | nil => exact ⟨[], fun e he => ⟨_, hr.substituteFrom b he, rfl⟩⟩
  | cons c s =>
    rcases hr.steady c s with h | h | ⟨out, n, hn, h⟩ | ⟨out, h⟩
    · exact ⟨[], fun e he => ⟨_, hr.substituteFrom b (h.append he), rfl⟩⟩
    · obtain ⟨q, hq⟩ := exists_front s (some c)
      refine ⟨c :: q, fun e he => ?_⟩
      obtain ⟨e', he', heq⟩ := hq e he
      refine ⟨e', he', ?_⟩
      rw [List.cons_append, NumericAnswer.substituteFrom]
      simp [h e he, heq]
    · obtain ⟨q, hq⟩ := exists_front (s.drop n) (c :: s.take n).getLast?
      refine ⟨out ++ q, fun e he => ?_⟩
      obtain ⟨e', he', heq⟩ := hq e he
      refine ⟨e', he', ?_⟩
      rw [List.cons_append, NumericAnswer.substituteFrom]
      simp only [h e he, List.take_append_of_le_length hn, List.drop_append_of_le_length hn, heq,
        List.append_assoc]
    · refine ⟨out, fun e he => ?_⟩
      obtain ⟨n, hn, heq⟩ := h e he
      have hdrop : (s ++ e).drop n = e.drop (n - s.length) := by
        rw [List.drop_append, List.drop_of_length_le hn, List.nil_append]
      rw [List.cons_append, NumericAnswer.substituteFrom]
      simp only [heq, hdrop]
      exact ⟨_, hr.substituteFrom _ (he.drop _), rfl⟩
termination_by p.length
decreasing_by all_goals simp only [List.length_cons, List.length_drop]; omega

theorem Fades.fading : Fading (substitute rule) :=
  fun p => hr.exists_front p none

end Fading

section Commands

variable {names : List Text} {build : Nat → Text → Option (Text × Nat)}

theorem command_of_faint (hn : [] ∉ names) {c : Char} {s : Text} (h : Faint (c :: s)) :
    command names build c s = none := by
  simp [command, h.tail.leadingLetters_eq, hn]

theorem command_append_of_faint {e : Text} (he : Faint e) (c : Char) (s : Text) :
    command names build c (s ++ e) = if c = '\\' && names.contains (leadingLetters s) then
      build (leadingLetters s).length (s.drop (leadingLetters s).length ++ e) else none := by
  simp only [command, leadingLetters_append_of_head he.head?_isAsciiLetter,
    drop_leadingLetters_append]

/-- Faint ends matter for no command if they matter for none with its name read. -/
theorem fades_command (hn : [] ∉ names) (hb : ∀ length rest,
    (∀ e, Faint e → build length (rest ++ e) = none) ∨
      (∃ out n, n ≤ rest.length ∧ ∀ e, Faint e → build length (rest ++ e) = some (out, length + n)) ∨
      ∃ out, ∀ e, Faint e → ∃ n, rest.length ≤ n ∧
        build length (rest ++ e) = some (out, length + n)) :
    (command names build).Fades where
  faint h hr := by
    rw [command_of_faint hn h] at hr
    cases hr
  steady c s := by
    have hlength := length_leadingLetters_le s
    by_cases hc : (c = '\\' && names.contains (leadingLetters s)) = true
    · have happ : ∀ {e : Text}, Faint e → command names build c (s ++ e) =
          build (leadingLetters s).length (s.drop (leadingLetters s).length ++ e) := fun he => by
        rw [command_append_of_faint he, if_pos hc]
      rcases hb (leadingLetters s).length (s.drop (leadingLetters s).length) with
        h | ⟨out, n, hle, h⟩ | ⟨out, h⟩
      · exact .nothing fun e he => (happ he).trans (h e he)
      · rw [List.length_drop] at hle
        exact .inside out _ (by omega) fun e he => (happ he).trans (h e he)
      · refine .through out fun e he => ?_
        obtain ⟨n, hle, heq⟩ := h e he
        rw [List.length_drop] at hle
        exact ⟨_, by omega, (happ he).trans heq⟩
    · exact .nothing fun e he => by rw [command_append_of_faint he, if_neg hc]

/-- What goes with the blanks after it. -/
theorem fades_style : style.Fades := by
  refine fades_command (by decide) fun length rest => .inr ?_
  by_cases hrest : dropBlanks rest = []
  · refine .inr ⟨[], fun e _ => ⟨_, ?_, rfl⟩⟩
    rw [blankLength_of_isAllBlank (dropBlanks_eq_nil_iff.mp hrest)]
    omega
  · exact .inl ⟨[], _, blankLength_le rest, fun e _ => by rw [blankLength_append hrest]⟩

theorem fades_sizing : sizing.Fades := by
  rw [sizing_eq]
  refine fades_command (by decide) fun length rest => .inr ?_
  by_cases hrest : dropBlanks rest = []
  · refine .inr ⟨[], fun e _ => ⟨_, ?_, congrArg some (Prod.ext rfl (Nat.add_assoc ..))⟩⟩
    rw [blankLength_of_isAllBlank (dropBlanks_eq_nil_iff.mp hrest)]
    omega
  · refine .inl ⟨[], blankLength rest + if (dropBlanks rest).head? = some '.' then 1 else 0, ?_,
      fun e _ => ?_⟩
    · have hlength := congrArg List.length (drop_blankLength rest)
      rw [List.length_drop] at hlength
      split
      · next hhead =>
        obtain ⟨t, ht⟩ := List.head?_eq_some_iff.mp hhead
        rw [ht, List.length_cons] at hlength
        omega
      · exact blankLength_le rest
    · rw [blankLength_append hrest, dropBlanks_append hrest, List.head?_append_of_ne_nil _ hrest,
        Nat.add_assoc]

theorem fades_bar : bar.Fades :=
  fades_command (by decide) fun _ _ => .inr (.inl ⟨_, 0, Nat.zero_le _, fun _ _ => rfl⟩)

/-- Braces end at a brace. -/
theorem braced?_append_of_faint {s e : Text} (he : Faint e) : braced? (s ++ e) = braced? s := by
  have hbrace : ∀ d ∈ e, notBrace d = true := by
    intro d hd
    rcases he d hd with rfl | hb
    · decide
    · by_contra hne
      have hd : d = '\x7b' ∨ d = '\x7d' := by
        simp only [notBrace, Bool.and_eq_true, decide_eq_true_eq, not_and_or, not_not] at hne
        exact hne
      rcases hd with rfl | rfl <;> cases hb
  cases hsome : braced? s with
  | some p => exact (braced?_append hsome e).2
  | none =>
    by_cases hhead : (dropBlanks s).head? = some '\x7b'
    · obtain ⟨t, ht⟩ := List.head?_eq_some_iff.mp hhead
      have happ : dropBlanks (s ++ e) = '\x7b' :: (t ++ e) := by
        rw [dropBlanks_append (by simp [ht]), ht, List.cons_append]
      rw [braced?_eq ht] at hsome
      rw [braced?_eq happ, if_neg]
      intro hclose
      by_cases hopen : t.dropWhile notBrace = []
      · rw [List.dropWhile_append, hopen] at hclose
        simp [List.dropWhile_eq_nil_iff.mpr hbrace] at hclose
      · rw [dropWhile_append_of_ne_nil hopen, List.head?_append_of_ne_nil _ hopen] at hclose
        rw [if_pos hclose] at hsome
        cases hsome
    · refine braced?_eq_none ?_
      by_cases hs : dropBlanks s = []
      · rw [dropBlanks_of_isAllBlank (dropBlanks_eq_nil_iff.mp hs)]
        intro hhead
        have hmem := (List.dropWhile_sublist isBlank).subset (List.mem_of_mem_head? hhead)
        exact he.ne (by decide) hmem
      · rwa [dropBlanks_append hs, List.head?_append_of_ne_nil _ hs]

theorem fades_wrapper {names : List Text} (hn : [] ∉ names) (make : Text → Text) :
    (command names fun length rest => (braced? rest).map fun (content, braces) =>
      (make content, length + braces)).Fades := by
  refine fades_command hn fun length rest => ?_
  cases hb : braced? rest with
  | none => exact .inl fun e he => by rw [braced?_append_of_faint he, hb]; rfl
  | some p =>
    exact .inr (.inl ⟨make p.1, p.2, (braced?_append hb []).1, fun e he => by
      rw [braced?_append_of_faint he, hb]; rfl⟩)

end Commands

theorem fades_spacing : spacing.Fades where
  faint h hr := by
    unfold spacing at hr
    split at hr
    · obtain ⟨rfl, -⟩ := Prod.mk.inj (Option.some.inj hr)
      exact faint_of_isAllBlank (by decide)
    · split at hr
      · obtain ⟨rfl, -⟩ := Prod.mk.inj (Option.some.inj hr)
        exact faint_of_isAllBlank (by decide)
      · rw [command_of_faint (by decide) h] at hr
        cases hr
  steady c s := by
    by_cases htie : c = '~'
    · exact .inside [' '] 0 (Nat.zero_le _) fun e _ => by rw [spacing, if_pos htie]
    · by_cases hs : c = '\\' ∧ s = []
      · exact .faint fun d hd => .inl (by simpa [hs.1, hs.2] using hd)
      · have hhead : ∀ e : Text, (decide (c = '\\') && (s ++ e).head?.any spacingSigns.contains) =
            (decide (c = '\\') && s.head?.any spacingSigns.contains) :=
          fun e => spacing_head fun hc hnil => hs ⟨hc, hnil⟩
        by_cases hsign : (decide (c = '\\') && s.head?.any spacingSigns.contains) = true
        · refine .inside [' '] 1 (length_pos_of_head (Bool.and_eq_true_iff.mp hsign).2) fun e _ => ?_
          rw [spacing, if_neg htie, hhead, if_pos hsign]
        · have hcommand : (command ["quad".toList, "qquad".toList]
              fun length _ => some ([' '], length)).Fades :=
            fades_command (by decide) fun _ _ => .inr (.inl ⟨_, 0, Nat.zero_le _, fun _ _ => rfl⟩)
          have heq : ∀ e : Text, spacing c (s ++ e) = command ["quad".toList, "qquad".toList]
              (fun length _ => some ([' '], length)) c (s ++ e) := fun e => by
            rw [spacing, if_neg htie, hhead, if_neg hsign]
          rcases hcommand.steady c s with h | h | ⟨out, n, hn, h⟩ | ⟨out, h⟩
          · exact .faint h
          · exact .nothing fun e he => (heq e).trans (h e he)
          · exact .inside out n hn fun e he => (heq e).trans (h e he)
          · exact .through out fun e he => (heq e).symm ▸ h e he

theorem fades_escapedBrace : escapedBrace.Fades where
  faint h hr := by
    have hbrace : ∀ d ∈ ['\x7b', '\x7d'], ∀ {s : Text}, Faint s → s.head? ≠ some d := by
      intro d hd s hs hhead
      refine hs.ne ?_ (List.mem_of_mem_head? hhead)
      simp only [List.mem_cons, List.not_mem_nil, or_false] at hd
      rcases hd with rfl | rfl <;> decide
    simp [escapedBrace, hbrace _ _ h.tail] at hr
  steady c s := by
    by_cases hc : c = '\\'
    · cases s with
      | nil => exact .faint fun d hd => .inl (by simpa [hc] using hd)
      | cons d s =>
        by_cases hopen : d = '\x7b'
        · exact .inside ['('] 1 (by simp) fun e _ => by simp [escapedBrace, hc, hopen]
        · by_cases hclose : d = '\x7d'
          · exact .inside [')'] 1 (by simp) fun e _ => by simp [escapedBrace, hc, hclose]
          · exact .nothing fun e _ => by simp [escapedBrace, hopen, hclose]
    · exact .nothing fun e _ => by simp [escapedBrace, hc]

end Rule

namespace Canonical

/-- Blanks at the end of a text make a difference in blanks and backslashes at the end
of what the cosmetic substitutions make of it. -/
theorem fading_unadorned : Fading unadorned := by
  have hnote : Rule.annotation.Fades := Rule.fades_wrapper (by decide) fun _ => []
  have hupright : Rule.upright.Fades := Rule.fades_wrapper (by decide) fun content =>
    if (UnaryFunction.ofCommand? (strip content)).isSome then '\\' :: strip content
    else strip content
  have hearly := Rule.fades_spacing.fading.comp (Rule.fades_sizing.fading.comp Rule.fades_style.fading)
  have hwrapped := hupright.fading.comp (hnote.fading.comp hearly)
  exact Rule.fades_escapedBrace.fading.comp (Rule.fades_bar.fading.comp hwrapped)

end Canonical

/-! ### The first character -/

theorem head?_dropBlanks_append {s t : Text} {c d : Char} (hcd : c ≠ d) (hd : isBlank d = false)
    (h : (dropBlanks (s ++ d :: t)).head? = some c) : (dropBlanks s).head? = some c := by
  by_cases hs : dropBlanks s = []
  · rw [dropBlanks_of_isAllBlank (dropBlanks_eq_nil_iff.mp hs),
      dropBlanks_cons_of_not_isBlank hd] at h
    exact absurd (Option.some.inj h).symm hcd
  · rwa [dropBlanks_append hs, List.head?_append_of_ne_nil _ hs] at h

/-- A text with a character in front that no stage looks at. -/
theorem exists_of_head?_dropBlanks {s : Text} {c : Char} (h : (dropBlanks s).head? = some c) :
    ∃ bl t, isAllBlank bl = true ∧ s = (bl ++ [c]) ++ t := by
  obtain ⟨bl, hbl, hs⟩ := exists_blanks_append s
  obtain ⟨t, ht⟩ := List.head?_eq_some_iff.mp h
  exact ⟨bl, t, hbl, by rw [hs, ht]; simp⟩

theorem notMem_triggers_front {bl : Text} (hbl : isAllBlank bl = true) {c : Char}
    (hc : c ∉ triggers) : ∀ d ∈ bl ++ [c], d ∉ triggers := by
  intro d hd
  rcases List.mem_append.mp hd with hd | hd
  · exact notMem_triggers_of_isBlank (List.all_eq_true.mp hbl d hd)
  · rwa [List.mem_singleton.mp hd]

/-- The passes before the powers of functions. -/
def earlyPasses : List Pass :=
  [.fraction, .root, .logBase]

/-- What a macro becomes begins with a letter. -/
theorem Pass.head?_replacement {p : Pass} (hp : p ∈ earlyPasses) {c : Char} {s : Text} {n : Nat}
    {replacement rest : Text} (h : p.site? c s = some ⟨n, .ok (replacement, rest)⟩) :
    ∃ d r, replacement = d :: r ∧ isAsciiLetter d = true := by
  have hcommand : ∀ {names : List Text} {build : Text → Except Refusal (Text × Text)} {k : Nat},
      (if c = '\\' && names.contains (leadingLetters s) then some (siteAt s k build) else none) =
        some ⟨n, .ok (replacement, rest)⟩ → ∃ t, build t = .ok (replacement, rest) := by
    intro names build k h
    split at h
    · obtain ⟨-, hb⟩ := Site.mk.inj (Option.some.inj h)
      exact ⟨_, hb⟩
    · cases h
  simp only [earlyPasses, List.mem_cons, List.not_mem_nil, or_false] at hp
  rcases hp with rfl | rfl | rfl
  · obtain ⟨t, hb⟩ := hcommand h
    obtain ⟨⟨numerator, after⟩, -, hb⟩ := exists_of_bind_ok hb
    obtain ⟨⟨denominator, after'⟩, -, hb⟩ := exists_of_bind_ok hb
    obtain ⟨rfl, -⟩ := Prod.mk.inj (Except.ok.inj hb)
    exact ⟨'f', _, rfl, by decide⟩
  · rw [Stage.site_root] at h
    obtain ⟨t, hb⟩ := hcommand h
    unfold buildRoot at hb
    split at hb
    · obtain ⟨⟨degree, after⟩, -, hb⟩ := exists_of_bind_ok hb
      obtain ⟨⟨radicand, after'⟩, -, hb⟩ := exists_of_bind_ok hb
      obtain ⟨rfl, -⟩ := Prod.mk.inj (Except.ok.inj hb)
      exact ⟨'n', _, rfl, by decide⟩
    · obtain ⟨⟨radicand, after'⟩, -, hb⟩ := exists_of_bind_ok hb
      obtain ⟨rfl, -⟩ := Prod.mk.inj (Except.ok.inj hb)
      exact ⟨'s', _, rfl, by decide⟩
  · simp only [logBase, logBaseSite?] at h
    split at h
    · obtain ⟨k, -, hs⟩ := Option.map_eq_some_iff.mp h
      obtain ⟨-, hb⟩ := Site.mk.inj hs
      obtain ⟨⟨base, after⟩, -, hb⟩ := exists_of_bind_ok hb
      obtain ⟨rfl, -⟩ := Prod.mk.inj (Except.ok.inj hb)
      exact ⟨'l', _, rfl, by decide⟩
    · cases h

/-- A pass puts no minus sign in front of a text. -/
theorem Rewrites.head?_of_minus {p : Pass} (hp : p ∈ earlyPasses)
    {ended : Char → Text → Bool} (hl : (Stage.pass p ended).Local) {strict : Bool}
    {b : Option Char} {s t : Text} (h : Rewrites strict (.pass p ended) b s t)
    (ht : (dropBlanks t).head? = some '-') : (dropBlanks s).head? = some '-' := by
  have hcons : ∀ {c : Char} {s t : Text},
      ((dropBlanks t).head? = some '-' → (dropBlanks s).head? = some '-') →
      (dropBlanks (c :: t)).head? = some '-' → (dropBlanks (c :: s)).head? = some '-' := by
    intro c s t hst hct
    by_cases hc : isBlank c = true
    · have hdrop : ∀ u : Text, dropBlanks (c :: u) = dropBlanks u := fun u => by
        simp [dropBlanks, hc]
      rw [hdrop] at hct ⊢
      exact hst hct
    · have hc : isBlank c = false := by simpa using hc
      rw [dropBlanks_cons_of_not_isBlank hc] at hct ⊢
      exact hct
  induction h with
  | nil => exact ht
  | keep _ _ ih => exact hcons ih ht
  | move h hrest _ =>
    -- The word that the macro becomes stays in front.
    obtain ⟨rfl, rfl, n, replacement, after, hsite, rfl⟩ := Stage.exists_of_step_pass h
    obtain ⟨d, r, rfl, hd⟩ := Pass.head?_replacement hp hsite
    have hminus : d ≠ '-' := by
      rintro rfl
      cases hd
    have hblank : isBlank d = false := by
      by_contra hb
      have hd' := isAsciiLetter_of_isAlphanumeric (isAlphanumeric_of_isBlank (by simpa using hb))
      rw [hd] at hd'
      cases hd'
    obtain ⟨bl, bl', hbl, -, hpadded⟩ := exists_blanks_padded _ after.head? (d :: r)
    have hfront : bl ++ (d :: r ++ bl') ++ after = (bl ++ [d]) ++ (r ++ bl' ++ after) := by simp
    rw [hpadded, hfront] at hrest
    obtain ⟨_, t', rfl, -⟩ := hrest.eq_append hl
      (notMem_triggers_front hbl (isAsciiLetter_notMem_triggers hd))
    rw [List.nil_append, List.append_assoc, dropBlanks_of_isAllBlank hbl, List.singleton_append,
      dropBlanks_cons_of_not_isBlank hblank] at ht
    exact absurd (Option.some.inj ht) hminus
  | leave _ _ _ ih => exact hcons ih ht
  | quit => exact ht

/-- What holds no bar stands at the front of the expanded text. -/
theorem BarState.unbarredFrom_append : ∀ {l : Text}, '|' ∉ l → ∀ (s : Text) {state : BarState},
    state.Ordered → ∃ t, unbarredFrom ((l ++ s).foldl BarState.read state).pairs
      state.before.length (l ++ s) = l ++ t
  | [], _, _, _, _ => ⟨_, rfl⟩
  | c :: l, hl, s, state, h => by
    obtain ⟨hc, hl⟩ := List.ne_and_not_mem_of_not_mem_cons hl
    obtain ⟨t, ht⟩ := unbarredFrom_append hl s (h.read c)
    rw [length_before_read] at ht
    refine ⟨t, ?_⟩
    rw [List.cons_append, List.foldl_cons, unbarredFrom, unbarred_of_ne_bar h (Ne.symm hc), ht]
    rfl

theorem expandBars_append {l : Text} (hl : '|' ∉ l) (s : Text) : ∃ t, expandBars (l ++ s) = l ++ t := by
  rw [expandBars_eq]
  exact BarState.unbarredFrom_append hl s BarState.ordered_start

namespace Canonical

/-- A minus sign in front of the simplified answer is the first character of the
canonical form. -/
theorem head?_canonical {s : Text} (h : (dropBlanks (simplified s)).head? = some '-') :
    (canonical s).head? = some '-' := by
  obtain ⟨u, t, hu, ht, hcanonical⟩ := exists_chain_of_canonical s
  have hchain : Chain false (passStages ++ wordStages) (simplified s) t :=
    Chain.append.mpr ⟨u, hu, ht⟩
  obtain ⟨bl, r, hbl, hs⟩ := exists_of_head?_dropBlanks h
  have hbar : '|' ∉ bl ++ ['-'] := by
    intro hm
    rcases List.mem_append.mp hm with hm | hm
    · exact absurd (List.all_eq_true.mp hbl _ hm) (by decide)
    · exact absurd (List.mem_singleton.mp hm) (by decide)
  rw [hs] at hchain
  obtain ⟨t', rfl⟩ := hchain.eq_append (notMem_triggers_front hbl (by decide))
    fun stage hs => local_of_mem_stages stage (List.mem_append_right _ hs)
  obtain ⟨t', ht'⟩ := expandBars_append hbar t'
  rw [hcanonical, ht', List.append_assoc]
  exact head?_collapse hbl (by decide) t'

/-- The passes before the powers of functions leave no minus sign in front of an exponent
whose canonical form has none. -/
theorem head?_strip_ne {s t : Text} (hdollar : '$' ∉ s) (hdisplay : Undisplayed s)
    (hminus : (canonical s).head? ≠ some '-')
    (h : Encloses [.strictPass .fraction, .strictPass .root, .strictPass .logBase] (unadorned s) t) :
    (strip t).head? ≠ some '-' := by
  intro hhead
  rw [head?_strip] at hhead
  -- Before the passes, with the brace after the exponent.
  have hbrace : (dropBlanks (t ++ ['\x7d'])).head? = some '-' := by
    have hne : dropBlanks t ≠ [] := by
      intro hnil
      rw [hnil] at hhead
      cases hhead
    rwa [dropBlanks_append hne, List.head?_append_of_ne_nil _ hne]
  obtain ⟨s₁, h₁, s₂, h₂, s₃, h₃, hs₃⟩ := h (chain_nil _)
  rw [← hs₃] at hbrace
  have hlocal : ∀ stage ∈ passStages, stage.Local := local_of_mem_passStages
  simp only [passStages, List.forall_mem_cons] at hlocal
  have hfraction := h₁.head?_of_minus (by simp [earlyPasses]) hlocal.1
  have hroot := h₂.head?_of_minus (by simp [earlyPasses]) hlocal.2.1
  have hlogBase := h₃.head?_of_minus (by simp [earlyPasses]) hlocal.2.2.1
  have hunadorned : (dropBlanks (unadorned s)).head? = some '-' :=
    head?_dropBlanks_append (by decide) (by decide) (hfraction (hroot (hlogBase hbrace)))
  -- Without the blanks around the exponent.
  obtain ⟨u, v, hu, hv, hs⟩ := exists_blanks_strip s
  obtain ⟨q, hq⟩ := fading_unadorned (strip s)
  obtain ⟨e, he, hspaced⟩ := hq v (faint_of_isAllBlank hv)
  obtain ⟨e', -, hstripped⟩ := hq [] (faint_of_isAllBlank rfl)
  rw [List.append_nil] at hstripped
  have hspaced : unadorned s = u ++ (q ++ e) := by
    have hturns : Turns cosmeticStages u u := turns_plain
      (fun c hc => notMem_triggers_of_isBlank (List.all_eq_true.mp hu c hc)) (apart_of_isAllBlank hu)
      local_of_mem_cosmeticStages
    rw [← hspaced]
    conv_lhs => rw [hs]
    exact (chain_unadorned _).unique (hturns (chain_unadorned _))
  rw [hspaced, dropBlanks_of_isAllBlank hu] at hunadorned
  refine hminus (head?_canonical ?_)
  rw [simplified_eq_unadorned, unwrapped_eq_strip hdollar hdisplay, hstripped]
  by_cases hq : dropBlanks q = []
  · rw [dropBlanks_of_isAllBlank (dropBlanks_eq_nil_iff.mp hq)] at hunadorned
    have hmem := (dropBlanks_sublist e).subset (List.mem_of_mem_head? hunadorned)
    exact absurd hmem (he.ne (by decide))
  · rw [dropBlanks_append hq, List.head?_append_of_ne_nil _ hq] at hunadorned ⊢
    exact hunadorned

end Canonical

end NumericAnswer
