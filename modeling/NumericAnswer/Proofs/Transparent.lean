/-
# Brackets along the stages

Cosmetic stages leave well-nested brackets well nested, and macros with
arguments keep the count of each type of brackets, though they may tear pairs
of different types apart.

Key theorems: `Rewrites.scan`, `walk_of_rewrites_pass`, `rewrites_plain`,
`nest_of_step_wrapper`.
-/
import NumericAnswer.Proofs.Balance
import NumericAnswer.Proofs.Piece

namespace NumericAnswer

/-- What a scan of a text finds stays if every step of the stage keeps it. -/
theorem Rewrites.scan {σ : Type} {scan : σ → Text → Option σ}
    (happ : ∀ x s t, scan x (s ++ t) = (scan x s).bind fun y => scan y t) {strict : Bool}
    {stage : Stage} (hstep : ∀ {b c s out b' rest}, stage b c s = .step out b' rest →
      ∀ {x y}, scan x (c :: s) = some y → scan x (out ++ rest) = some y)
    {b : Option Char} {s t : Text} (h : Rewrites strict stage b s t) :
    ∀ {x y}, scan x s = some y → scan x t = some y := by
  have hcons : ∀ {c : Char} {s t : Text}, (∀ {x y}, scan x s = some y → scan x t = some y) →
      ∀ {x y}, scan x (c :: s) = some y → scan x (c :: t) = some y := by
    intro c s t hst x y hs
    rw [← List.singleton_append, happ] at hs ⊢
    obtain ⟨m, hm, hs⟩ := Option.bind_eq_some_iff.mp hs
    rw [hm, Option.bind_some]
    exact hst hs
  induction h with
  | nil => exact id
  | keep _ _ ih => exact hcons ih
  | move h _ ih =>
    intro x y hs
    have hs := hstep h hs
    rw [happ] at hs ⊢
    obtain ⟨m, hm, hs⟩ := Option.bind_eq_some_iff.mp hs
    rw [hm, Option.bind_some]
    exact ih hs
  | leave _ _ _ ih => exact hcons ih
  | quit => exact id

/-- What a scan of a text finds is the same before and after, if it is so for
every step of the stage. -/
theorem Rewrites.scan_eq {σ : Type} {scan : σ → Text → Option σ}
    (happ : ∀ x s t, scan x (s ++ t) = (scan x s).bind fun y => scan y t) {strict : Bool}
    {stage : Stage} (hstep : ∀ {b c s out b' rest}, stage b c s = .step out b' rest →
      ∀ x, scan x (c :: s) = scan x (out ++ rest))
    {b : Option Char} {s t : Text} (h : Rewrites strict stage b s t) :
    ∀ x, scan x s = scan x t := by
  have hcons : ∀ {c : Char} {s t : Text}, (∀ x, scan x s = scan x t) →
      ∀ x, scan x (c :: s) = scan x (c :: t) := by
    intro c s t hst x
    show scan x ([c] ++ s) = scan x ([c] ++ t)
    rw [happ, happ]
    exact congrArg _ (funext hst)
  induction h with
  | nil => exact fun _ => rfl
  | keep _ _ ih => exact hcons ih
  | move h _ ih =>
    intro x
    rw [hstep h, happ, happ]
    exact congrArg _ (funext ih)
  | leave _ _ _ ih => exact hcons ih
  | quit => exact fun _ => rfl

/-! ### Names of functions -/

namespace UnaryFunction

theorem noBracket (f : UnaryFunction) : ∀ c ∈ f.name.toList, NoBracket c :=
  noBracket_of_isName f.isName.2

theorem nest_name_append (f : UnaryFunction) (opened : List Bracket) (s : Text) :
    nest opened (f.name.toList ++ s) = nest opened s :=
  nest_noBracket_append f.noBracket opened s

theorem bar_notMem (f : UnaryFunction) : '|' ∉ f.name.toList :=
  fun h => absurd (f.isName.2 _ h) (by decide)

end UnaryFunction

/-! ### Macros with arguments -/

section Macros

variable {b : Bracket} {depth e : Nat} {s replacement rest : Text}

theorem walk_name_append {w : Text} (hw : ∀ c ∈ w, isAsciiLetter c = true) (s : Text) :
    walk b depth (w ++ s) = walk b depth s :=
  walk_noBracket_append (noBracket_of_isName hw) b depth s

theorem walk_buildFraction (h : buildFraction s = .ok (replacement, rest))
    (hw : walk b depth s = some e) : walk b depth (replacement ++ rest) = some e := by
  obtain ⟨⟨numerator, after⟩, hn, h⟩ := exists_of_bind_ok h
  obtain ⟨⟨denominator, after'⟩, hd, h⟩ := exists_of_bind_ok h
  obtain ⟨rfl, rfl⟩ := Prod.mk.inj (Except.ok.inj h)
  obtain ⟨m, hm, hafter⟩ := walks_of_macroArgument hn hw
  have hden := walk_group_of_walks .curly (walks_of_macroArgument hd hafter)
  have hnum := walk_group_of_walks .curly ⟨m, hm, hden⟩
  rw [List.append_assoc, List.append_assoc, walk_name_append (forall_mem_of_all (by decide))]
  simpa [inBraces, Bracket.opening, Bracket.closing] using hnum

theorem walk_readGroup {s content rest : Text} (h : readGroup s = .ok (content, rest))
    (hw : walk b depth s = some e) : Walks b depth content rest e := by
  unfold readGroup at h
  split at h
  · cases h
  · next c s =>
    split at h
    · cases h
    · next bracket hb =>
      split at h
      · next group hg =>
        obtain rfl := Except.ok.inj h
        rw [← append_of_spanGroup hg, Bracket.ofOpening?_eq_some_iff.mp hb] at hw
        exact walks_of_group (walk_of_spanGroup hg) hw
      · cases h

theorem walk_buildRoot (h : buildRoot s = .ok (replacement, rest))
    (hw : walk b depth s = some e) : walk b depth (replacement ++ rest) = some e := by
  unfold buildRoot at h
  split at h
  · obtain ⟨⟨degree, after⟩, hd, h⟩ := exists_of_bind_ok h
    obtain ⟨⟨radicand, after'⟩, hr, h⟩ := exists_of_bind_ok h
    obtain ⟨rfl, rfl⟩ := Prod.mk.inj (Except.ok.inj h)
    rw [← walk_dropBlanks] at hw
    obtain ⟨m, hm, hafter⟩ := walk_readGroup hd hw
    have hrad := walk_group_of_walks .curly (walks_of_macroArgument hr hafter)
    have hdeg := walk_group_of_walks .square ⟨m, hm, hrad⟩
    rw [List.append_assoc, List.append_assoc, walk_name_append (forall_mem_of_all (by decide))]
    simpa [inBraces, inSquareBrackets, Bracket.opening, Bracket.closing] using hdeg
  · obtain ⟨⟨radicand, after⟩, hr, h⟩ := exists_of_bind_ok h
    obtain ⟨rfl, rfl⟩ := Prod.mk.inj (Except.ok.inj h)
    have hrad := walk_group_of_walks .curly (walks_of_macroArgument hr hw)
    rw [List.append_assoc, walk_name_append (forall_mem_of_all (by decide))]
    simpa [inBraces, Bracket.opening, Bracket.closing] using hrad

theorem walk_buildLogBase (h : buildLogBase s = .ok (replacement, rest))
    (hw : walk b depth s = some e) : walk b depth (replacement ++ rest) = some e := by
  obtain ⟨⟨base, after⟩, hb, h⟩ := exists_of_bind_ok h
  obtain ⟨rfl, rfl⟩ := Prod.mk.inj (Except.ok.inj h)
  have hbase := walk_group_of_walks .square (walks_of_macroArgument hb hw)
  rw [List.append_assoc, walk_name_append (forall_mem_of_all (by decide))]
  simpa [inSquareBrackets, Bracket.opening, Bracket.closing] using hbase

/-- Padding adds blanks only. -/
theorem exists_blanks_padded (before after : Option Char) (word : Text) :
    ∃ u v, isAllBlank u = true ∧ isAllBlank v = true ∧
      padded before after word = u ++ (word ++ v) := by
  have hs : isAllBlank [' '] = true := by decide
  unfold padded
  simp only
  split
  · split
    · exact ⟨[' '], [' '], hs, hs, rfl⟩
    · exact ⟨[' '], [], hs, rfl, by simp⟩
  · split
    · exact ⟨[], [' '], rfl, hs, rfl⟩
    · exact ⟨[], [], rfl, rfl, by simp⟩

theorem FollowsBrackets.padded_append {σ : Type} {scan : σ → Text → Option σ}
    (hscan : FollowsBrackets scan) (x : σ) (before after : Option Char) (word s : Text) :
    scan x (padded before after word ++ s) = scan x (word ++ s) := by
  obtain ⟨u, v, hu, hv, hp⟩ := exists_blanks_padded before after word
  rw [hp, List.append_assoc, hscan.nested_append (nested_of_isAllBlank hu), hscan.append,
    hscan.append_nested (nested_of_isAllBlank hv), ← hscan.append]

theorem noBracket_backslash : NoBracket '\\' :=
  ⟨rfl, rfl⟩

/-- A command counts nothing. -/
theorem walk_command (s : Text) :
    walk b depth ('\\' :: s) = walk b depth (s.drop (leadingLetters s).length) := by
  obtain ⟨ho, hc⟩ := noBracket_backslash.ne b
  rw [walk_cons ho hc]
  refine (congrArg (walk b depth) (leadingLetters_append s).symm).trans ?_
  exact walk_name_append isAsciiLetter_of_mem_leadingLetters _

end Macros

/-- A pass over commands keeps the count if their replacements do. -/
theorem walk_of_step_command {p : Pass} {names : List Text}
    {build : Text → Except Refusal (Text × Text)} {ended : Char → Text → Bool}
    (hp : ∀ c s, p.site? c s = if c = '\\' && names.contains (leadingLetters s) then
      some (siteAt s (leadingLetters s).length build) else none) {b : Bracket}
    (hb : ∀ {depth e s replacement rest}, build s = .ok (replacement, rest) →
      walk b depth s = some e → walk b depth (replacement ++ rest) = some e)
    {before before' : Option Char} {c : Char} {s out rest : Text}
    (h : Stage.pass p ended before c s = .step out before' rest) {depth e : Nat}
    (hw : walk b depth (c :: s) = some e) : walk b depth (out ++ rest) = some e := by
  unfold Stage.pass at h
  rw [hp] at h
  by_cases hc : (decide (c = '\\') && names.contains (leadingLetters s)) = true
  · rw [if_pos hc] at h
    simp only [Bool.and_eq_true, decide_eq_true_eq] at hc
    rw [hc.1, walk_command] at hw
    unfold siteAt at h
    split at h
    · next replacement rest' hs =>
      obtain ⟨rfl, rfl, rfl⟩ := Found.step.inj h
      rw [List.nil_append, (followsBrackets_walk b).padded_append]
      exact hb (Site.mk.inj (Option.some.inj hs)).2 hw
    · cases h
    · split at h <;> cases h
    · cases h
  · rw [if_neg hc] at h
    cases h

theorem walk_of_step_logBase {b : Bracket} {before before' : Option Char} {c : Char}
    {s out rest : Text} (h : Stage.strictPass .logBase before c s = .step out before' rest)
    {depth e : Nat} (hw : walk b depth (c :: s) = some e) :
    walk b depth (out ++ rest) = some e := by
  unfold Stage.strictPass Stage.pass at h
  simp only [Pass.logBase, logBaseSite?] at h
  by_cases hc : (decide (c = '\\') && decide (leadingLetters s = "log".toList)) = true
  · rw [if_pos hc] at h
    simp only [Bool.and_eq_true, decide_eq_true_eq] at hc
    rw [hc.1, walk_command] at hw
    cases hm : markLength? '_' (s.drop (leadingLetters s).length) with
    | none => rw [hm] at h; cases h
    | some n =>
      obtain ⟨bl, hbl, hs, _⟩ := eq_append_of_markLength? hm
      rw [hs, (followsBrackets_walk b).nested_append (nested_of_isAllBlank hbl), walk_cons (by cases b <;> decide) (by cases b <;> decide),
        List.drop_drop] at hw
      rw [hm] at h
      simp only [Option.map_some, siteAt] at h
      split at h
      · next replacement rest' hb =>
        obtain ⟨rfl, rfl, rfl⟩ := Found.step.inj h
        rw [List.nil_append, (followsBrackets_walk b).padded_append]
        exact walk_buildLogBase (Site.mk.inj (Option.some.inj hb)).2 hw
      · cases h
      · cases h
      · cases h
  · rw [if_neg hc] at h
    cases h

/-- The passes before the powers of functions keep the count of each type of
brackets. -/
theorem walk_of_rewrites_pass {b : Bracket} {stage : Stage}
    (hs : stage ∈ [Stage.strictPass .fraction, .strictPass .root, .strictPass .logBase])
    {strict : Bool} {before : Option Char} {s t : Text} (h : Rewrites strict stage before s t)
    {depth e : Nat} (hw : walk b depth s = some e) : walk b depth t = some e := by
  refine h.scan (walk_append b) (fun {before c s out before' rest} hstep {depth e} hw => ?_) hw
  simp only [List.mem_cons, List.not_mem_nil, or_false] at hs
  rcases hs with rfl | rfl | rfl
  · exact walk_of_step_command (fun _ _ => rfl) walk_buildFraction hstep hw
  · exact walk_of_step_command Stage.site_root walk_buildRoot hstep hw
  · exact walk_of_step_logBase hstep hw

/-! ### Substitutions without brackets -/

theorem take_leadingLetters (s : Text) : s.take (leadingLetters s).length = leadingLetters s :=
  take_length_takeWhile isAsciiLetter s

theorem noBracket_of_mem_take_leadingLetters {s : Text} :
    ∀ d ∈ s.take (leadingLetters s).length, NoBracket d := by
  rw [take_leadingLetters]
  exact noBracket_of_isName isAsciiLetter_of_mem_leadingLetters

/-- The rule neither reads nor writes brackets. -/
def Rule.Plain (rule : Rule) : Prop :=
  ∀ {c : Char} {s replacement : Text} {n : Nat}, rule c s = some (replacement, n) →
    NoBracket c ∧ (∀ d ∈ s.take n, NoBracket d) ∧ ∀ d ∈ replacement, NoBracket d

namespace Rule

theorem plain_command {names : List Text} {build : Nat → Text → Option (Text × Nat)}
    (hb : ∀ {length rest replacement n}, build length rest = some (replacement, n) →
      ∃ k, n = length + k ∧ (∀ d ∈ rest.take k, NoBracket d) ∧ ∀ d ∈ replacement, NoBracket d) :
    (command names build).Plain := by
  intro c s replacement n h
  simp only [command] at h
  split at h
  · next hc =>
    simp only [Bool.and_eq_true, decide_eq_true_eq] at hc
    obtain ⟨k, rfl, hk, hr⟩ := hb h
    refine ⟨hc.1 ▸ noBracket_backslash, ?_, hr⟩
    intro d hd
    rw [List.take_add, List.mem_append] at hd
    rcases hd with hd | hd
    · exact noBracket_of_mem_take_leadingLetters d hd
    · exact hk d hd
  · cases h

theorem noBracket_of_mem_take_blankLength {s : Text} :
    ∀ d ∈ s.take (blankLength s), NoBracket d := by
  unfold blankLength
  rw [take_length_takeWhile]
  exact fun d hd => noBracket_of_isBlank (List.all_eq_true.mp List.all_takeWhile d hd)

theorem plain_style : style.Plain := by
  refine plain_command fun {length rest replacement n} h => ?_
  obtain ⟨rfl, rfl⟩ := Prod.mk.inj (Option.some.inj h)
  exact ⟨_, rfl, noBracket_of_mem_take_blankLength, by simp⟩

theorem plain_sizing : sizing.Plain := by
  rw [sizing_eq]
  refine plain_command fun {length rest replacement n} h => ?_
  obtain ⟨rfl, rfl⟩ := Prod.mk.inj (Option.some.inj h)
  refine ⟨_, Nat.add_assoc _ _ _, fun d hd => ?_, by simp⟩
  rw [List.take_add, List.mem_append] at hd
  rcases hd with hd | hd
  · exact noBracket_of_mem_take_blankLength d hd
  · rw [drop_blankLength] at hd
    split at hd
    · next hp =>
      obtain ⟨t, ht⟩ := List.head?_eq_some_iff.mp hp
      rw [ht] at hd
      obtain rfl : d = '.' := by simpa using hd
      exact ⟨rfl, rfl⟩
    · cases hd

/-- A command that stands for a text without brackets. -/
theorem plain_command_of {names : List Text} {replacement : Text}
    (hr : ∀ d ∈ replacement, NoBracket d) :
    (command names fun length _ => some (replacement, length)).Plain := by
  refine plain_command fun {length rest replacement n} h => ?_
  obtain ⟨rfl, rfl⟩ := Prod.mk.inj (Option.some.inj h)
  exact ⟨0, rfl, by simp, hr⟩

theorem plain_spacing : spacing.Plain := by
  intro c s replacement n h
  have hs : ∀ d ∈ [' '], NoBracket d := by simp [NoBracket]; decide
  unfold spacing at h
  split at h
  · next hc =>
    obtain ⟨rfl, rfl⟩ := Prod.mk.inj (Option.some.inj h)
    exact ⟨hc ▸ ⟨rfl, rfl⟩, by simp, hs⟩
  · split at h
    · next hc =>
      obtain ⟨rfl, rfl⟩ := Prod.mk.inj (Option.some.inj h)
      simp only [Bool.and_eq_true, decide_eq_true_eq] at hc
      refine ⟨hc.1 ▸ noBracket_backslash, fun d hd => ?_, hs⟩
      cases s with
      | nil => cases hd
      | cons e s =>
        obtain rfl : d = e := by simpa using hd
        have he : d ∈ spacingSigns := by simpa using hc.2
        have hall : ∀ d ∈ spacingSigns, Bracket.ofOpening? d = none ∧ Bracket.ofClosing? d = none :=
          forall_mem_of_all (by decide)
        exact hall d he
    · exact plain_command_of hs h

theorem plain_functionName : functionName.Plain := by
  intro c s replacement n h
  unfold functionName at h
  split at h
  · next hc =>
    obtain ⟨f, hf, he⟩ := Option.map_eq_some_iff.mp h
    obtain ⟨rfl, rfl⟩ := Prod.mk.inj he
    exact ⟨hc ▸ noBracket_backslash, noBracket_of_mem_take_leadingLetters, f.noBracket⟩
  · cases h

theorem plain_sign : sign.Plain := by
  have hglyph : ∀ c ∈ triggers, NoBracket c := forall_mem_of_all (by decide)
  have hall : ∀ r ∈ [['*'], ['/'], ['-']], r.all (fun d => decide (NoBracket d)) = true := by decide
  have hsign : ∀ r ∈ [['*'], ['/'], ['-']], ∀ d ∈ r, NoBracket d :=
    fun r hr => forall_mem_of_all (hall r hr)
  intro c s replacement n h
  have hc : NoBracket c := by
    refine hglyph c ?_
    by_contra hc
    rw [sign_plain s hc] at h
    cases h
  refine ⟨hc, ?_⟩
  unfold sign at h
  simp only at h
  split at h
  · cases h; exact ⟨by simp, hsign _ (by simp)⟩
  · split at h
    · cases h; exact ⟨by simp, hsign _ (by simp)⟩
    · split at h
      · cases h; exact ⟨by simp, hsign _ (by simp)⟩
      · split at h
        · split at h
          · cases h; exact ⟨noBracket_of_mem_take_leadingLetters, hsign _ (by simp)⟩
          · split at h
            · cases h; exact ⟨noBracket_of_mem_take_leadingLetters, hsign _ (by simp)⟩
            · cases h
        · cases h

theorem plain_pi : pi.Plain := by
  have hpi : ∀ d ∈ "pi".toList, NoBracket d := forall_mem_of_all (by decide)
  intro c s replacement n h
  unfold pi at h
  split at h
  · next hc =>
    obtain ⟨rfl, rfl⟩ := Prod.mk.inj (Option.some.inj h)
    exact ⟨hc ▸ ⟨rfl, rfl⟩, by simp, hpi⟩
  · exact plain_command_of hpi h

theorem plain_bar : bar.Plain :=
  plain_command_of (forall_mem_of_all (by decide))

theorem plain_e : e.Plain :=
  plain_command_of (forall_mem_of_all (by decide))

theorem Plain.apart {rule : Rule} (h : rule.Plain) (b : Option Char) : (rule.apart b).Plain := by
  intro c s replacement n hs
  obtain ⟨⟨word, n'⟩, hw, he⟩ := Option.map_eq_some_iff.mp hs
  obtain ⟨rfl, rfl⟩ := Prod.mk.inj he
  obtain ⟨hc, hs, hr⟩ := h hw
  refine ⟨hc, hs, fun d hd => ?_⟩
  obtain ⟨u, v, hu, hv, hp⟩ := exists_blanks_padded b (s.drop n').head? word
  rw [hp, List.mem_append, List.mem_append] at hd
  rcases hd with hd | hd | hd
  · exact noBracket_of_isBlank (List.all_eq_true.mp hu d hd)
  · exact hr d hd
  · exact noBracket_of_isBlank (List.all_eq_true.mp hv d hd)

end Rule

namespace FollowsBrackets

variable {σ : Type} {scan : σ → Text → Option σ} (hscan : FollowsBrackets scan)
include hscan

/-- A rule without brackets leaves them as they are. -/
theorem step_plain {rule : Option Char → Rule} {ended : Char → Text → Bool}
    (hr : ∀ b, (rule b).Plain) {b b' : Option Char} {c : Char} {s out rest : Text}
    (h : Stage.substitution rule ended b c s = .step out b' rest) (x : σ) :
    scan x (c :: s) = scan x (out ++ rest) := by
  unfold Stage.substitution at h
  split at h
  · next replacement n hs =>
    obtain ⟨rfl, rfl, rfl⟩ := Found.step.inj h
    obtain ⟨hc, htake, hreplacement⟩ := hr b hs
    calc scan x (c :: s) = scan x (s.take n ++ s.drop n) := by
          rw [List.take_append_drop, hscan.cons hc]
      _ = scan x (s.drop n) := hscan.nested_append (nested_of_noBracket htake) x _
      _ = scan x (replacement ++ s.drop n) :=
          (hscan.nested_append (nested_of_noBracket hreplacement) x _).symm
  · split at h <;> cases h

theorem rewrites_plain {rule : Option Char → Rule} {ended : Char → Text → Bool}
    (hr : ∀ b, (rule b).Plain) {strict : Bool} {b : Option Char} {s t : Text}
    (h : Rewrites strict (.substitution rule ended) b s t) (x : σ) : scan x s = scan x t :=
  h.scan_eq hscan.append (hscan.step_plain hr) x

/-- The stages of words and signs leave the brackets as they are. -/
theorem chain_wordStages {strict : Bool} {s t : Text}
    (h : Chain strict Canonical.wordStages s t) (x : σ) : scan x s = scan x t := by
  obtain ⟨s₁, h₁, s₂, h₂, s₃, h₃, s₄, h₄, rfl⟩ := h
  calc scan x s = scan x s₁ := hscan.rewrites_plain Rule.plain_functionName.apart h₁ x
    _ = scan x s₂ := hscan.rewrites_plain (fun _ => Rule.plain_sign) h₂ x
    _ = scan x s₃ := hscan.rewrites_plain Rule.plain_pi.apart h₃ x
    _ = scan x s₄ := hscan.rewrites_plain Rule.plain_e.apart h₄ x

end FollowsBrackets

/-! ### Braces after a command -/

theorem walk_of_notBrace {s : Text} (h : ∀ c ∈ s, notBrace c = true) (depth : Nat) :
    walk .curly depth s = some depth := by
  induction s with
  | nil => rfl
  | cons c s ih =>
    have hc : c ≠ '\x7b' ∧ c ≠ '\x7d' := by simpa [notBrace] using h c (List.mem_cons_self ..)
    rw [walk_cons hc.1 hc.2]
    exact ih fun d hd => h d (List.mem_cons_of_mem _ hd)

theorem eq_append_of_braced? {s content : Text} {n : Nat} (h : braced? s = some (content, n)) :
    ∃ bl, isAllBlank bl = true ∧ (∀ c ∈ content, notBrace c = true) ∧
      s = bl ++ '\x7b' :: (content ++ '\x7d' :: s.drop n) ∧ n = bl.length + content.length + 2 := by
  by_cases hs : (dropBlanks s).head? = some '\x7b'
  · obtain ⟨t, ht⟩ := List.head?_eq_some_iff.mp hs
    rw [braced?_eq ht] at h
    split at h
    · next hd =>
      obtain ⟨rfl, rfl⟩ := Prod.mk.inj (Option.some.inj h)
      obtain ⟨r, hr⟩ := List.head?_eq_some_iff.mp hd
      have hsplit : s = s.takeWhile isBlank ++
          '\x7b' :: (t.takeWhile notBrace ++ '\x7d' :: r) := by
        rw [← hr, List.takeWhile_append_dropWhile, ← ht]
        exact List.takeWhile_append_dropWhile.symm
      have hn : blankLength s + (t.takeWhile notBrace).length + 2 =
          (s.takeWhile isBlank ++ '\x7b' :: (t.takeWhile notBrace ++ ['\x7d'])).length := by
        simp [blankLength]
        omega
      have hdrop : s.drop (blankLength s + (t.takeWhile notBrace).length + 2) = r := by
        rw [hn]
        have : s = (s.takeWhile isBlank ++ '\x7b' :: (t.takeWhile notBrace ++ ['\x7d'])) ++ r := by
          refine hsplit.trans ?_
          simp
        exact (congrArg (List.drop _) this).trans (List.drop_left ..)
      refine ⟨s.takeWhile isBlank, List.all_takeWhile, List.all_eq_true.mp List.all_takeWhile, ?_, ?_⟩
      · rw [hdrop]
        exact hsplit
      · rfl
    · cases h
  · rw [braced?_eq_none hs] at h
    cases h

/-- What a command with braces after it takes, and what it makes of the text in them. -/
theorem Rule.take_of_wrapper {names : List Text} (make : Text → Text) {c : Char}
    {s replacement : Text} {n : Nat} (h : command names (fun length rest =>
      (braced? rest).map fun (content, braces) => (make content, length + braces)) c s =
        some (replacement, n)) :
    c = '\\' ∧ ∃ bl content, isAllBlank bl = true ∧ (∀ d ∈ content, notBrace d = true) ∧
      replacement = make content ∧
      s.take n = leadingLetters s ++ (bl ++ '\x7b' :: (content ++ ['\x7d'])) := by
  simp only [command] at h
  split at h
  · next hc =>
    simp only [Bool.and_eq_true, decide_eq_true_eq] at hc
    obtain ⟨⟨content, k⟩, hb, he⟩ := Option.map_eq_some_iff.mp h
    obtain ⟨rfl, rfl⟩ := Prod.mk.inj he
    obtain ⟨bl, hbl, hcontent, hsplit, rfl⟩ := eq_append_of_braced? hb
    refine ⟨hc.1, bl, content, hbl, hcontent, rfl, ?_⟩
    generalize (s.drop (leadingLetters s).length).drop (bl.length + content.length + 2) = tail
      at hsplit
    have happend : bl ++ '\x7b' :: (content ++ '\x7d' :: tail) =
        (bl ++ '\x7b' :: (content ++ ['\x7d'])) ++ tail := by simp
    have hlength : bl.length + content.length + 2 =
        (bl ++ '\x7b' :: (content ++ ['\x7d'])).length := by
      simp
      omega
    rw [List.take_add, take_leadingLetters, hsplit, happend, hlength, List.take_left]
  · cases h

/-- The brackets of what stands in braces close inside. -/
theorem nested_of_braces {content rest : Text} (hc : ∀ c ∈ content, notBrace c = true)
    {opened out : List Bracket}
    (h : nest opened ('\x7b' :: (content ++ '\x7d' :: rest)) = some out) :
    Nested content ∧ nest opened rest = some out :=
  @nested_of_group .curly _ _ _ _ (walk_of_notBrace hc 0) h

theorem nest_command (opened : List Bracket) (s : Text) :
    nest opened ('\\' :: s) = nest opened (s.drop (leadingLetters s).length) := by
  rw [nest_cons noBracket_backslash]
  refine (congrArg (nest opened) (leadingLetters_append s).symm).trans ?_
  exact nest_noBracket_append (noBracket_of_isName isAsciiLetter_of_mem_leadingLetters) opened _

/-- A command with braces that become a text with the same brackets. -/
theorem nest_of_step_wrapper {names : List Text} {make : Text → Text}
    (hm : ∀ content opened, nest opened content = some opened →
      nest opened (make content) = some opened)
    {b b' : Option Char} {c : Char} {s out rest : Text}
    (h : Stage.wrapper names (Rule.command names fun length rest =>
      (braced? rest).map fun (content, braces) => (make content, length + braces)) b c s =
        .step out b' rest) {opened opened' : List Bracket}
    (hn : nest opened (c :: s) = some opened') : nest opened (out ++ rest) = some opened' := by
  unfold Stage.wrapper Stage.substitution at h
  split at h
  · next replacement n hs =>
    obtain ⟨rfl, rfl, rfl⟩ := Found.step.inj h
    simp only [Rule.command] at hs
    split at hs
    · next hc =>
      simp only [Bool.and_eq_true, decide_eq_true_eq] at hc
      obtain ⟨⟨content, k⟩, hb, he⟩ := Option.map_eq_some_iff.mp hs
      obtain ⟨rfl, rfl⟩ := Prod.mk.inj he
      obtain ⟨bl, hbl, hcontent, hsplit, _⟩ := eq_append_of_braced? hb
      rw [hc.1, nest_command, hsplit, followsBrackets_nest.nested_append (nested_of_isAllBlank hbl)] at hn
      obtain ⟨hin, hrest⟩ := nested_of_braces hcontent hn
      rw [nest_append, hm _ _ (nest_of_nested hin _), Option.bind_some, ← List.drop_drop]
      exact hrest
    · cases hs
  · split at h <;> cases h

/-- A text that ends in braces leaves them open. -/
theorem curly_mem_of_endsInBraces {s : Text} (he : endsInBraces s = true)
    {opened opened' : List Bracket} (h : nest opened s = some opened') : .curly ∈ opened' := by
  by_cases hs : (dropBlanks s).head? = some '\x7b'
  · obtain ⟨t, ht⟩ := List.head?_eq_some_iff.mp hs
    obtain ⟨bl, hbl, hsplit⟩ := exists_blanks_append s
    rw [endsInBraces_eq ht, List.isEmpty_iff, List.dropWhile_eq_nil_iff] at he
    rw [hsplit, followsBrackets_nest.nested_append (nested_of_isAllBlank hbl), ht] at h
    have ho := nest_opening .curly opened t
    rw [show Bracket.curly.opening = '\x7b' from rfl, h] at ho
    obtain ⟨above, _, rfl⟩ := @nest_above .curly _ _ _ [] _ (walk_of_notBrace he 0) ho.symm
    simp
  · rw [endsInBraces_eq_false hs] at he
    cases he

/-- In a well-nested text no command waits for its closing brace. -/
theorem Rewrites.toStrict_wrapper {names : List Text} {make : Text → Text}
    (hm : ∀ content opened, nest opened content = some opened →
      nest opened (make content) = some opened) {strict : Bool} {b : Option Char} {s t : Text}
    (h : Rewrites strict (.wrapper names (Rule.command names fun length rest =>
      (braced? rest).map fun (content, braces) => (make content, length + braces))) b s t)
    (hn : Nested s) :
    Rewrites true (.wrapper names (Rule.command names fun length rest =>
      (braced? rest).map fun (content, braces) => (make content, length + braces))) b s t := by
  refine h.toStrict (P := fun s => ∃ opened, nest opened s = some []) ?_ ?_ ?_ ?_ ⟨[], hn⟩
  · rintro c s ⟨opened, ho⟩
    rw [← List.singleton_append, nest_append] at ho
    obtain ⟨m, _, hm⟩ := Option.bind_eq_some_iff.mp ho
    exact ⟨m, hm⟩
  · rintro b c s out b' rest hs ⟨opened, ho⟩
    have := nest_of_step_wrapper hm hs ho
    rw [nest_append] at this
    obtain ⟨m, _, hm⟩ := Option.bind_eq_some_iff.mp this
    exact ⟨m, hm⟩
  · rintro b c s ⟨opened, ho⟩ hs
    unfold Stage.wrapper Stage.substitution at hs
    split at hs
    · cases hs
    · split at hs
      · next he =>
        simp only [Bool.and_eq_true, decide_eq_true_eq] at he
        rw [he.1.1, nest_command] at ho
        have := curly_mem_of_endsInBraces he.2 ho
        cases this
      · cases hs
  · exact fun _ => Stage.substitution_ne_unclosed

/-- A stage that waits for no text finds nothing short. -/
theorem Rewrites.toStrict_substitution {rule : Option Char → Rule} {strict : Bool}
    {b : Option Char} {s t : Text}
    (h : Rewrites strict (.substitution rule fun _ _ => false) b s t) :
    Rewrites true (.substitution rule fun _ _ => false) b s t := by
  refine h.toStrict (P := fun _ => True) (fun _ => trivial) (fun _ _ => trivial) ?_
    (fun _ => Stage.substitution_ne_unclosed) trivial
  intro b c s _ hs
  unfold Stage.substitution at hs
  split at hs <;> cases hs

theorem Rewrites.toStrict_always {rule : Rule} {strict : Bool} {b : Option Char} {s t : Text}
    (h : Rewrites strict (.always rule) b s t) : Rewrites true (.always rule) b s t :=
  h.toStrict_substitution

theorem Rewrites.toStrict_wording {rule : Rule} {strict : Bool} {b : Option Char} {s t : Text}
    (h : Rewrites strict (.wording rule) b s t) : Rewrites true (.wording rule) b s t :=
  h.toStrict_substitution

end NumericAnswer
