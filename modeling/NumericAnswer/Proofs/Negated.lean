/-
# Negative powers of functions

A negative power between a function and its argument could mean the reciprocal or the inverse
function, so an answer with one has no value. The pass for powers declines it. The other
macros leave the function and the minus sign of its power side by side, or take the function
alone as an argument, and then its group ends right after it. Either way the parser misses
the argument of the function. Only an annotation takes such a power away, and only one whose
exponent has no braces.

The minus sign has to be a hyphen: the glyph becomes one only after the pass.

Key definitions: `NegativePower`, `Followed`, `Negated`.
Key theorems: `Canonical.spares_noArgument_passStages`, `Canonical.negated_simplified`,
`Outcome.exists_failure_of_negated`.
-/
import NumericAnswer.Proofs.Remnant
import NumericAnswer.Proofs.Unbalanced
import NumericAnswer.Proofs.Unwrapped

namespace NumericAnswer

/-! ### Functions with a negative power -/

/-- The minus sign that an exponent begins with, behind an opening brace or not. -/
inductive NegativeExponent : Bool → Text → Prop where
  | bare {gap : Text} (hgap : isAllBlank gap = true) : NegativeExponent false (gap ++ ['-'])
  | braced {gap gap' : Text} (hgap : isAllBlank gap = true) (hgap' : isAllBlank gap' = true) :
      NegativeExponent true (gap ++ '\x7b' :: (gap' ++ ['-']))

/-- The sign of a power and the minus sign that its exponent begins with. -/
def NegativePower (braced : Bool) (l : Text) : Prop :=
  ∃ gap e, isAllBlank gap = true ∧ NegativeExponent braced e ∧ l = gap ++ '^' :: e

/-- What after a function shows that it has no argument: a negative power, or the end of its
group. -/
inductive NoArgument : Text → Prop where
  | negative {braced : Bool} {l : Text} (h : NegativePower braced l) : NoArgument l
  | closed {c : Char} (hc : c ∈ ['\x7d', ']']) : NoArgument [c]

/-- The text begins with a function and one of the texts after it. -/
def Followed (L : Text → Prop) (v : Text) : Prop :=
  ∃ f ∈ UnaryFunction.commands, ∃ l, L l ∧ f.name.toList ++ l <+: v

/-- Somewhere in the text a function has a negative power, with braces or without. -/
def Negated (braced : Bool) (s : Text) : Prop :=
  Marked '\\' (Followed (NegativePower braced)) s

section NegativePower

variable {braced : Bool} {l : Text} {c : Char}

theorem NegativeExponent.mem (h : NegativeExponent braced l) (hc : c ∈ l) :
    isBlank c = true ∨ c ∈ ['\x7b', '-'] := by
  have hblank : ∀ {gap : Text}, isAllBlank gap = true → c ∈ gap → isBlank c = true :=
    fun hgap hc => List.all_eq_true.mp hgap c hc
  cases h with
  | bare hgap =>
    rcases List.mem_append.mp hc with hc | hc
    · exact .inl (hblank hgap hc)
    · exact .inr (List.mem_cons_of_mem _ hc)
  | braced hgap hgap' =>
    rcases List.mem_append.mp hc with hc | hc
    · exact .inl (hblank hgap hc)
    · rcases List.mem_cons.mp hc with rfl | hc
      · exact .inr (List.mem_cons_self ..)
      · rcases List.mem_append.mp hc with hc | hc
        · exact .inl (hblank hgap' hc)
        · exact .inr (List.mem_cons_of_mem _ hc)

theorem NegativePower.mem (h : NegativePower braced l) (hc : c ∈ l) :
    isBlank c = true ∨ c ∈ ['^', '\x7b', '-'] := by
  obtain ⟨gap, e, hgap, he, rfl⟩ := h
  rcases List.mem_append.mp hc with hc | hc
  · exact .inl (List.all_eq_true.mp hgap c hc)
  · rcases List.mem_cons.mp hc with rfl | hc
    · exact .inr (List.mem_cons_self ..)
    · exact (he.mem hc).imp_right (List.mem_cons_of_mem _)

/-- It ends in the minus sign. -/
theorem NegativePower.eq_append (h : NegativePower braced l) : ∃ l', l = l' ++ ['-'] := by
  obtain ⟨gap, e, -, he, rfl⟩ := h
  cases he with
  | @bare gap' => exact ⟨gap ++ '^' :: gap', by simp⟩
  | @braced gap' gap'' => exact ⟨gap ++ '^' :: (gap' ++ '\x7b' :: gap''), by simp⟩

theorem NegativePower.brace_mem (h : NegativePower true l) : '\x7b' ∈ l := by
  obtain ⟨gap, _, -, ⟨⟩, rfl⟩ := h
  simp

theorem NegativePower.ofClosing? (h : NegativePower braced l) (hc : c ∈ l) :
    Bracket.ofClosing? c = none := by
  have hsigns : ∀ c ∈ ['^', '\x7b', '-'], Bracket.ofClosing? c = none :=
    forall_mem_of_all (by decide)
  exact (h.mem hc).elim (fun hb => (noBracket_of_isBlank hb).2) (hsigns c)

theorem NoArgument.exists_stop (h : NoArgument l) : ∃ gap stop r, l = gap ++ stop :: r ∧
    isAllBlank gap = true ∧ stop ∈ stops := by
  cases h with
  | closed hc => exact ⟨[], _, [], rfl, rfl, List.mem_cons_of_mem _ hc⟩
  | negative h =>
    obtain ⟨gap, e, hgap, -, rfl⟩ := h
    exact ⟨gap, '^', e, rfl, hgap, List.mem_cons_self ..⟩

theorem NoArgument.notMem_triggers (h : NoArgument l) : ∀ c ∈ l, c ∉ triggers := by
  have hsigns : ∀ c ∈ ['^', '\x7b', '-', '\x7d', ']'], c ∉ triggers :=
    forall_mem_of_all (by decide)
  intro c hc
  cases h with
  | closed he =>
    obtain rfl := List.mem_singleton.mp hc
    exact hsigns c (List.mem_append_right ['^', '\x7b', '-'] he)
  | negative h =>
    refine (h.mem hc).elim notMem_triggers_of_isBlank fun hs => hsigns c ?_
    exact List.mem_append_left ['\x7d', ']'] hs

end NegativePower

section Followed

variable {L : Text → Prop} {v w : Text}

theorem Followed.mono {L' : Text → Prop} (hL : ∀ {l}, L l → L' l) (h : Followed L v) :
    Followed L' v := by
  obtain ⟨f, hf, l, hl, hp⟩ := h
  exact ⟨f, hf, l, hL hl, hp⟩

/-- Such a function is without an argument. -/
theorem Followed.stranded (h : Followed NoArgument v) : Stranded v := by
  obtain ⟨f, hf, l, hl, r, rfl⟩ := h
  obtain ⟨gap, stop, r', rfl, hgap, hstop⟩ := hl.exists_stop
  exact ⟨f, gap, stop, r' ++ r, hf, by simp, hgap, hstop⟩

/-- The function is what stands before all that is not a letter. -/
theorem Followed.exists_leadingLetters (h : Followed NoArgument v) :
    ∃ f ∈ UnaryFunction.commands, ∃ l r, NoArgument l ∧ v = f.name.toList ++ (l ++ r) ∧
      leadingLetters v = f.name.toList := by
  obtain ⟨f, hf, l, hl, r, rfl⟩ := h
  obtain ⟨gap, stop, r', rfl, hgap, hstop⟩ := hl.exists_stop
  obtain ⟨c, s, hcons, hc⟩ := exists_cons_of_stop (w := r' ++ r) hgap hstop
  refine ⟨f, hf, _, r, hl, List.append_assoc .., ?_⟩
  rw [List.append_assoc, List.append_assoc, List.cons_append, hcons]
  exact leadingLetters_name_append f.isName (isAsciiLetter_of_isAlphanumeric hc) s

variable (hL : ∀ {l}, L l → NoArgument l)

include hL

/-- No stage looks at it. -/
theorem Followed.rewrites {strict : Bool} {stage : Stage} (hl : stage.Local) {b : Option Char}
    (h : Followed L v) (hr : Rewrites strict stage b v w) : Followed L w := by
  obtain ⟨f, hf, l, hLl, r, rfl⟩ := h
  obtain ⟨_, t, rfl, _⟩ := hr.eq_append hl fun c hc =>
    (List.mem_append.mp hc).elim (f.notMem_triggers c) ((hL hLl).notMem_triggers c)
  exact ⟨f, hf, l, hLl, List.prefix_append ..⟩

theorem Followed.leadingLetters_ne {names : List Text}
    (hn : ∀ f ∈ UnaryFunction.commands, f.name.toList ∉ names) (h : Followed L v) :
    leadingLetters v ∉ names := by
  obtain ⟨f, hf, _, _, _, _, hname⟩ := (h.mono hL).exists_leadingLetters
  rw [hname]
  exact hn f hf

end Followed

/-! ### Stages of the passes -/

/-- What an argument leaves of such a function is one. -/
theorem durable_noArgument : Durable '\\' (Followed NoArgument) where
  isBlank := by decide +kernel
  isAlphanumeric := by decide +kernel
  noBracket := noBracket_backslash
  ne_point := by decide
  cut {p q} h hp c hc z := by
    obtain ⟨f, hf, l, r, hl, hv, hname⟩ := h.exists_leadingLetters
    have halone : Followed NoArgument (f.name.toList ++ c :: z) :=
      ⟨f, hf, [c], .closed hc, z, by simp⟩
    have hwhole : f.name.toList ++ l <+: p → Followed NoArgument (p ++ c :: z) := fun hp =>
      ⟨f, hf, l, hl, hp.trans (List.prefix_append ..)⟩
    have hletters : ∀ d ∈ f.name.toList, Bracket.ofClosing? d = none := fun d hd =>
      (f.noBracket d hd).2
    rcases hp with hp | hp
    · rw [hp, hname]
      exact halone
    · cases hl with
      | negative hneg =>
        refine hwhole (hp _ (fun d hd => ?_) ⟨r, by rw [hv, List.append_assoc]⟩)
        exact (List.mem_append.mp hd).elim (hletters d) hneg.ofClosing?
      | @closed e he =>
        -- The bracket behind the function stays with it, or ends the argument.
        obtain ⟨p', rfl⟩ := hp _ hletters ⟨[e] ++ r, hv.symm⟩
        cases p' with
        | nil => simpa using halone
        | cons d p' =>
          rw [List.append_assoc] at hv
          obtain ⟨rfl, -⟩ := List.cons.inj (List.append_cancel_left hv)
          exact hwhole ⟨p', by simp⟩
  free h := absurd rfl h

section Passes

variable {v : Text}

/-- A stage keeps such a function if it does so right at its command. -/
theorem Stage.spares_noArgument {stage : Stage} (hl : stage.Local)
    (hstay : ∀ {b v out b' rest}, Followed NoArgument v → stage b '\\' v ≠ .step out b' rest)
    (hmove : ∀ {b c s out b' rest}, stage b c s = .step out b' rest →
      Marked '\\' (Followed NoArgument) s → Marked '\\' (Followed NoArgument) rest) :
    stage.Spares '\\' (Followed NoArgument) := by
  intro b s t h
  exact h.marked (fun hk hr => hk.rewrites id hl hr) hstay fun hs hm => .inr (hmove hs hm)

theorem Stage.spares_noArgument_command {p : Pass} {names : List Text}
    {build : Text → Except Refusal (Text × Text)} (hl : (strictPass p).Local)
    (hp : ∀ c s, p.site? c s = if c = '\\' && names.contains (leadingLetters s) then
      some (siteAt s (leadingLetters s).length build) else none)
    (hn : ∀ f ∈ UnaryFunction.commands, f.name.toList ∉ names)
    (hb : ∀ {s r rest}, build s = .ok (r, rest) → Marked '\\' (Followed NoArgument) s → ∀ y,
      (Marked '\\' (Followed NoArgument) rest → Marked '\\' (Followed NoArgument) y) →
        Marked '\\' (Followed NoArgument) (r ++ y)) :
    (strictPass p).Spares '\\' (Followed NoArgument) :=
  spares_noArgument hl (fun hk hs => hk.leadingLetters_ne id hn (reads_command hp hs))
    (Durable.marked_of_step_pass fun hs => durable_noArgument.marked_of_command hp hb hs)

/-- What stands right after the function is no sign of a subscript. -/
theorem Followed.markLength?_subscript (h : Followed NoArgument v) :
    markLength? '_' (v.drop (leadingLetters v).length) = none := by
  obtain ⟨f, -, l, r, hl, hv, hname⟩ := h.exists_leadingLetters
  obtain ⟨gap, stop, r', rfl, hgap, hstop⟩ := hl.exists_stop
  have hstops : ∀ stop ∈ stops, isBlank stop = false ∧ stop ≠ '_' :=
    forall_mem_of_all (by decide)
  obtain ⟨hblank, hne⟩ := hstops stop hstop
  rw [hname, hv, List.drop_left, List.append_assoc, List.cons_append]
  simp [markLength?, dropBlanks_of_isAllBlank hgap, dropBlanks_cons_of_not_isBlank hblank, hne]

theorem Stage.spares_noArgument_logBase :
    (strictPass .logBase).Spares '\\' (Followed NoArgument) := by
  refine spares_noArgument local_logBase (fun hk hs => ?_)
    (Durable.marked_of_step_pass (durable_noArgument.marked_of_logBase (by decide)))
  obtain ⟨n, r, rest', hsite⟩ := exists_site_of_step hs
  have hno := hk.markLength?_subscript
  simp only [Pass.logBase, logBaseSite?] at hsite
  split at hsite
  · rw [hno] at hsite
    cases hsite
  · cases hsite

theorem head?_strip_minus {gap : Text} (hgap : isAllBlank gap = true) (s : Text) :
    (strip (gap ++ '-' :: s)).head? = some '-' := by
  rw [head?_strip, dropBlanks_of_isAllBlank hgap, dropBlanks_cons_of_not_isBlank (by decide)]
  rfl

/-- The exponent of a negative power begins with the minus sign. -/
theorem NegativeExponent.head?_strip {braced : Bool} {e r argument rest : Text}
    (he : NegativeExponent braced e) (h : macroArgument (e ++ r) = .ok (argument, rest)) :
    (strip argument).head? = some '-' := by
  cases he with
  | @bare gap hgap =>
    have hdrop : dropBlanks (gap ++ '-' :: r) = '-' :: r := by
      rw [dropBlanks_of_isAllBlank hgap, dropBlanks_cons_of_not_isBlank (by decide)]
    have htoken : macroArgument (gap ++ '-' :: r) = .ok (['-'], r) := by
      simp [macroArgument, hdrop, leadingLetters, isAsciiLetter, groupedWords, singleToken]
    rw [List.append_assoc, List.singleton_append, htoken] at h
    obtain ⟨rfl, rfl⟩ := Prod.mk.inj (Except.ok.inj h)
    exact @head?_strip_minus [] rfl []
  | @braced gap gap' hgap hgap' =>
    have hdrop : dropBlanks (gap ++ '\x7b' :: (gap' ++ '-' :: r)) = '\x7b' :: (gap' ++ '-' :: r) := by
      rw [dropBlanks_of_isAllBlank hgap, dropBlanks_cons_of_not_isBlank (by decide)]
    have hgroup : readGroup ('\x7b' :: (gap' ++ '-' :: r)) = .ok (argument, rest) := by
      rw [← h]
      simp [macroArgument, hdrop]
    -- The group ends behind the minus sign.
    obtain ⟨b, hsplit⟩ := append_of_readGroup hgroup
    have hminus : ∀ c ∈ gap' ++ ['-'], Bracket.ofClosing? c = none := by
      intro c hc
      rcases List.mem_append.mp hc with hc | hc
      · exact (noBracket_of_isBlank (List.all_eq_true.mp hgap' c hc)).2
      · obtain rfl := List.mem_singleton.mp hc
        rfl
    obtain ⟨argument', rfl⟩ : gap' ++ ['-'] <+: argument :=
      prefix_of_notMem (q := rest) (closing_notMem hminus b) ⟨r, by simp [(List.cons.inj hsplit).2]⟩
    rw [List.append_assoc]
    exact head?_strip_minus hgap' argument'

theorem buildFunctionPower_ne_ok {braced : Bool} {e : Text} (he : NegativeExponent braced e)
    (f : UnaryFunction) (r : Text) (found : Text × Text) :
    buildFunctionPower f (e ++ r) ≠ .ok found := by
  intro h
  obtain ⟨⟨exponent, after⟩, hexponent, h⟩ := exists_of_bind_ok h
  simp only [he.head?_strip hexponent, if_true] at h
  cases h

/-- The pass declines negative powers and overlooks functions at the end of a group. -/
theorem Stage.spares_noArgument_functionPower :
    functionPower.Spares '\\' (Followed NoArgument) := by
  refine spares_noArgument local_functionPower (fun {b v out b' rest} hk hs => ?_)
    (Durable.marked_of_step_pass (durable_noArgument.marked_of_functionPower (by decide)))
  obtain ⟨n, r, rest', hsite⟩ := exists_site_of_step hs
  obtain ⟨f, -, l, w, hl, rfl, hname⟩ := hk.exists_leadingLetters
  simp only [Pass.functionPower, functionPowerSite?, if_true] at hsite
  obtain ⟨g, -, hsite⟩ := Option.bind_eq_some_iff.mp hsite
  obtain ⟨k, hk, hsite⟩ := Option.map_eq_some_iff.mp hsite
  obtain ⟨-, hbuild⟩ := Site.mk.inj hsite
  rw [← List.drop_drop, hname, List.drop_left] at hbuild
  rw [hname, List.drop_left] at hk
  obtain ⟨bl, hbl, hcaret, -⟩ := eq_append_of_markLength? hk
  have hdrop : dropBlanks (l ++ w) = '^' :: (l ++ w).drop k := by
    conv_lhs => rw [hcaret]
    rw [dropBlanks_of_isAllBlank hbl, dropBlanks_cons_of_not_isBlank (by decide)]
  cases hl with
  | negative h =>
    obtain ⟨gap, e, hgap, he, rfl⟩ := h
    rw [List.append_assoc, List.cons_append, dropBlanks_of_isAllBlank hgap,
      dropBlanks_cons_of_not_isBlank (by decide)] at hdrop
    rw [List.append_assoc, List.cons_append, ← (List.cons.inj hdrop).2] at hbuild
    exact buildFunctionPower_ne_ok he g w _ hbuild
  | closed hc =>
    have hclosing : ∀ c ∈ ['\x7d', ']'], isBlank c = false ∧ c ≠ '^' :=
      forall_mem_of_all (by decide)
    obtain ⟨hblank, hne⟩ := hclosing _ hc
    rw [List.singleton_append, dropBlanks_cons_of_not_isBlank hblank] at hdrop
    exact hne (List.cons.inj hdrop).1

/-- Such functions last through the passes. -/
theorem Canonical.spares_noArgument_passStages :
    ∀ stage ∈ passStages, stage.Spares '\\' (Followed NoArgument) := by
  simp only [passStages, List.forall_mem_cons]
  refine ⟨?_, ?_, Stage.spares_noArgument_logBase, Stage.spares_noArgument_functionPower, by simp⟩
  · exact Stage.spares_noArgument_command Stage.local_fraction (fun _ _ => rfl) (by decide)
      durable_noArgument.marked_buildFraction
  · exact Stage.spares_noArgument_command Stage.local_root Stage.site_root (by decide)
      durable_noArgument.marked_buildRoot

end Passes

/-! ### Cosmetic stages -/

/-- A text goes on no further than the last place of its last character. -/
theorem prefix_of_notMem_right {c : Char} {l p q : Text} (hc : c ∉ q) (h : l ++ [c] <+: p ++ q) :
    l ++ [c] <+: p := by
  obtain ⟨r, hr⟩ := h
  rcases List.append_eq_append_iff.mp hr with ⟨p', hp, -⟩ | ⟨q', hl, hq⟩
  · exact ⟨p', hp.symm⟩
  · rcases List.eq_nil_or_concat q' with rfl | ⟨q'', d, rfl⟩
    · exact ⟨[], by simpa using hl⟩
    · rw [List.concat_eq_append, ← List.append_assoc] at hl
      obtain ⟨-, hcd⟩ := List.append_inj' hl rfl
      exact absurd (by simp [hq, List.cons.inj hcd]) hc

section Cosmetic

variable {braced : Bool} {s t y : Text}

theorem Followed.eq_append {v : Text} (h : Followed (NegativePower braced) v) :
    ∃ front, front ++ ['-'] <+: v ∧ '\x7d' ∉ front ++ ['-'] ∧
      ∀ {w}, front ++ ['-'] <+: w → Followed (NegativePower braced) w := by
  obtain ⟨f, hf, l, hl, hp⟩ := h
  have hclosing : '\x7d' ∉ f.name.toList ++ l := by
    refine closing_notMem (fun c hc => (List.mem_append.mp hc).elim (fun hc => ?_) hl.ofClosing?)
      .curly
    exact (f.noBracket c hc).2
  obtain ⟨l', rfl⟩ := hl.eq_append
  rw [← List.append_assoc] at hp hclosing
  exact ⟨f.name.toList ++ l', hp, hclosing, fun hw => ⟨f, hf, _, hl, by rwa [← List.append_assoc]⟩⟩

theorem Followed.head?_isAsciiLetter {v : Text} (h : Followed NoArgument v) :
    v.head?.any isAsciiLetter = true := by
  obtain ⟨c, _, _, rfl, hc, -⟩ := h.stranded.eq_cons
  exact hc

namespace Negated

/-- What follows a negative power does not matter. -/
theorem append_right (h : Negated braced s) (y : Text) : Negated braced (s ++ y) := by
  obtain ⟨u, v, rfl, f, hf, l, hl, hp⟩ := h
  exact ⟨u, v ++ y, by simp, f, hf, l, hl, hp.trans (List.prefix_append v y)⟩

theorem of_append_left (h : Negated braced (y ++ s)) (hy : '\\' ∉ y) : Negated braced s :=
  Marked.of_append h hy

/-- A text without a minus sign at the end has no part in a negative power. -/
theorem of_append_right (h : Negated braced (s ++ y)) (hy : '-' ∉ y) : Negated braced s := by
  rcases marked_append h with ⟨u, p, rfl, hk⟩ | ⟨u, v, rfl, hk⟩
  · obtain ⟨front, hfront, -, hfollowed⟩ := hk.eq_append
    exact ⟨u, p, rfl, hfollowed (prefix_of_notMem_right hy hfront)⟩
  · obtain ⟨front, hfront, -⟩ := hk.eq_append
    exact absurd (List.mem_append_right u (List.mem_cons_of_mem _ (hfront.subset (by simp)))) hy

theorem strip (h : Negated braced s) : Negated braced (strip s) := by
  obtain ⟨bl, bl', hbl, hbl', hs⟩ := exists_blanks_strip s
  have hminus : '-' ∉ bl' := fun hm => absurd (List.all_eq_true.mp hbl' _ hm) (by decide)
  rw [hs] at h
  exact (h.of_append_left (notMem_backslash_of_isAllBlank hbl)).of_append_right hminus

/-- A negative power in braces or behind them. -/
theorem of_braces {content : Text} (h : Negated braced ('\x7b' :: (content ++ '\x7d' :: s))) :
    Negated braced content ∨ Negated braced s := by
  have h : Negated braced (content ++ '\x7d' :: s) := of_append_left (y := ['\x7b']) h (by simp)
  rcases marked_append h with ⟨u, p, rfl, hk⟩ | hafter
  · obtain ⟨front, hfront, hclosing, hfollowed⟩ := hk.eq_append
    exact .inl ⟨u, p, rfl, hfollowed (prefix_of_notMem hclosing hfront)⟩
  · exact .inr (of_append_left (y := ['\x7d']) hafter (by simp))

/-- A command with braces after it and a negative power in them or behind them. -/
theorem of_wrapper {bl content : Text} {n : Nat} (h : Negated braced s) (hbl : isAllBlank bl = true)
    (htake : s.take n = leadingLetters s ++ (bl ++ '\x7b' :: (content ++ ['\x7d']))) :
    Negated braced content ∨ Negated braced (s.drop n) := by
  rw [← List.take_append_drop n s, htake] at h
  simp only [List.append_assoc, List.cons_append, List.nil_append] at h
  exact ((h.of_append_left (Rule.backslash_notMem_leadingLetters s)).of_append_left
    (notMem_backslash_of_isAllBlank hbl)).of_braces

/-- With a brace between, a negative power is not in braces that hold no other ones. -/
theorem not_of_notBrace {content : Text} (hcontent : ∀ d ∈ content, notBrace d = true) :
    ¬Negated true content := by
  rintro ⟨u, v, rfl, f, -, l, hl, hp⟩
  have hbrace := hcontent '\x7b' (List.mem_append_right u (List.mem_cons_of_mem _
    (hp.subset (List.mem_append_right _ hl.brace_mem))))
  exact absurd hbrace (by decide)

end Negated

/-! #### Wrappers -/

theorem Negated.stripDollars (h : Negated braced s) : Negated braced (stripDollars s) := by
  have hdollars : ∀ {t : Text} {d : Char}, d ≠ '$' → d ∉ t.takeWhile (· = '$') := by
    intro t d hd hm
    exact hd (by simpa using List.all_eq_true.mp List.all_takeWhile d hm)
  have hback := congrArg List.reverse
    (List.takeWhile_append_dropWhile (p := (· = '$')) (l := (s.dropWhile (· = '$')).reverse))
  rw [List.reverse_append, List.reverse_reverse] at hback
  rw [← List.takeWhile_append_dropWhile (p := (· = '$')) (l := s)] at h
  have hfront := h.of_append_left (hdollars (by decide))
  rw [← hback] at hfront
  exact hfront.of_append_right fun hm => hdollars (by decide) (List.mem_reverse.mp hm)

theorem Negated.dropDisplayOpening (h : Negated braced s) :
    Negated braced (dropDisplayOpening s) := by
  have hdrop : ∀ {c : Char} {t : Text}, isAsciiLetter c = false → c ≠ '\\' →
      Negated braced ('\\' :: c :: t) → Negated braced t := by
    intro c t hletter hne h
    rcases marked_cons h with ⟨-, hk⟩ | h
    · exact absurd ((hk.mono .negative).head?_isAsciiLetter) (by simp [hletter])
    · exact Negated.of_append_left (y := [c]) h (by simpa using hne.symm)
  unfold NumericAnswer.dropDisplayOpening
  split
  · exact hdrop (by decide) (by decide) h
  · exact hdrop (by decide) (by decide) h
  · exact h

theorem Negated.dropDisplayClosing (h : Negated braced s) :
    Negated braced (dropDisplayClosing s) := by
  have hdrop : ∀ {c : Char} {r : Text}, c ≠ '-' → s.reverse = c :: '\\' :: r →
      Negated braced r.reverse := by
    intro c r hne hs
    have hsplit : s = r.reverse ++ ['\\', c] := by
      rw [← List.reverse_reverse s, hs]
      simp
    rw [hsplit] at h
    exact h.of_append_right (by simpa using hne.symm)
  unfold NumericAnswer.dropDisplayClosing
  split
  · next hs => exact hdrop (by decide) hs
  · next hs => exact hdrop (by decide) hs
  · exact h

theorem Negated.unwrapped (h : Negated braced s) : Negated braced (unwrapped s) :=
  h.strip.stripDollars.strip.dropDisplayOpening.dropDisplayClosing.strip

/-! #### Commands that are dropped or replaced -/

theorem Followed.command_eq_none {v : Text} {names : List Text}
    {build : Nat → Text → Option (Text × Nat)}
    (hn : ∀ f ∈ UnaryFunction.commands, f.name.toList ∉ names) (h : Followed NoArgument v) :
    Rule.command names build '\\' v = none := by
  have hne := h.leadingLetters_ne id hn
  simp [Rule.command, hne]

/-- A substitution keeps negative powers if its rule does. -/
theorem Negated.substitute {rule : Rule} {ended : Char → Text → Bool}
    (hl : (Stage.substitution (fun _ => rule) ended).Local)
    (hstay : ∀ {v}, Followed NoArgument v → rule '\\' v = none)
    (hmove : ∀ {c s out n}, rule c s = some (out, n) → Negated braced s →
      Negated braced out ∨ Negated braced (s.drop n)) (h : Negated braced s) :
    Negated braced (substitute rule s) := by
  have hrewrites : Rewrites false (.substitution (fun _ => rule) ended) none s
      (NumericAnswer.substitute rule s) := rewrites_substituteFrom none s
  refine hrewrites.marked (fun hk hr => hk.rewrites .negative hl hr) (fun hk hs => ?_)
    (fun hs hm => ?_) h
  · obtain ⟨n, hrule, -⟩ := Stage.exists_of_step_substitution hs
    rw [hstay (hk.mono .negative)] at hrule
    cases hrule
  · obtain ⟨n, hrule, -, rfl⟩ := Stage.exists_of_step_substitution hs
    exact (hmove hrule hm).imp_left append_right

/-- It does if its rule takes no backslash along. -/
theorem Negated.substitute_of_takesNoBackslash {rule : Rule} {ended : Char → Text → Bool}
    (hl : (Stage.substitution (fun _ => rule) ended).Local) (hr : rule.TakesNoBackslash)
    (hstay : ∀ {v}, Followed NoArgument v → rule '\\' v = none) (h : Negated braced s) :
    Negated braced (NumericAnswer.substitute rule s) :=
  h.substitute hl hstay fun hrule hm => .inr (Marked.drop hm (hr hrule))

namespace Rule

variable {v : Text}

theorem spacing_eq_none (h : Followed NoArgument v) : spacing '\\' v = none := by
  have hsigns : ∀ c ∈ spacingSigns, isAsciiLetter c = false := forall_mem_of_all (by decide)
  obtain ⟨c, _, r, rfl, hc, -⟩ := h.stranded.eq_cons
  have hsign : c ∉ spacingSigns := fun hm => by simp [hsigns c hm] at hc
  have hcommand : command ["quad".toList, "qquad".toList] (fun length _ => some ([' '], length))
      '\\' _ = none := h.command_eq_none (by decide)
  simpa [spacing, hsign] using hcommand

theorem escapedBrace_eq_none (h : Followed NoArgument v) : escapedBrace '\\' v = none := by
  have hbraces : ∀ c ∈ ['\x7b', '\x7d'], isAsciiLetter c = false := forall_mem_of_all (by decide)
  obtain ⟨c, _, r, rfl, hc, -⟩ := h.stranded.eq_cons
  have hbrace : c ∉ ['\x7b', '\x7d'] := fun hm => by simp [hbraces c hm] at hc
  simp only [List.mem_cons, List.not_mem_nil, or_false, not_or] at hbrace
  simp [escapedBrace, hbrace]

end Rule

namespace Canonical

variable {answer : Text}

/-- No style, sizing or spacing command takes a negative power away. -/
theorem negated_undecorated (h : Negated braced answer) : Negated braced (undecorated answer) := by
  have hlocal := local_of_mem_cosmeticStages
  simp only [cosmeticStages, List.forall_mem_cons] at hlocal
  obtain ⟨hstyle, hsizing, hspacing, -⟩ := hlocal
  have h₁ := h.unwrapped.substitute_of_takesNoBackslash hstyle Rule.takesNoBackslash_style
    fun hk => hk.command_eq_none (by decide)
  have h₂ := h₁.substitute_of_takesNoBackslash hsizing Rule.takesNoBackslash_sizing
    fun hk => hk.command_eq_none (by decide)
  exact h₂.substitute_of_takesNoBackslash hspacing Rule.takesNoBackslash_spacing
    Rule.spacing_eq_none

/-- No annotation takes a negative power with braces away. -/
theorem negated_unannotated (h : Negated true answer) : Negated true (unannotated answer) := by
  have hlocal := local_of_mem_cosmeticStages
  simp only [cosmeticStages, List.forall_mem_cons] at hlocal
  obtain ⟨-, -, -, hannotation, -⟩ := hlocal
  refine (negated_undecorated h).substitute hannotation (fun hk => hk.command_eq_none (by decide))
    fun hrule hm => .inr ?_
  obtain ⟨-, bl, content, hbl, hcontent, -, htake⟩ := Rule.take_of_wrapper (fun _ => []) hrule
  exact (hm.of_wrapper hbl htake).resolve_left (Negated.not_of_notBrace hcontent)

/-- A negative power outside of annotations is in the simplified answer. -/
theorem negated_simplified (h : Negated braced (unannotated answer)) :
    Negated braced (simplified answer) := by
  have hlocal := local_of_mem_cosmeticStages
  simp only [cosmeticStages, List.forall_mem_cons] at hlocal
  obtain ⟨-, -, -, -, hupright, hbar, hescapedBrace, -⟩ := hlocal
  have h₁ : Negated braced (substitute Rule.upright (unannotated answer)) := by
    refine h.substitute hupright (fun hk => hk.command_eq_none (by decide)) fun hrule hm => ?_
    obtain ⟨-, bl, content, hbl, -, rfl, htake⟩ := Rule.take_of_wrapper (fun content =>
      if (UnaryFunction.ofCommand? (strip content)).isSome then '\\' :: strip content
      else strip content) hrule
    refine (hm.of_wrapper hbl htake).imp_left fun hcontent => ?_
    split
    · exact Marked.cons hcontent.strip '\\'
    · exact hcontent.strip
  have h₂ := h₁.substitute_of_takesNoBackslash hbar Rule.takesNoBackslash_bar
    fun hk => hk.command_eq_none (by decide)
  exact h₂.substitute_of_takesNoBackslash hescapedBrace Rule.takesNoBackslash_escapedBrace
    Rule.escapedBrace_eq_none

end Canonical

end Cosmetic

/-! ### Answers -/

namespace Outcome

variable [MathLibrary]

/-- **A negative power between a function and its argument has no value.** An answer in which
a function is followed by the sign of a power and an exponent that begins with a minus sign, in
braces or, outside of annotations, without them, is a failure. -/
theorem exists_failure_of_negated {answer : Text}
    (h : Negated true answer ∨ ∃ braced, Negated braced (Canonical.unannotated answer)) :
    ∃ fault expression, ofAnswer (some answer) = failure fault expression := by
  obtain ⟨braced, hnegated⟩ : ∃ braced, Negated braced (Canonical.simplified answer) :=
    h.elim (fun h => ⟨true, Canonical.negated_simplified (Canonical.negated_unannotated h)⟩)
      fun ⟨braced, h⟩ => ⟨braced, Canonical.negated_simplified h⟩
  refine exists_failure_of_remnant fun _ _ => .inr (.inr ?_)
  have hpasses := (Canonical.chain_afterPasses (Canonical.simplified answer)).marked
    Canonical.spares_noArgument_passStages
    (Marked.mono_property hnegated fun hk => hk.mono .negative)
  exact hpasses.mono_property Followed.stranded

omit [MathLibrary] in
/-- Behind an annotation the exponent may lack its braces. -/
theorem exists_failure_of_negated_sine :
    (∃ fault expression, @ofAnswer .native (some "\\sin^\x7b-1\x7d\x7b1\x7d".toList) =
      failure fault expression) ∧
    ∃ fault expression, @ofAnswer .native (some "\\text\x7bor \x7d\\sin ^ -1".toList) =
      failure fault expression := by
  refine ⟨@exists_failure_of_negated .native _ (.inl ⟨[], _, rfl, .sin, by decide, _,
      ⟨[], _, rfl, @NegativeExponent.braced [] [] rfl rfl, rfl⟩, by decide⟩),
    @exists_failure_of_negated .native _ (.inr ⟨false, ?_⟩)⟩
  have hshown : Canonical.unannotated "\\text\x7bor \x7d\\sin ^ -1".toList =
      "\\sin ^ -1".toList := by decide +kernel
  rw [hshown]
  exact ⟨[], _, rfl, .sin, by decide, _,
    ⟨[' '], _, rfl, @NegativeExponent.bare [' '] rfl, rfl⟩, by decide⟩

/-- The glyph of a minus sign becomes one after the pass, which takes such a power for a
positive one. -/
example : canonical "\\sin^\x7b−1\x7d\x7b1\x7d".toList = "(sin\x7b1\x7d)^\x7b-1\x7d".toList := by
  decide +kernel

end Outcome

end NumericAnswer
