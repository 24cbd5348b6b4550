/-
# Texts before a closing brace

What a late stage makes of a well-nested text before a closing brace does not depend
on what follows the brace, unless the stage makes the text hollow. A macro that lacks
an argument there stays as it is, also where another text would follow.

Key definitions: `Encloses`, `Spoils`.
Key theorems: `Stage.encloses_or_spoils`, `encloses_or_spoils_chain`.
-/
import NumericAnswer.Proofs.Hollow

namespace NumericAnswer

/-! ### Absent arguments -/

section Absent

variable {s : Text}

theorem closes_brace (w : Text) : Closes ('\x7d' :: w) :=
  closes_cons (by decide) w

theorem macroArgument_absent (h : macroArgument s = .error .absent) (w : Text) :
    macroArgument (s ++ '\x7d' :: w) = .error .absent := by
  by_cases hs : dropBlanks s = []
  · have hbrace : dropBlanks (s ++ '\x7d' :: w) = '\x7d' :: w := by
      rw [dropBlanks_of_isAllBlank (dropBlanks_eq_nil_iff.mp hs),
        dropBlanks_cons_of_not_isBlank (by decide)]
    have hletters : leadingLetters ('\x7d' :: w) = [] := by
      simp [leadingLetters, show isAsciiLetter '\x7d' = false by decide]
    have hgrouped : ([] : Text) ∉ groupedWords := by decide
    simp [macroArgument, hbrace, hletters, hgrouped, singleToken]
  · exact macroArgument_absent_append hs (closes_brace w).head_isAsciiLetter h

/-- A computation that lacks something in its first or its second part. -/
theorem bind_absent {α β : Type} {x x' : Except Refusal α} {f f' : α → Except Refusal β}
    (hx : x = .error .absent → x' = .error .absent)
    (hok : ∀ a, x = .ok a → f a = .error .absent → ∃ a', x' = .ok a' ∧ f' a' = .error .absent)
    (h : (x >>= f) = .error .absent) : (x' >>= f') = .error .absent := by
  cases hc : x with
  | error refusal =>
    rw [hc] at h
    obtain rfl : refusal = .absent := Except.error.inj h
    rw [hx hc]
    rfl
  | ok a =>
    rw [hc] at h
    obtain ⟨a', ha', hf'⟩ := hok a hc h
    rw [ha']
    exact hf'

/-- What cannot be built for want of an argument cannot be built before a closing brace. -/
def KeepsAbsent (build : Text → Except Refusal (Text × Text)) : Prop :=
  ∀ ⦃s : Text⦄, build s = .error .absent → ∀ w, build (s ++ '\x7d' :: w) = .error .absent

theorem macroArgument_bind_absent {f : Text × Text → Except Refusal (Text × Text)}
    (hf : ∀ a, f a ≠ .error .absent) (h : (macroArgument s >>= f) = .error .absent) (w : Text) :
    (macroArgument (s ++ '\x7d' :: w) >>= f) = .error .absent :=
  bind_absent (fun h => macroArgument_absent h w) (fun a _ h => absurd h (hf a)) h

theorem keepsAbsent_buildFraction : KeepsAbsent buildFraction := by
  intro s h w
  refine bind_absent (fun h => macroArgument_absent h w) (fun ⟨numerator, after⟩ hn h => ?_) h
  exact ⟨_, macroArgument_append (closes_brace w) hn, macroArgument_bind_absent (by simp) h w⟩

theorem keepsAbsent_buildRoot : KeepsAbsent buildRoot := by
  intro s h w
  unfold buildRoot at h ⊢
  by_cases hs : (dropBlanks s).head? = some '['
  · have hne : dropBlanks s ≠ [] := by
      intro hnil
      rw [hnil] at hs
      cases hs
    obtain ⟨t, ht⟩ := List.head?_eq_some_iff.mp hs
    rw [if_pos hs] at h
    rw [dropBlanks_append hne, List.head?_append_of_ne_nil _ hne, if_pos hs]
    refine bind_absent (fun h => ?_) (fun ⟨degree, after⟩ hd h => ?_) h
    · rw [ht] at h
      exact absurd h (readGroup_ne_absent rfl)
    · exact ⟨_, readGroup_append hd _, macroArgument_bind_absent (by simp) h w⟩
  · have hs' : (dropBlanks (s ++ '\x7d' :: w)).head? ≠ some '[' := by
      by_cases hnil : dropBlanks s = []
      · rw [dropBlanks_of_isAllBlank (dropBlanks_eq_nil_iff.mp hnil),
          dropBlanks_cons_of_not_isBlank (by decide)]
        simp
      · rwa [dropBlanks_append hnil, List.head?_append_of_ne_nil _ hnil]
    rw [if_neg hs] at h
    rw [if_neg hs']
    exact macroArgument_bind_absent (by simp) h w

theorem keepsAbsent_buildLogBase : KeepsAbsent buildLogBase :=
  fun _ h w => macroArgument_bind_absent (by simp) h w

theorem keepsAbsent_buildFunctionPower (f : UnaryFunction) : KeepsAbsent (buildFunctionPower f) := by
  intro s h w
  refine bind_absent (fun h => macroArgument_absent h w) (fun ⟨exponent, after⟩ he h => ?_) h
  refine ⟨_, macroArgument_append (closes_brace w) he, ?_⟩
  simp only at h ⊢
  split at h
  · next hm => rw [if_pos hm]
  · next hm =>
    rw [if_neg hm]
    exact bind_absent (fun h => functionArgument_absent_append (closes_brace w) h)
      (fun ⟨_, _⟩ _ h => by cases h) h

/-- A macro that lacks an argument still lacks it before a closing brace. -/
theorem Pass.absent_brace {p : Pass} (hp : p ∈ Canonical.passes) {c : Char} {n : Nat}
    (h : p.site? c s = some ⟨n, .error .absent⟩) (w : Text) :
    ∃ n', p.site? c (s ++ '\x7d' :: w) = some ⟨n', .error .absent⟩ := by
  have hv := closes_brace w
  have hletters := leadingLetters_append_of_head hv.head_isAsciiLetter s
  have hcommand : ∀ {names : List Text} {build : Text → Except Refusal (Text × Text)},
      (∀ c s, p.site? c s = if c = '\\' && names.contains (leadingLetters s) then
        some (siteAt s (leadingLetters s).length build) else none) → KeepsAbsent build →
      ∃ n', p.site? c (s ++ '\x7d' :: w) = some ⟨n', .error .absent⟩ := by
    intro names build hsite hbuild
    rw [hsite] at h ⊢
    rw [hletters]
    split at h
    · next hc =>
      obtain ⟨rfl, hb⟩ := Site.mk.inj (Option.some.inj h)
      exact ⟨_, by rw [if_pos hc, siteAt, drop_leadingLetters_append, hbuild hb w]⟩
    · cases h
  have hmark : ∀ {mark : Char}, isBlank mark = false → mark ∉ closers →
      markLength? mark (s.drop (leadingLetters s).length ++ '\x7d' :: w) =
        markLength? mark (s.drop (leadingLetters s).length) :=
    fun hb hc => markLength?_append hb hc hv _
  simp only [Canonical.passes, List.mem_cons, List.not_mem_nil, or_false] at hp
  rcases hp with rfl | rfl | rfl | rfl
  · exact hcommand (fun _ _ => rfl) keepsAbsent_buildFraction
  · exact hcommand Stage.site_root keepsAbsent_buildRoot
  · simp only [logBase, logBaseSite?, hletters, drop_leadingLetters_append,
      @hmark '_' (by decide) (by decide)] at h ⊢
    split at h
    · next hc =>
      obtain ⟨k, hk, hs⟩ := Option.map_eq_some_iff.mp h
      obtain ⟨rfl, hb⟩ := Site.mk.inj hs
      exact ⟨_, by rw [if_pos hc, hk, Option.map_some, siteAt, drop_siteLength (markLength?_le hk),
        keepsAbsent_buildLogBase hb w]⟩
    · cases h
  · simp only [functionPower, functionPowerSite?, hletters, drop_leadingLetters_append,
      @hmark '^' (by decide) (by decide)] at h ⊢
    split at h
    · next hc =>
      obtain ⟨f, hf, h⟩ := Option.bind_eq_some_iff.mp h
      obtain ⟨k, hk, hs⟩ := Option.map_eq_some_iff.mp h
      obtain ⟨rfl, hb⟩ := Site.mk.inj hs
      exact ⟨_, by rw [if_pos hc, hf, Option.bind_some, hk, Option.map_some, siteAt,
        drop_siteLength (markLength?_le hk), keepsAbsent_buildFunctionPower f hb w]⟩
    · cases h

end Absent

/-! ### Runs before a closing brace -/

/-- The stages make the second text of the first one before any closing brace. -/
def Encloses (stages : List Stage) (s t : Text) : Prop :=
  ∀ ⦃w W : Text⦄, Chain false stages w W →
    Chain false stages (s ++ '\x7d' :: w) (t ++ '\x7d' :: W)

/-- The stages make the text hollow before any closing brace. -/
def Spoils (stages : List Stage) (s : Text) : Prop :=
  ∀ ⦃w W : Text⦄, Chain false stages (s ++ '\x7d' :: w) W → Hollow W

theorem nest_cons_split {opened out : List Bracket} {c : Char} {s : Text}
    (h : nest opened (c :: s) = some out) :
    ∃ middle, (∀ t, nest opened (c :: t) = nest middle t) ∧ nest middle s = some out := by
  rw [← List.singleton_append, nest_append] at h
  obtain ⟨middle, hc, hs⟩ := Option.bind_eq_some_iff.mp h
  refine ⟨middle, fun t => ?_, hs⟩
  rw [← List.singleton_append, nest_append, hc, Option.bind_some]

theorem Rewrites.brace {strict : Bool} {stage : Stage} (hl : stage.Local) {w W : Text}
    (h : Rewrites strict stage none w W) (b : Option Char) :
    Rewrites strict stage b ('\x7d' :: w) ('\x7d' :: W) :=
  .keep (hl.plain b w (by decide)) (h.of_before hl (by decide +kernel))

theorem Stage.local_of_late {stage : Stage} (h : stage ∈ Canonical.lateStages) : stage.Local :=
  Canonical.local_of_mem_stages stage (List.mem_append_right _ h)

/-- The stage of one of the passes. -/
theorem exists_pass_of_mem_passStages {stage : Stage} (h : stage ∈ Canonical.passStages) :
    ∃ p ∈ Canonical.passes, ∃ ended, stage = Stage.pass p ended := by
  simp only [Canonical.passStages, List.mem_cons, List.not_mem_nil, or_false] at h
  rcases h with rfl | rfl | rfl | rfl
  · exact ⟨.fraction, by simp [Canonical.passes], _, rfl⟩
  · exact ⟨.root, by simp [Canonical.passes], _, rfl⟩
  · exact ⟨.logBase, by simp [Canonical.passes], _, rfl⟩
  · exact ⟨.functionPower, by simp [Canonical.passes], _, rfl⟩

section Passes

variable {p : Pass} (hp : p ∈ Canonical.passes) {ended : Char → Text → Bool} {b : Option Char}
  {c : Char} {s t : Text} {opened out : List Bracket}
include hp

theorem Pass.holdsUnclosed {n : Nat} {k : Bracket}
    (h : p.site? c s = some ⟨n, .error (.unclosed k)⟩) : HoldsUnclosed k s := by
  simp only [Canonical.passes, List.mem_cons, List.not_mem_nil, or_false] at hp
  rcases hp with rfl | rfl | rfl | rfl
  · exact holdsUnclosed_fraction h
  · exact holdsUnclosed_root h
  · exact holdsUnclosed_logBase h
  · exact holdsUnclosed_functionPower h

/-- Nothing is unclosed in the rest of a well-nested text. -/
theorem Stage.ne_unclosed_of_nest (hn : nest opened (c :: s) = some []) :
    Stage.pass p ended b c s ≠ .unclosed := by
  intro h
  obtain ⟨k, hk⟩ := Stage.exists_holdsUnclosed (Pass.holdsUnclosed hp) h
  have hcounts : CountsOut (c :: s) := fun k => ⟨_, walk_of_nest k hn⟩
  exact hcounts.not_holdsUnclosed k hk

/-- What is short at the end of a text is kept before a closing brace. -/
theorem Stage.kept_of_short (h : Stage.pass p ended b c s = .short) (w : Text) :
    Stage.pass p ended b c (s ++ '\x7d' :: w) = .nothing ∨
      Stage.pass p ended b c (s ++ '\x7d' :: w) = .short := by
  obtain ⟨n, hsite, _⟩ := Stage.exists_site_of_short h
  obtain ⟨n', hsite'⟩ := Pass.absent_brace hp hsite w
  simp only [Stage.pass, hsite']
  split
  · exact .inr rfl
  · exact .inl rfl

omit hp in
theorem Stage.step_pass_brace (hl : (Stage.pass p ended).Local) {b' : Option Char} {made rest : Text}
    (h : Stage.pass p ended b c s = .step made b' rest) (w : Text) :
    Stage.pass p ended b c (s ++ '\x7d' :: w) = .step [] b (rest ++ '\x7d' :: w) := by
  obtain ⟨rfl, rfl, -⟩ := Stage.exists_of_step_pass h
  rcases hl.step h (closes_brace w) with hstep | ⟨rfl, b', hstep⟩
  · exact hstep
  · rw [dropBlanks_cons_of_not_isBlank (by decide)] at hstep
    obtain ⟨-, rfl, -⟩ := Stage.exists_of_step_pass hstep
    exact hstep

/-- A pass over the rest of a well-nested text keeps its brackets and does the same
before any closing brace, or it makes the text hollow there. -/
theorem Rewrites.encloses_or_spoils (hl : (Stage.pass p ended).Local)
    (h : Rewrites false (.pass p ended) b s t) (hn : nest opened s = some []) :
    (nest opened t = some [] ∧ ∀ {w W}, Rewrites false (.pass p ended) none w W →
        Rewrites false (.pass p ended) b (s ++ '\x7d' :: w) (t ++ '\x7d' :: W)) ∨
      ∀ {w W}, Rewrites false (.pass p ended) b (s ++ '\x7d' :: w) W → Hollow W := by
  induction h generalizing opened with
  | nil b => exact .inl ⟨hn, fun h => h.brace hl b⟩
  | @keep b c s t h _ ih =>
    obtain ⟨middle, hmiddle, hs⟩ := nest_cons_split hn
    have hnothing : ∀ w, Stage.pass p ended b c (s ++ '\x7d' :: w) = .nothing :=
      fun w => hl.nothing h (closes_brace w)
    refine (ih hs).imp (fun hgood => ⟨by rw [hmiddle]; exact hgood.1, fun hw => ?_⟩)
      fun hbad {w W} hW => ?_
    · exact .keep (hnothing _) (hgood.2 hw)
    · obtain ⟨W', rfl, hW'⟩ := hW.of_nothing (hnothing w)
      exact (hbad hW').cons c
  | @move b b' c s made rest t h _ ih =>
    have hcontext := Stage.step_pass_brace hl h
    obtain ⟨rfl, rfl, -⟩ := Stage.exists_of_step_pass h
    simp only [List.nil_append]
    rcases Stage.hollow_or_nest_of_step_pass hp h hn with hhollow | hrest
    · refine .inr fun {w W} hW => ?_
      obtain ⟨W', rfl, hW'⟩ := hW.of_step (hcontext w)
      exact hW'.hollow hl (Stage.hollow_of_step_pass hp) (hhollow.append_right _)
    · refine (ih hrest).imp (fun hgood => ⟨hgood.1, fun hw => ?_⟩) fun hbad {w W} hW => ?_
      · exact @Rewrites.move _ _ _ _ _ _ [] _ _ (hcontext _) (hgood.2 hw)
      · obtain ⟨W', rfl, hW'⟩ := hW.of_step (hcontext w)
        exact hbad hW'
  | @leave b c s t _ h _ ih =>
    obtain ⟨middle, hmiddle, hs⟩ := nest_cons_split hn
    have hkept := Stage.kept_of_short hp h
    refine (ih hs).imp (fun hgood => ⟨by rw [hmiddle]; exact hgood.1, fun {w W} hw => ?_⟩)
      fun hbad {w W} hW => ?_
    · rcases hkept w with hk | hk
      · exact .keep hk (hgood.2 hw)
      · exact .leave rfl hk (hgood.2 hw)
    · have hsplit : ∃ W', W = c :: W' ∧
          Rewrites false (.pass p ended) (some c) (s ++ '\x7d' :: w) W' :=
        (hkept w).elim hW.of_nothing hW.of_short
      obtain ⟨W', rfl, hW'⟩ := hsplit
      exact (hbad hW').cons c
  | quit _ h => exact absurd h (Stage.ne_unclosed_of_nest hp hn)

end Passes

/-- A run that finds nothing unclosed is the same before a closing brace, if what it
leaves for want of text is kept there. -/
theorem Rewrites.encloses {strict : Bool} {stage : Stage} (hl : stage.Local)
    (hshort : strict = false → ∀ b c s, stage b c s = .short →
      ∀ w, stage b c (s ++ '\x7d' :: w) = .nothing)
    (hunclosed : strict = false → ∀ b c s, stage b c s ≠ .unclosed) {b : Option Char} {s t : Text}
    (h : Rewrites strict stage b s t) {w W : Text} (hw : Rewrites false stage none w W) :
    Rewrites false stage b (s ++ '\x7d' :: w) (t ++ '\x7d' :: W) := by
  induction h with
  | nil b => exact hw.brace hl b
  | keep h _ ih => exact .keep (hl.nothing h (closes_brace w)) ih
  | @move b b' c s out rest t h ht ih =>
    rw [List.append_assoc]
    rcases hl.step h (closes_brace w) with hstep | ⟨rfl, b', hstep⟩
    · exact .move hstep ih
    · rw [dropBlanks_cons_of_not_isBlank (by decide)] at hstep
      rw [ht.eq_nil]
      exact .move hstep (hw.brace hl b')
  | leave hstrict h _ ih => exact .keep (hshort hstrict _ _ _ h w) ih
  | quit hstrict h => exact absurd h (hunclosed hstrict _ _ _)

theorem Rewrites.encloses_of_strict {stage : Stage} (hl : stage.Local) {b : Option Char}
    {s t : Text} (h : Rewrites true stage b s t) {w W : Text} (hw : Rewrites false stage none w W) :
    Rewrites false stage b (s ++ '\x7d' :: w) (t ++ '\x7d' :: W) :=
  h.encloses hl (fun hstrict => by cases hstrict) (fun hstrict => by cases hstrict) hw

/-- A strict run is the same before any closing brace. -/
theorem Rewrites.encloses_stage {stage : Stage} (hl : stage.Local) {s t : Text}
    (h : Rewrites true stage none s t) : Encloses [stage] s t := by
  rintro w W ⟨_, hw, rfl⟩
  exact ⟨_, h.encloses_of_strict hl hw, rfl⟩

/-- A stage of words or signs, which neither reads nor writes brackets. -/
theorem Stage.encloses_substitution {rule : Option Char → Rule} (hr : ∀ b, (rule b).Plain)
    (hl : (Stage.substitution rule fun _ _ => false).Local) {s : Text} (hs : Nested s) :
    ∃ t, Nested t ∧ Encloses [.substitution rule fun _ _ => false] s t := by
  have hrun := @rewrites_substituteFrom rule (fun _ _ => false) none s
  exact ⟨_, (followsBrackets_nest.rewrites_plain hr hrun []).symm.trans hs,
    hrun.toStrict_substitution.encloses_stage hl⟩

/-- A late stage makes one text of a well-nested one before any closing brace, or
makes it hollow there. -/
theorem Stage.encloses_or_spoils {stage : Stage} (hs : stage ∈ Canonical.lateStages) {s : Text}
    (hn : Nested s) : (∃ t, Nested t ∧ Encloses [stage] s t) ∨ Spoils [stage] s := by
  have hl := Stage.local_of_late hs
  rcases List.mem_append.mp hs with hpass | hword
  · obtain ⟨p, hp, ended, rfl⟩ := exists_pass_of_mem_passStages hpass
    obtain ⟨t, -, ht⟩ := p.rewrites_runFrom ended [] s
    refine (ht.encloses_or_spoils hp hl hn).imp (fun hgood => ⟨t, hgood.1, ?_⟩) fun hbad => ?_
    · rintro w W ⟨_, hw, rfl⟩
      exact ⟨_, hgood.2 hw, rfl⟩
    · rintro w W ⟨_, hW, rfl⟩
      exact hbad hW
  · left
    simp only [Canonical.wordStages, List.mem_cons, List.not_mem_nil, or_false] at hword
    rcases hword with rfl | rfl | rfl | rfl
    · exact Stage.encloses_substitution Rule.plain_functionName.apart hl hn
    · exact Stage.encloses_substitution (fun _ => Rule.plain_sign) hl hn
    · exact Stage.encloses_substitution Rule.plain_pi.apart hl hn
    · exact Stage.encloses_substitution Rule.plain_e.apart hl hn

theorem Stage.exists_rewrites {stage : Stage} (hs : stage ∈ Canonical.lateStages) (s : Text) :
    ∃ t, Rewrites false stage none s t := by
  rcases List.mem_append.mp hs with hpass | hword
  · obtain ⟨p, hp, ended, rfl⟩ := exists_pass_of_mem_passStages hpass
    obtain ⟨t, -, ht⟩ := p.rewrites_runFrom ended [] s
    exact ⟨t, ht⟩
  · simp only [Canonical.wordStages, List.mem_cons, List.not_mem_nil, or_false] at hword
    rcases hword with rfl | rfl | rfl | rfl <;> exact ⟨_, rewrites_substituteFrom none s⟩

/-! ### Chains of late stages -/

/-- The stages make the second text of the first one, whatever follows. -/
def Turns (stages : List Stage) (l l' : Text) : Prop :=
  ∀ ⦃s t : Text⦄, Chain false stages s t → Chain false stages (l ++ s) (l' ++ t)

theorem Turns.append {first second : List Stage} {l m l' : Text} (h : Turns first l m)
    (h' : Turns second m l') : Turns (first ++ second) l l' := by
  intro s t hst
  obtain ⟨u, hu, ht⟩ := Chain.append.mp hst
  exact Chain.append.mpr ⟨_, h hu, h' ht⟩

/-- A text that no stage looks at stays. -/
theorem turns_plain {l : Text} (hp : ∀ c ∈ l, c ∉ triggers) (he : Apart l.getLast?) :
    ∀ {stages : List Stage}, (∀ stage ∈ stages, stage.Local) → Turns stages l l
  | [], _, s, t, h => by rw [show s = t from h]; rfl
  | stage :: stages, hl, s, t, ⟨u, hu, ht⟩ => by
    have hlocal := hl stage (List.mem_cons_self ..)
    refine ⟨l ++ u, rewrites_plain_append hlocal hp (hu.of_before hlocal ?_),
      turns_plain hp he (fun stage h => hl stage (List.mem_cons_of_mem _ h)) ht⟩
    rw [Option.or_none]
    exact he.symm

theorem apart_of_isAllBlank {bl : Text} (hbl : isAllBlank bl = true) : Apart bl.getLast? := by
  unfold Apart
  cases h : bl.getLast? with
  | none => rfl
  | some c =>
    exact isAlphanumeric_of_isBlank (List.all_eq_true.mp hbl c (List.mem_of_getLast? h))

theorem Encloses.append {first second : List Stage} {s t u : Text} (h : Encloses first s t)
    (h' : Encloses second t u) : Encloses (first ++ second) s u := by
  intro w W hw
  obtain ⟨v, hv, hW⟩ := Chain.append.mp hw
  exact Chain.append.mpr ⟨_, h hv, h' hW⟩

theorem chain_nil : ∀ stages : List Stage, Chain false stages [] []
  | [] => rfl
  | _ :: stages => ⟨[], .nil none, chain_nil stages⟩

section Chains

variable {stages : List Stage} (hstages : ∀ stage ∈ stages, stage ∈ Canonical.lateStages)
include hstages

theorem exists_chain_late (s : Text) : ∃ t, Chain false stages s t := by
  induction stages generalizing s with
  | nil => exact ⟨s, rfl⟩
  | cons stage stages ih =>
    obtain ⟨u, hu⟩ := Stage.exists_rewrites (hstages stage (List.mem_cons_self ..)) s
    obtain ⟨t, ht⟩ := ih (fun stage h => hstages stage (List.mem_cons_of_mem _ h)) u
    exact ⟨t, u, hu, ht⟩

theorem Chain.hollow_late {s t : Text} (h : Chain false stages s t) (hs : Hollow s) : Hollow t := by
  induction stages generalizing s with
  | nil => exact h ▸ hs
  | cons stage stages ih =>
    obtain ⟨u, hu, ht⟩ := h
    exact ih (fun stage h => hstages stage (List.mem_cons_of_mem _ h)) ht
      (hu.hollow_late (hstages stage (List.mem_cons_self ..)) hs)

/-- Late stages make one text of a well-nested one before any closing brace, or make it
hollow there. -/
theorem encloses_or_spoils_chain {s : Text} (hn : Nested s) :
    (∃ t, Nested t ∧ Encloses stages s t) ∨ Spoils stages s := by
  induction stages generalizing s with
  | nil => exact .inl ⟨s, hn, fun w W h => by rw [show w = W from h]; rfl⟩
  | cons stage stages ih =>
    have hlate : ∀ stage ∈ stages, stage ∈ Canonical.lateStages :=
      fun stage h => hstages stage (List.mem_cons_of_mem _ h)
    have hfirst := hstages stage (List.mem_cons_self ..)
    rcases Stage.encloses_or_spoils hfirst hn with ⟨u, hnested, hu⟩ | hbad
    · refine (ih hlate hnested).imp (fun ⟨t, ht, hut⟩ => ⟨t, ht, hu.append hut⟩) fun hbad => ?_
      rintro w W ⟨v, hv, hW⟩
      obtain ⟨w', hw'⟩ := Stage.exists_rewrites hfirst w
      obtain ⟨_, hu, rfl⟩ := hu ⟨_, hw', rfl⟩
      obtain rfl := hv.unique hu
      exact hbad hW
    · refine .inr fun w W ⟨v, hv, hW⟩ => ?_
      exact hW.hollow_late hlate (hbad ⟨v, hv, rfl⟩)

end Chains

/-! ### Two texts between pieces -/

/-- Two texts, each before a closing brace and after a piece. -/
def enclosed (l x m y : Text) : Text :=
  l ++ (x ++ '\x7d' :: (m ++ (y ++ ['\x7d'])))

section Enclosed

variable {stages : List Stage} {l l' x x' m m' y y' W : Text}

theorem chain_enclosed (hl : Turns stages l l') (hx : Encloses stages x x')
    (hm : Turns stages m m') (hy : Encloses stages y y') :
    Chain false stages (enclosed l x m y) (enclosed l' x' m' y') :=
  hl (hx (hm (hy (chain_nil stages))))

/-- One spoiled text makes the whole text hollow. -/
theorem hollow_enclosed (hstages : ∀ stage ∈ stages, stage ∈ Canonical.lateStages)
    (hl : Turns stages l l') (hm : Turns stages m m') (hx : Nested x)
    (h : Spoils stages x ∨ Spoils stages y) (hW : Chain false stages (enclosed l x m y) W) :
    Hollow W := by
  have hfirst : Spoils stages x → Hollow W := by
    intro hbad
    obtain ⟨v, hv⟩ := exists_chain_late hstages (x ++ '\x7d' :: (m ++ (y ++ ['\x7d'])))
    obtain rfl := hW.unique (hl hv)
    exact (hbad hv).append_left l'
  rcases encloses_or_spoils_chain hstages hx with ⟨x', -, hx'⟩ | hbad
  · refine h.elim hfirst fun hbad => ?_
    obtain ⟨v, hv⟩ := exists_chain_late hstages (y ++ ['\x7d'])
    obtain rfl := hW.unique (hl (hx' (hm hv)))
    have hlast := ((hbad hv).append_left m').cons '\x7d'
    exact (hlast.append_left x').append_left l'
  · exact hfirst hbad

end Enclosed

end NumericAnswer
