/-
# Stages of the rewriting

Every substitution and every pass of the canonical form goes through a text
once. A stage says what it finds at a character, and `Rewrites` relates a text
to what the stage makes of it: strictly, if the stage never lacks text after the
last character, or leniently.

Key definitions: `Found`, `Stage`, `Rewrites`, `Canonical.stages`, `Chain`.
Key theorems: `substituteFrom_eq_of_rewrites`, `Pass.runFrom_eq_of_rewrites`,
`canonical_eq_of_chain`, `exists_chain_of_canonical`.
-/
import NumericAnswer.Notation.Canonical

namespace NumericAnswer

/-- What a stage finds at a character. -/
inductive Found where
  /-- The character stays. -/
  | nothing
  /-- The character stays, for want of text after the last character. -/
  | short
  /-- A group after the character is not closed, and the stage gives up. -/
  | unclosed
  /-- The stage writes `out` and goes on with `rest`, after the character
  `before`. -/
  | step (out : Text) (before : Option Char) (rest : Text)

/-- A stage looks at a character, the one before it and the text after it. -/
abbrev Stage := Option Char → Char → Text → Found

/-- The stage makes `t` of `s`, after the character `before`. A strict run finds
nothing short and nothing unclosed. -/
inductive Rewrites (strict : Bool) (stage : Stage) : Option Char → Text → Text → Prop where
  | nil (before : Option Char) : Rewrites strict stage before [] []
  | keep {before : Option Char} {c : Char} {s t : Text} (h : stage before c s = .nothing)
      (ht : Rewrites strict stage (some c) s t) : Rewrites strict stage before (c :: s) (c :: t)
  | move {before before' : Option Char} {c : Char} {s out rest t : Text}
      (h : stage before c s = .step out before' rest)
      (ht : Rewrites strict stage before' rest t) :
      Rewrites strict stage before (c :: s) (out ++ t)
  | leave {before : Option Char} {c : Char} {s t : Text} (hl : strict = false)
      (h : stage before c s = .short) (ht : Rewrites strict stage (some c) s t) :
      Rewrites strict stage before (c :: s) (c :: t)
  | quit {before : Option Char} {c : Char} {s : Text} (hl : strict = false)
      (h : stage before c s = .unclosed) : Rewrites strict stage before (c :: s) (c :: s)

/-- A strict run is a lenient one. -/
theorem Rewrites.lenient {stage : Stage} {b : Option Char} {s t : Text}
    (h : Rewrites true stage b s t) : Rewrites false stage b s t := by
  induction h with
  | nil b => exact .nil b
  | keep h _ ih => exact .keep h ih
  | move h _ ih => exact .move h ih
  | leave hl => cases hl
  | quit hl => cases hl

section Inversion

variable {strict : Bool} {stage : Stage} {b : Option Char} {c : Char} {s t : Text}

theorem Rewrites.of_nothing (hs : stage b c s = .nothing) (h : Rewrites strict stage b (c :: s) t) :
    ∃ t', t = c :: t' ∧ Rewrites strict stage (some c) s t' := by
  cases h with
  | keep _ ht => exact ⟨_, rfl, ht⟩
  | move h => rw [hs] at h; cases h
  | leave _ h => rw [hs] at h; cases h
  | quit _ h => rw [hs] at h; cases h

theorem Rewrites.of_short (hs : stage b c s = .short) (h : Rewrites strict stage b (c :: s) t) :
    ∃ t', t = c :: t' ∧ Rewrites strict stage (some c) s t' := by
  cases h with
  | keep h => rw [hs] at h; cases h
  | move h => rw [hs] at h; cases h
  | leave _ _ ht => exact ⟨_, rfl, ht⟩
  | quit _ h => rw [hs] at h; cases h

theorem Rewrites.of_step {b' : Option Char} {out rest : Text} (hs : stage b c s = .step out b' rest)
    (h : Rewrites strict stage b (c :: s) t) : ∃ t', t = out ++ t' ∧ Rewrites strict stage b' rest t' := by
  cases h with
  | keep h => rw [hs] at h; cases h
  | move h ht =>
    rw [hs] at h
    obtain ⟨rfl, rfl, rfl⟩ := Found.step.inj h
    exact ⟨_, rfl, ht⟩
  | leave _ h => rw [hs] at h; cases h
  | quit _ h => rw [hs] at h; cases h

end Inversion

/-- A run makes one text only. -/
theorem Rewrites.unique {strict : Bool} {stage : Stage} {b : Option Char} {s t t' : Text}
    (h : Rewrites strict stage b s t) (h' : Rewrites strict stage b s t') : t = t' := by
  induction h generalizing t' with
  | nil =>
    cases h'
    rfl
  | keep h _ ih =>
    obtain ⟨_, rfl, ht⟩ := h'.of_nothing h
    exact congrArg _ (ih ht)
  | move h _ ih =>
    obtain ⟨_, rfl, ht⟩ := h'.of_step h
    exact congrArg _ (ih ht)
  | leave _ h _ ih =>
    obtain ⟨_, rfl, ht⟩ := h'.of_short h
    exact congrArg _ (ih ht)
  | quit _ h =>
    cases h' with
    | keep h' => rw [h] at h'; cases h'
    | move h' => rw [h] at h'; cases h'
    | leave _ h' => rw [h] at h'; cases h'
    | quit => rfl

/-- A run is strict, or it leaves a trace of what it found short or unclosed. A
property of the text that is left may rule some of it out. -/
theorem Rewrites.strict_or {stage : Stage} {P M : Text → Prop} (hcons : ∀ {c s}, P (c :: s) → P s)
    (hstep : ∀ {b c s out b' rest}, stage b c s = .step out b' rest → P (c :: s) → P rest)
    (happ : ∀ {t} (u : Text), M t → M (u ++ t)) {strict : Bool}
    (hshort : ∀ {b c s t}, P (c :: s) → stage b c s = .short →
      Rewrites strict stage (some c) s t → M (c :: t))
    (hunclosed : ∀ {b c s}, P (c :: s) → stage b c s = .unclosed → M (c :: s)) {b : Option Char}
    {s t : Text} (h : Rewrites strict stage b s t) : P s → Rewrites true stage b s t ∨ M t := by
  induction h with
  | nil b => exact fun _ => .inl (.nil b)
  | @keep b c s t h _ ih => exact fun hp => (ih (hcons hp)).imp (.keep h) (happ [c])
  | @move b b' c s out rest t h _ ih => exact fun hp => (ih (hstep h hp)).imp (.move h) (happ out)
  | leave _ h ht => exact fun hp => .inr (hshort hp h ht)
  | quit _ h => exact fun hp => .inr (hunclosed hp h)

/-- A run is strict if a property of the text that is left rules out what a
strict run must not find. -/
theorem Rewrites.toStrict {stage : Stage} {P : Text → Prop}
    (hcons : ∀ {c s}, P (c :: s) → P s)
    (hstep : ∀ {b c s out b' rest}, stage b c s = .step out b' rest → P (c :: s) → P rest)
    (hshort : ∀ {b c s}, P (c :: s) → stage b c s ≠ .short)
    (hunclosed : ∀ {b c s}, P (c :: s) → stage b c s ≠ .unclosed) {strict : Bool}
    {b : Option Char} {s t : Text} (h : Rewrites strict stage b s t) (hp : P s) :
    Rewrites true stage b s t := by
  have hor := h.strict_or (M := fun _ => False) hcons hstep (fun _ => id)
    (fun hp h _ => hshort hp h) (fun hp h => hunclosed hp h) hp
  exact hor.resolve_right id

namespace Stage

/-- The stage of a substitution; `ended` says where the text ends too early
for the rule. -/
def substitution (rule : Option Char → Rule) (ended : Char → Text → Bool) : Stage :=
  fun before c s =>
    match rule before c s with
    | some (replacement, length) => .step replacement (c :: s.take length).getLast? (s.drop length)
    | none => if ended c s then .short else .nothing

/-- The stage of a pass; `ended` says where an absent argument is one that the
text ends before. -/
def pass (p : Pass) (ended : Char → Text → Bool) : Stage :=
  fun before c s =>
    match p.site? c s with
    | some ⟨_, .ok (replacement, rest)⟩ =>
      .step [] before (padded before rest.head? replacement ++ rest)
    | some ⟨_, .error (.unclosed _)⟩ => .unclosed
    | some ⟨_, .error .absent⟩ => if ended c s then .short else .nothing
    | none => .nothing

end Stage

theorem Stage.substitution_ne_unclosed {rule : Option Char → Rule} {ended : Char → Text → Bool}
    {before : Option Char} {c : Char} {s : Text} :
    substitution rule ended before c s ≠ .unclosed := by
  unfold substitution
  split
  · simp
  · split <;> simp

/-! ### Substitutions -/

section Substitution

variable {rule : Option Char → Rule} {ended : Char → Text → Bool}

/-- A strict run tells what the substitution makes of a text. -/
theorem substituteFrom_eq_of_rewrites {before : Option Char} {s t : Text}
    (h : Rewrites true (.substitution rule ended) before s t) : substituteFrom rule before s = t := by
  induction h with
  | nil before => rw [substituteFrom]
  | @keep before c s t h _ ih =>
    rw [substituteFrom]
    unfold Stage.substitution at h
    split at h
    · cases h
    · next hn => simp [hn, ih]
  | @move before before' c s out rest t h _ ih =>
    rw [substituteFrom]
    unfold Stage.substitution at h
    split at h
    · next replacement length hr =>
      obtain ⟨rfl, rfl, rfl⟩ := Found.step.inj h
      simp [hr, ih]
    · split at h <;> cases h
  | leave hl => cases hl
  | quit hl => cases hl

/-- Every substitution is a lenient run. -/
theorem rewrites_substituteFrom (before : Option Char) (s : Text) :
    Rewrites false (.substitution rule ended) before s (substituteFrom rule before s) := by
  fun_induction substituteFrom rule before s with
  | case1 before => exact .nil _
  | case2 before c s replacement length hr ih =>
    refine .move ?_ ih
    simp [Stage.substitution, hr]
  | case3 before c s hn ih =>
    by_cases he : ended c s = true
    · exact .leave rfl (by simp [Stage.substitution, hn, he]) ih
    · exact .keep (by simp [Stage.substitution, hn, he]) ih

end Substitution

/-! ### Passes -/

section Passes

variable {p : Pass} {ended : Char → Text → Bool}

theorem Pass.runFrom_eq_of_rewrites {before : Option Char} {s t : Text}
    (h : Rewrites true (.pass p ended) before s t) :
    ∀ done : Text, done.head? = before → p.runFrom done s = (done.reverse ++ t, none) := by
  induction h with
  | nil before =>
    intro done _
    rw [runFrom]
    simp
  | @keep before c s t h _ ih =>
    intro done hd
    have ih := ih (c :: done) rfl
    rw [List.reverse_cons, List.append_assoc, List.singleton_append] at ih
    unfold Stage.pass at h
    rw [runFrom]
    split at h
    · cases h
    · cases h
    · next heq => split <;> simp_all
    · next heq => split <;> simp_all
  | @move before before' c s out rest t h _ ih =>
    intro done hd
    unfold Stage.pass at h
    rw [runFrom]
    split at h
    · next replacement rest' heq =>
      obtain ⟨rfl, rfl, rfl⟩ := Found.step.inj h
      subst hd
      have ih := ih done rfl
      split <;> simp_all
    · cases h
    · split at h <;> cases h
    · cases h
  | leave hl => cases hl
  | quit hl => cases hl

/-- Every pass is a lenient run. -/
theorem Pass.rewrites_runFrom (p : Pass) (ended : Char → Text → Bool) (done s : Text) :
    ∃ t, (p.runFrom done s).1 = done.reverse ++ t ∧
      Rewrites false (.pass p ended) done.head? s t := by
  fun_induction Pass.runFrom p done s with
  | case1 done => exact ⟨[], by simp, .nil _⟩
  | case2 done c s length replacement rest hs ih =>
    obtain ⟨t, ht, hr⟩ := ih
    refine ⟨t, ht, @Rewrites.move _ _ _ _ _ _ [] _ _ ?_ hr⟩
    simp [Stage.pass, hs]
  | case3 done c s length bracket hs =>
    exact ⟨c :: s, rfl, .quit rfl (by simp [Stage.pass, hs])⟩
  | case4 done c s length hs ih =>
    obtain ⟨t, ht, hr⟩ := ih
    refine ⟨c :: t, by simpa using ht, ?_⟩
    by_cases he : ended c s = true
    · exact .leave rfl (by simp [Stage.pass, hs, he]) hr
    · exact .keep (by simp [Stage.pass, hs, he]) hr
  | case5 done c s hs ih =>
    obtain ⟨t, ht, hr⟩ := ih
    exact ⟨c :: t, by simpa using ht, .keep (by simp [Stage.pass, hs]) hr⟩

end Passes

/-! ### The stages in order -/

/-- The text ends inside braces that hold no other ones. -/
def endsInBraces (s : Text) : Bool :=
  match dropBlanks s with
  | '\x7b' :: t => t.all fun c => c ≠ '\x7b' && c ≠ '\x7d'
  | _ => false

namespace Stage

/-- A stage that no text ends too early for. -/
def always (rule : Rule) : Stage :=
  substitution (fun _ => rule) fun _ _ => false

/-- A stage that looks at the character after a backslash. -/
def escape (rule : Rule) : Stage :=
  substitution (fun _ => rule) fun c s => c = '\\' && s.isEmpty

/-- A stage that looks for the braces after a command. -/
def wrapper (names : List Text) (rule : Rule) : Stage :=
  substitution (fun _ => rule) fun c s =>
    c = '\\' && names.contains (leadingLetters s) &&
      endsInBraces (s.drop (leadingLetters s).length)

/-- A stage that puts words. -/
def wording (rule : Rule) : Stage :=
  substitution rule.apart fun _ _ => false

/-- The stage of a pass whose macros must have arguments. -/
def strictPass (p : Pass) : Stage :=
  pass p fun _ _ => true

/-- The stage of the powers of functions. The sign of a power that ends the
text has no exponent yet. -/
def functionPower : Stage :=
  pass .functionPower fun c s =>
    (functionPowerSite? c s).any fun site => isAllBlank (s.drop site.length)

end Stage

namespace Canonical

/-- The stages that simplify an answer. -/
def cosmeticStages : List Stage :=
  [.always Rule.style, .always Rule.sizing, .escape Rule.spacing,
   .wrapper Rule.annotationNames Rule.annotation, .wrapper Rule.uprightNames Rule.upright,
   .always Rule.bar, .escape Rule.escapedBrace]

/-- The stages that leave words and signs only. -/
def wordStages : List Stage :=
  [.wording Rule.functionName, .always Rule.sign, .wording Rule.pi, .wording Rule.e]

/-- The stages of the passes. -/
def passStages : List Stage :=
  [.strictPass .fraction, .strictPass .root, .strictPass .logBase, .functionPower]

/-- All stages before the bars pair. -/
def stages : List Stage :=
  cosmeticStages ++ (passStages ++ wordStages)

end Canonical

/-- The stages make `t` of `s` one after the other. -/
def Chain (strict : Bool) : List Stage → Text → Text → Prop
  | [], s, t => s = t
  | stage :: stages, s, t => ∃ u, Rewrites strict stage none s u ∧ Chain strict stages u t

theorem Chain.unique {strict : Bool} : ∀ {stages : List Stage} {s t t' : Text},
    Chain strict stages s t → Chain strict stages s t' → t = t'
  | [], _, _, _, rfl, h => h
  | _ :: _, _, _, _, ⟨_, hu, ht⟩, ⟨_, hu', ht'⟩ => by
    obtain rfl := hu.unique hu'
    exact ht.unique ht'

theorem Chain.append {strict : Bool} : ∀ {first second : List Stage} {s t : Text},
    Chain strict (first ++ second) s t ↔
      ∃ u, Chain strict first s u ∧ Chain strict second u t
  | [], second, s, t => by simp [Chain]
  | stage :: first, second, s, t => by
    simp only [List.cons_append, Chain, @Chain.append _ first]
    constructor
    · rintro ⟨u, hu, v, hv, ht⟩
      exact ⟨v, ⟨u, hu, hv⟩, ht⟩
    · rintro ⟨v, ⟨u, hu, hv⟩, ht⟩
      exact ⟨u, hu, v, hv, ht⟩

namespace Canonical

theorem simplified_eq_of_chain {s t : Text} (h : Chain true cosmeticStages (unwrapped s) t) :
    simplified s = t := by
  obtain ⟨s₁, h₁, s₂, h₂, s₃, h₃, s₄, h₄, s₅, h₅, s₆, h₆, s₇, h₇, rfl⟩ := h
  unfold simplified substitute
  rw [substituteFrom_eq_of_rewrites h₁, substituteFrom_eq_of_rewrites h₂,
    substituteFrom_eq_of_rewrites h₃, substituteFrom_eq_of_rewrites h₄,
    substituteFrom_eq_of_rewrites h₅, substituteFrom_eq_of_rewrites h₆,
    substituteFrom_eq_of_rewrites h₇]

theorem chain_simplified (s : Text) : Chain false cosmeticStages (unwrapped s) (simplified s) :=
  ⟨_, rewrites_substituteFrom _ _, _, rewrites_substituteFrom _ _, _, rewrites_substituteFrom _ _,
    _, rewrites_substituteFrom _ _, _, rewrites_substituteFrom _ _, _, rewrites_substituteFrom _ _,
    _, rewrites_substituteFrom _ _, rfl⟩

/-- The text that a pass leaves. -/
theorem run_eq_of_rewrites {p : Pass} {ended : Char → Text → Bool} {s t : Text}
    (h : Rewrites true (.pass p ended) none s t) : (p.run s).1 = t := by
  unfold Pass.run
  rw [Pass.runFrom_eq_of_rewrites h [] rfl]
  rfl

theorem rewrites_run (p : Pass) (ended : Char → Text → Bool) (s : Text) :
    Rewrites false (.pass p ended) none s (p.run s).1 := by
  obtain ⟨t, ht, hr⟩ := p.rewrites_runFrom ended [] s
  unfold Pass.run
  rw [ht]
  exact hr

theorem afterPasses_eq (s : Text) : (afterPasses passes s).1 =
    (Pass.functionPower.run (Pass.logBase.run (Pass.root.run (Pass.fraction.run s).1).1).1).1 :=
  rfl

theorem afterPasses_eq_of_chain {s t : Text} (h : Chain true passStages s t) :
    (afterPasses passes s).1 = t := by
  obtain ⟨s₁, h₁, s₂, h₂, s₃, h₃, s₄, h₄, rfl⟩ := h
  rw [afterPasses_eq, run_eq_of_rewrites h₁, run_eq_of_rewrites h₂, run_eq_of_rewrites h₃,
    run_eq_of_rewrites h₄]

theorem chain_afterPasses (s : Text) : Chain false passStages s (afterPasses passes s).1 := by
  rw [afterPasses_eq]
  exact ⟨_, rewrites_run _ _ _, _, rewrites_run _ _ _, _, rewrites_run _ _ _, _,
    rewrites_run _ _ _, rfl⟩

theorem plain_eq_of_chain {s t : Text} (h : Chain true wordStages s t) :
    plain s = expandBars t := by
  obtain ⟨s₁, h₁, s₂, h₂, s₃, h₃, s₄, h₄, rfl⟩ := h
  unfold plain rename substitute
  rw [substituteFrom_eq_of_rewrites h₁, substituteFrom_eq_of_rewrites h₂,
    substituteFrom_eq_of_rewrites h₃, substituteFrom_eq_of_rewrites h₄]

theorem exists_chain_plain (s : Text) : ∃ t, Chain false wordStages s t ∧ plain s = expandBars t :=
  ⟨_, ⟨_, rewrites_substituteFrom _ _, _, rewrites_substituteFrom _ _, _,
    rewrites_substituteFrom _ _, _, rewrites_substituteFrom _ _, rfl⟩, rfl⟩

end Canonical

/-- What strict runs make of an answer is its canonical form, but for the bars
and the blanks. -/
theorem canonical_eq_of_chain {s t : Text} (h : Chain true Canonical.stages (unwrapped s) t) :
    canonical s = collapse (expandBars t) := by
  obtain ⟨u, hu, h⟩ := Chain.append.mp h
  obtain ⟨v, hv, hw⟩ := Chain.append.mp h
  unfold canonical
  rw [Canonical.simplified_eq_of_chain hu, Canonical.afterPasses_eq_of_chain hv,
    Canonical.plain_eq_of_chain hw]

/-- The canonical form comes about in lenient runs over the simplified answer. -/
theorem exists_chain_of_canonical (s : Text) :
    ∃ u t, Chain false Canonical.passStages (Canonical.simplified s) u ∧
      Chain false Canonical.wordStages u t ∧ canonical s = collapse (expandBars t) := by
  obtain ⟨t, ht, hp⟩ := Canonical.exists_chain_plain
    (Canonical.afterPasses Canonical.passes (Canonical.simplified s)).1
  refine ⟨_, t, Canonical.chain_afterPasses _, ht, ?_⟩
  unfold canonical
  rw [hp]

end NumericAnswer
