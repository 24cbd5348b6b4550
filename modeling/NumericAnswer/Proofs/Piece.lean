/-
# What the stages do with the pieces of a frame

A piece of a frame is made of signs and letters that no stage looks at and of
commands. A stage keeps the commands that are not its own.

Key definition: `Stage.Ignores`.
Key theorems: `Stage.keeps_plain`, `Stage.Ignores.keeps`,
`Canonical.ignores_of_mem_cosmeticStages`.
-/
import NumericAnswer.Proofs.Locality

namespace NumericAnswer

section Pieces

variable {strict : Bool} {stage : Stage} {l n : Text}

theorem rewrites_plain_append (hl : stage.Local) {s t : Text} : ∀ {l : Text} {b : Option Char},
    (∀ c ∈ l, c ∉ triggers) → Rewrites strict stage (l.getLast?.or b) s t →
      Rewrites strict stage b (l ++ s) (l ++ t)
  | [], _, _, h => h
  | c :: l, b, hp, h => by
    refine .keep (hl.plain b _ (hp c (List.mem_cons_self ..))) ?_
    refine rewrites_plain_append hl (fun d hd => hp d (List.mem_cons_of_mem _ hd)) ?_
    cases l with
    | nil => exact h
    | cons d l =>
      obtain ⟨x, hx⟩ : ∃ x, (d :: l).getLast? = some x := ⟨_, List.getLast?_eq_some_getLast (by simp)⟩
      rw [List.getLast?_cons_cons, hx] at h
      rw [hx]
      exact h

/-- The piece is not empty and does not end in a letter or digit. -/
def EndsApart (l : Text) : Prop :=
  ∃ c, l.getLast? = some c ∧ isAlphanumeric c = false

/-- A piece without commands and glyphs stays. -/
theorem Stage.keeps_plain (hl : stage.Local) (hp : ∀ c ∈ l, c ∉ triggers) (he : EndsApart l) :
    stage.Keeps l := by
  intro b s t h
  obtain ⟨c, hc, ha⟩ := he
  refine rewrites_plain_append hl hp (h _ ?_)
  rw [hc]
  simpa [Apart] using ha

/-- As the last one a piece may also end in a letter or digit. -/
theorem Stage.makesLast_plain (hl : stage.Local) (hp : ∀ c ∈ l, c ∉ triggers) :
    stage.MakesLast l l := by
  intro b _
  have hkeeps : Rewrites true stage b (l ++ []) (l ++ []) := rewrites_plain_append hl hp (.nil _)
  rwa [List.append_nil] at hkeeps

/-- The stage finds nothing at the command of this name before the character. -/
def Stage.Ignores (stage : Stage) (n : Text) (c : Char) : Prop :=
  ∀ b s, stage b '\\' (n ++ c :: s) = .nothing

/-- A command that the stage ignores stays. -/
theorem Stage.Ignores.keeps {c : Char} (hi : stage.Ignores n c) (hl : stage.Local)
    (hn : ∀ c ∈ n, c ∉ triggers) (hk : stage.Keeps (c :: l)) :
    stage.Keeps ('\\' :: (n ++ c :: l)) := by
  intro b s t h
  have hi := hi b (l ++ s)
  have happ : ∀ u, ('\\' :: (n ++ c :: l)) ++ u = '\\' :: (n ++ (c :: l ++ u)) := by simp
  rw [happ, happ]
  exact .keep hi (rewrites_plain_append hl hn (hk _ _ _ h))

end Pieces

/-! ### Commands of other stages -/

theorem isAsciiLetter_notMem_triggers {c : Char} (h : isAsciiLetter c = true) : c ∉ triggers := by
  have hall : ∀ c ∈ triggers, isAsciiLetter c = false := forall_mem_of_all (by decide)
  intro hc
  rw [hall c hc] at h
  cases h

/-- The text consists of letters, at least one. -/
def IsName (n : Text) : Prop :=
  n ≠ [] ∧ ∀ c ∈ n, isAsciiLetter c = true

instance (n : Text) : Decidable (IsName n) :=
  decidable_of_iff ((!n.isEmpty && n.all isAsciiLetter) = true) (by simp [IsName])

section Ignores

variable {n s : Text} {c : Char}

theorem leadingLetters_name_append (hn : IsName n) (hc : isAsciiLetter c = false) (s : Text) :
    leadingLetters (n ++ c :: s) = n := by
  unfold leadingLetters
  rw [List.takeWhile_append_of_pos hn.2]
  simp [hc]

theorem Rule.command_name (hn : IsName n) (hc : isAsciiLetter c = false) {names : List Text}
    {build : Nat → Text → Option (Text × Nat)} (h : n ∉ names) :
    command names build '\\' (n ++ c :: s) = none := by
  simp [command, leadingLetters_name_append hn hc, h]

theorem Stage.ignores_always (hn : IsName n) (hc : isAsciiLetter c = false) {names : List Text}
    {build : Nat → Text → Option (Text × Nat)} (h : n ∉ names) :
    (always (Rule.command names build)).Ignores n c := by
  intro b s
  simp [always, substitution, Rule.command_name hn hc h]

theorem Stage.ignores_wrapper (hn : IsName n) (hc : isAsciiLetter c = false) {names : List Text}
    {build : Nat → Text → Option (Text × Nat)} (h : n ∉ names) :
    (wrapper names (Rule.command names build)).Ignores n c := by
  intro b s
  simp [wrapper, substitution, Rule.command_name hn hc h, leadingLetters_name_append hn hc, h]

/-- A name begins with a letter. -/
theorem IsName.exists_head (hn : IsName n) (s : Text) :
    ∃ d, (n ++ s).head? = some d ∧ isAsciiLetter d = true := by
  obtain ⟨d, t, rfl⟩ := List.exists_cons_of_ne_nil hn.1
  exact ⟨d, rfl, hn.2 d (List.mem_cons_self ..)⟩

/-- Before a letter the only spacing commands are those with a name. -/
theorem Rule.spacing_of_head {d : Char} (hd : s.head? = some d) (hl : isAsciiLetter d = true) :
    Rule.spacing '\\' s =
      command ["quad".toList, "qquad".toList] (fun length _ => some ([' '], length)) '\\' s := by
  have hs : Rule.spacingSigns.contains d = false := by
    have : ∀ d ∈ Rule.spacingSigns, isAsciiLetter d = false := forall_mem_of_all (by decide)
    by_contra hm
    rw [this d (by simpa using hm)] at hl
    cases hl
  unfold Rule.spacing
  rw [hd, Option.any_some, hs]
  rfl

theorem Rule.spacing_name (hn : IsName n) (hc : isAsciiLetter c = false)
    (h : n ∉ ["quad".toList, "qquad".toList]) : Rule.spacing '\\' (n ++ c :: s) = none := by
  obtain ⟨d, hd, hl⟩ := hn.exists_head (c :: s)
  rw [Rule.spacing_of_head hd hl, Rule.command_name hn hc h]

theorem Stage.ignores_spacing (hn : IsName n) (hc : isAsciiLetter c = false)
    (h : n ∉ ["quad".toList, "qquad".toList]) : (escape Rule.spacing).Ignores n c := by
  intro b s
  simp [escape, substitution, Rule.spacing_name hn hc h]

theorem Stage.ignores_escapedBrace (hn : IsName n) : (escape Rule.escapedBrace).Ignores n c := by
  intro b s
  obtain ⟨d, hd, hl⟩ := hn.exists_head (c :: s)
  have ho : d ≠ '\x7b' := by rintro rfl; exact absurd hl (by decide)
  have hc : d ≠ '\x7d' := by rintro rfl; exact absurd hl (by decide)
  have hr : Rule.escapedBrace '\\' (n ++ c :: s) = none := by
    unfold Rule.escapedBrace
    simp [hd, ho, hc]
  simp [escape, substitution, hr]

/-- The names of the commands that only decorate. -/
def cosmeticNames : List Text :=
  Rule.styleNames ++ Rule.sizingNames ++ ["quad".toList, "qquad".toList] ++ Rule.annotationNames ++
    Rule.uprightNames ++ Rule.barNames

theorem Canonical.ignores_of_mem_cosmeticStages (hn : IsName n) (hc : isAsciiLetter c = false)
    (h : n ∉ cosmeticNames) : ∀ stage ∈ cosmeticStages, stage.Ignores n c := by
  simp only [cosmeticNames, List.mem_append, not_or] at h
  simp only [cosmeticStages, List.forall_mem_cons]
  obtain ⟨⟨⟨⟨⟨h₁, h₂⟩, h₃⟩, h₄⟩, h₅⟩, h₆⟩ := h
  exact ⟨Stage.ignores_always hn hc h₁, Stage.ignores_always hn hc h₂,
    Stage.ignores_spacing hn hc h₃, Stage.ignores_wrapper hn hc h₄, Stage.ignores_wrapper hn hc h₅,
    Stage.ignores_always hn hc h₆, Stage.ignores_escapedBrace hn, by simp⟩

theorem Stage.ignores_strictPass (hn : IsName n) (hc : isAsciiLetter c = false) {p : Pass}
    {names : List Text} {build : Text → Except Refusal (Text × Text)}
    (hp : ∀ c s, p.site? c s = if c = '\\' && names.contains (leadingLetters s) then
      some (siteAt s (leadingLetters s).length build) else none) (h : n ∉ names) :
    (strictPass p).Ignores n c := by
  intro b s
  simp [strictPass, pass, hp, leadingLetters_name_append hn hc, h]

theorem Stage.ignores_fraction (hn : IsName n) (hc : isAsciiLetter c = false)
    (h : n ∉ fractionCommands) : (strictPass .fraction).Ignores n c :=
  ignores_strictPass hn hc (fun _ _ => rfl) h

theorem Stage.ignores_root (hn : IsName n) (hc : isAsciiLetter c = false)
    (h : n ≠ "sqrt".toList) : (strictPass .root).Ignores n c :=
  ignores_strictPass hn hc site_root (by simpa using h)

theorem markLength?_cons {mark : Char} (hb : isBlank c = false) (hm : c ≠ mark) (s : Text) :
    markLength? mark (c :: s) = none := by
  simp [markLength?, dropBlanks_cons_of_not_isBlank hb, hm]

theorem Stage.logBase_eq_nothing (hn : IsName n) (hc : isAsciiLetter c = false)
    (hm : markLength? '_' (c :: s) = none) (b : Option Char) :
    strictPass .logBase b '\\' (n ++ c :: s) = .nothing := by
  simp [strictPass, pass, Pass.logBase, logBaseSite?, leadingLetters_name_append hn hc, hm]

theorem Stage.functionPower_eq_nothing (hn : IsName n) (hc : isAsciiLetter c = false)
    (hm : markLength? '^' (c :: s) = none) (b : Option Char) :
    functionPower b '\\' (n ++ c :: s) = .nothing := by
  have hs : functionPowerSite? '\\' (n ++ c :: s) = none := by
    simp [functionPowerSite?, leadingLetters_name_append hn hc, hm]
  simp [functionPower, pass, Pass.functionPower, hs]

theorem Stage.ignores_logBase (hn : IsName n) (hc : isAsciiLetter c = false)
    (hb : isBlank c = false) (hm : c ≠ '_') : (strictPass .logBase).Ignores n c :=
  fun b s => logBase_eq_nothing hn hc (markLength?_cons hb hm s) b

theorem Stage.ignores_functionPower (hn : IsName n) (hc : isAsciiLetter c = false)
    (hb : isBlank c = false) (hm : c ≠ '^') : functionPower.Ignores n c :=
  fun b s => functionPower_eq_nothing hn hc (markLength?_cons hb hm s) b

theorem Stage.ignores_functionName (hn : IsName n) (hc : isAsciiLetter c = false)
    (h : UnaryFunction.ofCommand? n = none) : (wording Rule.functionName).Ignores n c := by
  intro b s
  simp [wording, substitution, Rule.apart, Rule.functionName, leadingLetters_name_append hn hc, h]

end Ignores

/-! ### Commands that become words and signs -/

theorem UnaryFunction.isName (f : UnaryFunction) : IsName f.name.toList := by
  cases f <;> decide

theorem UnaryFunction.notMem_triggers (f : UnaryFunction) : ∀ c ∈ f.name.toList, c ∉ triggers := by
  cases f <;> exact forall_mem_of_all (by decide)

theorem UnaryFunction.ofCommand?_name {f : UnaryFunction} (h : f ∈ commands) :
    ofCommand? f.name.toList = some f := by
  have : ∀ f ∈ commands, ofCommand? f.name.toList = some f := by decide
  exact this f h

theorem padded_of_apart {b : Option Char} {word : Text} {c : Char} (hb : Apart b)
    (hc : isAlphanumeric c = false) : padded b (some c) word = word := by
  have hb : b.any isAlphanumeric = false := hb
  simp [padded, hb, hc]

/-- The stages before the powers of functions find nothing at the command of a function. -/
theorem Stage.eq_nothing_of_early {f : UnaryFunction} (hf : f ∈ UnaryFunction.commands) {c : Char}
    (hc : isAsciiLetter c = false) {s : Text} (hm : markLength? '_' (c :: s) = none) :
    ∀ stage ∈ Canonical.cosmeticStages ++ [strictPass .fraction, strictPass .root, strictPass .logBase],
      ∀ b, stage b '\\' (f.name.toList ++ c :: s) = .nothing := by
  have hall : ∀ f ∈ UnaryFunction.commands, f.name.toList ∉ cosmeticNames ∧
      f.name.toList ∉ fractionCommands ∧ f.name.toList ≠ "sqrt".toList := by decide
  obtain ⟨hcosmetic, hfraction, hroot⟩ := hall f hf
  simp only [List.forall_mem_append, List.forall_mem_cons]
  exact ⟨fun stage hs b => Canonical.ignores_of_mem_cosmeticStages f.isName hc hcosmetic stage hs b s,
    fun b => ignores_fraction f.isName hc hfraction b s,
    fun b => ignores_root f.isName hc hroot b s, logBase_eq_nothing f.isName hc hm, by simp⟩

/-- The command of a function before a character that is no letter. -/
theorem Stage.step_functionName {f : UnaryFunction} (hf : f ∈ UnaryFunction.commands) {c : Char}
    (hc : isAsciiLetter c = false) (b : Option Char) (s : Text) :
    wording Rule.functionName b '\\' (f.name.toList ++ c :: s) =
      .step (padded b (some c) f.name.toList) ('\\' :: f.name.toList).getLast? (c :: s) := by
  have hl := leadingLetters_name_append f.isName hc s
  simp only [wording, substitution, Rule.apart, Rule.functionName, if_true, hl,
    UnaryFunction.ofCommand?_name hf, Option.map_some, List.drop_left, List.take_left,
    List.head?_cons]

/-- The command of a function becomes its name. -/
theorem Stage.makes_functionName {f : UnaryFunction} (hf : f ∈ UnaryFunction.commands) {c : Char}
    (hc : isAlphanumeric c = false) {l l' : Text}
    (hk : ∀ s t : Text, (∀ b, Apart b → Rewrites true (wording Rule.functionName) b s t) →
      Rewrites true (wording Rule.functionName) ('\\' :: f.name.toList).getLast? (c :: l ++ s)
        (l' ++ t)) :
    (wording Rule.functionName).Makes ('\\' :: (f.name.toList ++ c :: l)) (f.name.toList ++ l') := by
  intro b s t hb h
  have hs := step_functionName hf (isAsciiLetter_of_isAlphanumeric hc) b (l ++ s)
  rw [padded_of_apart hb hc] at hs
  have happ : ('\\' :: (f.name.toList ++ c :: l)) ++ s =
      '\\' :: (f.name.toList ++ c :: (l ++ s)) := by simp
  rw [happ, List.append_assoc]
  exact .move hs (hk s t h)

/-- The command for a product becomes its sign. -/
theorem Stage.step_times {c : Char} (hc : isAsciiLetter c = false) (b : Option Char) (s : Text) :
    always Rule.sign b '\\' ("times".toList ++ c :: s) = .step ['*'] (some 's') (c :: s) := by
  have hn : IsName "times".toList := by decide
  have hr : Rule.sign '\\' ("times".toList ++ c :: s) = some (['*'], 5) := by
    unfold Rule.sign
    simp only [leadingLetters_name_append hn hc]
    rfl
  simp only [always, substitution, hr]
  rfl

end NumericAnswer
