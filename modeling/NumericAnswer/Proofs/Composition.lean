/-
# Compositions

A composition is a notation that makes one answer of two, or of the first one.
The stages before the bars rewrite its pieces and the answers apart, so what
they make of a composed text is composed of what they make of the answers.

Key definitions: `Composition`, `Composition.written`, `Composition.tree`,
`Composition.plain`.
Key theorems: `Composition.reframes_cosmetic`, `Composition.reframes_late`.
-/
import NumericAnswer.Expr.Basic
import NumericAnswer.Proofs.Form

namespace NumericAnswer

/-! ### Arguments in braces -/

theorem readGroup_of_walk {b : Bracket} {s : Text} (h : walk b 0 s = some 0) (rest : Text) :
    readGroup (b.opening :: (s ++ b.closing :: rest)) = .ok (s, rest) := by
  have ho : Bracket.ofOpening? b.opening = some b := Bracket.ofOpening?_eq_some_iff.mpr rfl
  simp only [readGroup, ho, spanGroup_of_walk h]

theorem macroArgument_braces {s : Text} (h : walk .curly 0 s = some 0) (rest : Text) :
    macroArgument ('\x7b' :: (s ++ '\x7d' :: rest)) = .ok (s, rest) := by
  have hd : dropBlanks ('\x7b' :: (s ++ '\x7d' :: rest)) = '\x7b' :: (s ++ '\x7d' :: rest) :=
    dropBlanks_cons_of_not_isBlank (by decide) _
  unfold macroArgument
  rw [hd]
  exact readGroup_of_walk (b := .curly) h rest

/-- A function also takes a group in other brackets, and one behind blanks. -/
theorem functionArgument_group {b : Bracket} {gap s : Text} (hgap : isAllBlank gap = true)
    (h : walk b 0 s = some 0) (rest : Text) :
    functionArgument (gap ++ b.opening :: (s ++ b.closing :: rest)) = .ok (s, rest) := by
  have ho : Bracket.ofOpening? b.opening = some b := Bracket.ofOpening?_eq_some_iff.mpr rfl
  have hd : dropBlanks (gap ++ b.opening :: (s ++ b.closing :: rest)) =
      b.opening :: (s ++ b.closing :: rest) := by
    rw [dropBlanks_of_isAllBlank hgap, dropBlanks_cons_of_not_isBlank (by cases b <;> decide)]
  unfold functionArgument
  simp only [hd, List.head?_cons, Option.bind_some, ho, Option.isSome_some, if_true]
  exact readGroup_of_walk h rest

theorem functionArgument_braces {s : Text} (h : walk .curly 0 s = some 0) (rest : Text) :
    functionArgument ('\x7b' :: (s ++ '\x7d' :: rest)) = .ok (s, rest) :=
  @functionArgument_group .curly [] _ rfl h rest

section Builds

variable {x y : Text} (hx : walk .curly 0 x = some 0) (hy : walk .curly 0 y = some 0)

include hx hy in
theorem buildFraction_braces (rest : Text) :
    buildFraction ('\x7b' :: (x ++ '\x7d' :: '\x7b' :: (y ++ '\x7d' :: rest))) =
      .ok ("frac".toList ++ inBraces x ++ inBraces y, rest) := by
  simp only [buildFraction, macroArgument_braces hx, macroArgument_braces hy, bind, Except.bind]

include hx in
theorem buildRoot_braces (rest : Text) :
    buildRoot ('\x7b' :: (x ++ '\x7d' :: rest)) = .ok ("sqrt".toList ++ inBraces x, rest) := by
  have hd : dropBlanks ('\x7b' :: (x ++ '\x7d' :: rest)) = '\x7b' :: (x ++ '\x7d' :: rest) :=
    dropBlanks_cons_of_not_isBlank (by decide) _
  unfold buildRoot
  rw [hd, if_neg (by simp)]
  simp only [macroArgument_braces hx, bind, Except.bind]

include hy in
theorem buildRoot_squareBrackets (hx : walk .square 0 x = some 0) (rest : Text) :
    buildRoot ('[' :: (x ++ ']' :: '\x7b' :: (y ++ '\x7d' :: rest))) =
      .ok ("nthroot".toList ++ inSquareBrackets x ++ inBraces y, rest) := by
  have hd : ∀ t, dropBlanks ('[' :: t) = '[' :: t :=
    fun t => dropBlanks_cons_of_not_isBlank (by decide) t
  have hg := readGroup_of_walk (b := .square) hx ('\x7b' :: (y ++ '\x7d' :: rest))
  simp only [Bracket.opening, Bracket.closing] at hg
  unfold buildRoot
  rw [hd, List.head?_cons, if_pos rfl, hg]
  simp only [macroArgument_braces hy, bind, Except.bind]

include hx in
theorem buildLogBase_braces (rest : Text) :
    buildLogBase ('\x7b' :: (x ++ '\x7d' :: rest)) =
      .ok ("logBase".toList ++ inSquareBrackets x, rest) := by
  simp only [buildLogBase, macroArgument_braces hx, bind, Except.bind]

include hx in
theorem buildFunctionPower_eq (f : UnaryFunction) (hm : (strip x).head? ≠ some '-')
    {s argument rest : Text} (ha : functionArgument s = .ok (argument, rest)) :
    buildFunctionPower f ('\x7b' :: (x ++ '\x7d' :: s)) =
      .ok ('(' :: f.name.toList ++ inBraces argument ++ ')' :: '^' :: inBraces x, rest) := by
  simp only [buildFunctionPower, macroArgument_braces hx, ha, bind, Except.bind, if_neg hm]

include hx hy in
theorem buildFunctionPower_braces (f : UnaryFunction) (hm : (strip x).head? ≠ some '-')
    (rest : Text) :
    buildFunctionPower f ('\x7b' :: (x ++ '\x7d' :: '\x7b' :: (y ++ '\x7d' :: rest))) =
      .ok ('(' :: f.name.toList ++ inBraces y ++ ')' :: '^' :: inBraces x, rest) :=
  buildFunctionPower_eq hx f hm (functionArgument_braces hy rest)

end Builds

/-! ### Steps of the passes -/

theorem apart_inBraces (s t : Text) : (s ++ inBraces t).getLast?.any isAlphanumeric = false := by
  have happ : s ++ inBraces t = (s ++ '\x7b' :: t) ++ ['\x7d'] := by simp [inBraces]
  rw [happ, List.getLast?_concat]
  decide +kernel

theorem apart_inSquareBrackets (s t : Text) :
    (s ++ inSquareBrackets t).getLast?.any isAlphanumeric = false := by
  have happ : s ++ inSquareBrackets t = (s ++ '[' :: t) ++ [']'] := by simp [inSquareBrackets]
  rw [happ, List.getLast?_concat]
  decide +kernel

theorem padded_eq_self {before after : Option Char} {word : Text}
    (hb : before.any isAlphanumeric = false ∨ word.head?.any isAlphanumeric = false)
    (ha : word.getLast?.any isAlphanumeric = false) : padded before after word = word := by
  have hb : (before.any isAlphanumeric && word.head?.any isAlphanumeric) = false := by
    rcases hb with hb | hb <;> simp [hb]
  unfold padded
  simp [hb, ha]

/-- A command whose arguments are read is replaced and read again. -/
theorem Stage.step_strictPass {n s replacement rest : Text} {c : Char} (hn : IsName n)
    (hc : isAsciiLetter c = false) {p : Pass} {names : List Text}
    {build : Text → Except Refusal (Text × Text)}
    (hp : ∀ c s, p.site? c s = if c = '\\' && names.contains (leadingLetters s) then
      some (siteAt s (leadingLetters s).length build) else none) (h : n ∈ names)
    (hb : build (c :: s) = .ok (replacement, rest))
    (hr : replacement.getLast?.any isAlphanumeric = false) {b : Option Char} (hbefore : Apart b) :
    strictPass p b '\\' (n ++ c :: s) = .step [] b (replacement ++ rest) := by
  have hpad : padded b rest.head? replacement = replacement := padded_eq_self (.inl hbefore) hr
  simp [strictPass, pass, hp, leadingLetters_name_append hn hc, h, siteAt, hb, hpad]

theorem Stage.step_logBase {s replacement rest : Text}
    (hb : buildLogBase s = .ok (replacement, rest))
    (hr : replacement.getLast?.any isAlphanumeric = false) {b : Option Char} (hbefore : Apart b) :
    strictPass .logBase b '\\' ("log".toList ++ '_' :: s) = .step [] b (replacement ++ rest) := by
  have hpad : padded b rest.head? replacement = replacement := padded_eq_self (.inl hbefore) hr
  have hl := leadingLetters_name_append (c := '_') (n := "log".toList) (by decide) (by decide) s
  have hm : markLength? '_' ('_' :: s) = some 1 := by
    have hd := dropBlanks_cons_of_not_isBlank (c := '_') (by decide) s
    simp [markLength?, hd, show isBlank '_' = false by decide]
  have hdrop : ("log".toList ++ '_' :: s).drop ("log".toList.length + 1) = s := by simp
  have hsite : logBaseSite? '\\' ("log".toList ++ '_' :: s) =
      some (siteAt ("log".toList ++ '_' :: s) ("log".toList.length + 1) buildLogBase) := by
    unfold logBaseSite?
    simp only [hl, List.drop_left, hm]
    rfl
  unfold strictPass pass
  simp only [Pass.logBase, hsite, siteAt, hdrop, hb, hpad]


/-! ### Compositions -/

/-- A notation that makes one answer of two, or of the first one. -/
inductive Composition where
  | group (b : Bracket)
  | fraction
  | root
  | logBase
  | log
  | call (f : UnaryFunction)
  | power
  | abs
  | neg
  | product
  deriving DecidableEq, Repr

namespace Composition

/-- How the composition is written. -/
def written : Composition → Form
  | group b => .one [b.opening] [b.closing]
  | fraction => .two "\\frac\x7b".toList "\x7d\x7b".toList "\x7d".toList
  | root => .two "\\sqrt[".toList "]\x7b".toList "\x7d".toList
  | logBase => .two "\\log_\x7b".toList "\x7d\x7b".toList "\x7d".toList
  | log => .two "\\log(".toList ", ".toList ")".toList
  | call f => .one ('\\' :: (f.name.toList ++ ['\x7b'])) "\x7d".toList
  | power => .two "\x7b".toList "\x7d^\x7b".toList "\x7d".toList
  | abs => .one "|\x7b".toList "\x7d|".toList
  | neg => .one "-\x7b".toList "\x7d".toList
  | product => .two "\x7b".toList "\x7d\\times\x7b".toList "\x7d".toList

/-- The expression that it stands for. -/
def tree : Composition → Expr → Expr → Expr
  | group _, x, _ => x
  | fraction, x, y => x.fraction y
  | root, x, y => x.call₂ .nthroot y
  | logBase, x, y => x.call₂ .logBase y
  | log, x, y => y.call₂ .logBase x
  | call f, x, _ => x.call f
  | power, x, y => x.power y
  | abs, x, _ => x.abs
  | neg, x, _ => x.neg
  | product, x, y => .binary .multiply x y

/-- What the stages make of it. -/
def plain : Composition → Form
  | fraction => .two "frac\x7b".toList "\x7d\x7b".toList "\x7d".toList
  | root => .two "nthroot[".toList "]\x7b".toList "\x7d".toList
  | logBase => .two "logBase[".toList "]\x7b".toList "\x7d".toList
  | log => .two "log(".toList ", ".toList ")".toList
  | call f => .one (f.name.toList ++ ['\x7b']) "\x7d".toList
  | product => .two "\x7b".toList "\x7d*\x7b".toList "\x7d".toList
  | c => c.written

/-- The commands that it uses, and what follows each. -/
def commands : Composition → List (Text × Char)
  | fraction => [("frac".toList, '\x7b')]
  | root => [("sqrt".toList, '[')]
  | logBase => [("log".toList, '_')]
  | log => [("log".toList, '(')]
  | call f => [(f.name.toList, '\x7b')]
  | product => [("times".toList, '\x7b')]
  | _ => []


theorem isName_frac : IsName "frac".toList := by decide

theorem isName_sqrt : IsName "sqrt".toList := by decide

theorem isName_log : IsName "log".toList := by decide

theorem isName_times : IsName "times".toList := by decide

theorem closer_brace : Closer "\x7d".toList :=
  closer_cons (by decide) _

theorem uses_written (c : Composition) : c.written.Uses c.commands := by
  cases c with
  | group b =>
    cases b <;>
      exact .one (closer_cons (by decide) _) (.plain (by decide +kernel)) (by decide +kernel)
  | fraction =>
    exact .two (closer_cons (by decide) _) closer_brace
      (.command (l := []) isName_frac (List.mem_singleton_self _) (.plain (by decide +kernel)))
      (.plain (by decide +kernel)) (by decide +kernel)
  | root =>
    exact .two (closer_cons (by decide) _) closer_brace
      (.command (l := []) isName_sqrt (List.mem_singleton_self _) (.plain (by decide +kernel)))
      (.plain (by decide +kernel)) (by decide +kernel)
  | logBase =>
    exact .two (closer_cons (by decide) _) closer_brace
      (.command (l := ['\x7b']) isName_log (List.mem_singleton_self _) (.plain (by decide +kernel)))
      (.plain (by decide +kernel)) (by decide +kernel)
  | log =>
    exact .two (closer_cons (by decide) _) (closer_cons (by decide) _)
      (.command (l := []) isName_log (List.mem_singleton_self _) (.plain (by decide +kernel)))
      (.plain (by decide +kernel)) (by decide +kernel)
  | call f =>
    exact .one closer_brace (.command (l := []) f.isName (List.mem_singleton_self _)
      (.plain (by decide +kernel))) (by decide +kernel)
  | power =>
    exact .two (closer_cons (by decide) _) closer_brace (.plain (by decide +kernel))
      (.plain (by decide +kernel)) (by decide +kernel)
  | abs => exact .one (closer_cons (by decide) _) (.plain (by decide +kernel)) (by decide +kernel)
  | neg => exact .one closer_brace (.plain (by decide +kernel)) (by decide +kernel)
  | product =>
    exact .two (closer_cons (by decide) _) closer_brace (.plain (by decide +kernel))
      (.after (p := ['\x7d']) (List.forall_mem_singleton.mpr (by decide)) (.command (l := []) isName_times
        (List.mem_singleton_self _) (.plain (by decide +kernel)))) (by decide +kernel)

theorem uses_plain (c : Composition) : c.plain.Uses [] := by
  cases c with
  | fraction | root | logBase | log | product =>
    exact .two (closer_cons (by decide) _) (closer_cons (by decide) _) (.plain (by decide +kernel))
      (.plain (by decide +kernel)) (by decide +kernel)
  | call f =>
    refine .one closer_brace (.plain ?_) (by decide +kernel)
    cases f <;> decide +kernel
  | group b => exact uses_written (.group b)
  | power => exact uses_written .power
  | abs => exact uses_written .abs
  | neg => exact uses_written .neg

theorem ignores_cosmetic (c : Composition) : ∀ stage ∈ Canonical.cosmeticStages,
    ∀ command ∈ c.commands, stage.Ignores command.1 command.2 := by
  have hall : ∀ command ∈ c.commands, IsName command.1 ∧ isAsciiLetter command.2 = false ∧
      command.1 ∉ cosmeticNames := by
    cases c with
    | call f => cases f <;> decide
    | group b => exact fun _ hm => absurd hm List.not_mem_nil
    | _ => decide
  intro stage hs command hm
  obtain ⟨hn, hc, h⟩ := hall command hm
  exact Canonical.ignores_of_mem_cosmeticStages hn hc h stage hs

/-- The cosmetic stages keep the composition. -/
theorem reframes_cosmetic (P : Text → Text → Prop) (c : Composition) :
    Reframes P Canonical.cosmeticStages c.written c.written :=
  .of_uses c.uses_written Canonical.local_of_mem_cosmeticStages c.ignores_cosmetic

theorem plain_keeps (c : Composition) {stage : Stage} (hl : stage.Local) :
    stage.KeepsForm c.plain :=
  c.uses_plain.keeps hl (by simp)

theorem reframes_fraction :
    Reframes BothCounted [.strictPass .fraction] fraction.written fraction.plain := by
  refine .of_step Stage.local_fraction (uses_plain .fraction).closed
    (plain_keeps _ Stage.local_fraction) ?_
  rintro x y _ ⟨hx, hy⟩
    ⟨bl, bl₁, _, hbl, hbl₁, ⟨bl₂, bl₃, _, hbl₂, hbl₃, ⟨bl₄, hbl₄, rfl⟩, rfl⟩, rfl⟩
  have hb := buildFraction_braces (hx.blanks hbl₁ hbl₂ .curly) (hy.blanks hbl₃ hbl₄ .curly) []
  refine ⟨bl, '\\', _, _, hbl, ?_,
    ⟨[], bl₁, _, rfl, hbl₁, ⟨bl₂, bl₃, _, hbl₂, hbl₃, ⟨bl₄, hbl₄, rfl⟩, rfl⟩, ?_⟩,
    fun b => Stage.step_strictPass isName_frac (by decide) (fun _ _ => rfl) (by decide) hb ?_⟩
  · simp [written, Form.two]
  · simp [plain, Form.two, inBraces]
  · exact apart_inBraces _ _

theorem reframes_squareRoot :
    Reframes BothCounted [.strictPass .root] (call .sqrt).written (call .sqrt).plain := by
  refine .of_step Stage.local_root (uses_plain (.call .sqrt)).closed
    (plain_keeps _ Stage.local_root) ?_
  rintro x y _ ⟨hx, hy⟩ ⟨bl, bl₁, _, hbl, hbl₁, ⟨bl₂, hbl₂, rfl⟩, rfl⟩
  have hb := buildRoot_braces (hx.blanks hbl₁ hbl₂ .curly) []
  refine ⟨bl, '\\', _, _, hbl, ?_, ⟨[], bl₁, _, rfl, hbl₁, ⟨bl₂, hbl₂, rfl⟩, ?_⟩,
    fun b => Stage.step_strictPass isName_sqrt (by decide) Stage.site_root (by decide) hb ?_⟩
  · simp [written, Form.one, UnaryFunction.name]
  · simp [plain, Form.one, inBraces, UnaryFunction.name]
  · exact apart_inBraces _ _

theorem reframes_root :
    Reframes BothCounted [.strictPass .root] root.written root.plain := by
  refine .of_step Stage.local_root (uses_plain .root).closed (plain_keeps _ Stage.local_root) ?_
  rintro x y _ ⟨hx, hy⟩
    ⟨bl, bl₁, _, hbl, hbl₁, ⟨bl₂, bl₃, _, hbl₂, hbl₃, ⟨bl₄, hbl₄, rfl⟩, rfl⟩, rfl⟩
  have hb := buildRoot_squareBrackets (hy.blanks hbl₃ hbl₄ .curly) (hx.blanks hbl₁ hbl₂ .square) []
  refine ⟨bl, '\\', _, _, hbl, ?_,
    ⟨[], bl₁, _, rfl, hbl₁, ⟨bl₂, bl₃, _, hbl₂, hbl₃, ⟨bl₄, hbl₄, rfl⟩, rfl⟩, ?_⟩,
    fun b => Stage.step_strictPass isName_sqrt (by decide) Stage.site_root (by decide) hb ?_⟩
  · simp [written, Form.two]
  · simp [plain, Form.two, inBraces, inSquareBrackets]
  · exact apart_inBraces _ _

theorem reframes_logBase :
    Reframes BothCounted [.strictPass .logBase] logBase.written logBase.plain := by
  refine .of_step Stage.local_logBase (uses_plain .logBase).closed
    (plain_keeps _ Stage.local_logBase) ?_
  rintro x y _ ⟨hx, hy⟩
    ⟨bl, bl₁, _, hbl, hbl₁, ⟨bl₂, bl₃, _, hbl₂, hbl₃, ⟨bl₄, hbl₄, rfl⟩, rfl⟩, rfl⟩
  have hb := buildLogBase_braces (hx.blanks hbl₁ hbl₂ .curly)
    ('\x7b' :: (bl₃ ++ (y ++ (bl₄ ++ ['\x7d']))))
  refine ⟨bl, '\\', _, _, hbl, ?_,
    ⟨[], bl₁, _, rfl, hbl₁, ⟨bl₂, bl₃, _, hbl₂, hbl₃, ⟨bl₄, hbl₄, rfl⟩, rfl⟩, ?_⟩,
    fun b => Stage.step_logBase hb ?_⟩
  · simp [written, Form.two]
  · simp [plain, Form.two, inSquareBrackets]
  · exact apart_inSquareBrackets _ _

theorem local_functionName : (Stage.wording Rule.functionName).Local :=
  Canonical.local_of_mem_wordStages _ (by simp [Canonical.wordStages])

theorem local_sign : (Stage.always Rule.sign).Local :=
  Canonical.local_of_mem_wordStages _ (by simp [Canonical.wordStages])

theorem keeps_of_plain {stage : Stage} (hl : stage.Local) {l : Text} (h : PlainPiece l) :
    stage.Keeps l :=
  Stage.keeps_plain hl h.1 h.2

/-- The command of a function, before a sign. -/
theorem makes_command {f : UnaryFunction} (hf : f ∈ UnaryFunction.commands) {c : Char}
    (hc : PlainPiece [c]) : (Stage.wording Rule.functionName).Makes
      ('\\' :: (f.name.toList ++ [c])) (f.name.toList ++ [c]) := by
  have hl := local_functionName
  refine @Stage.makes_functionName f hf c ?_ [] [c] fun s t h => ?_
  · obtain ⟨d, hd, ha⟩ := hc.2
    obtain rfl : c = d := by simpa using hd
    exact ha
  · exact keeps_of_plain hl hc _ s t h

theorem reframes_call (P : Text → Text → Prop) {f : UnaryFunction}
    (hf : f ∈ UnaryFunction.commands) : Reframes P [.wording Rule.functionName] (call f).written (call f).plain := by
  have hk : PlainPiece "\x7d".toList := by decide +kernel
  exact .of_makes local_functionName (uses_written (.call f)).closed
    (.cons ⟨makes_command hf (by decide +kernel), rfl⟩ .nil)
    (keeps_of_plain local_functionName hk).makes

theorem reframes_log (P : Text → Text → Prop) :
    Reframes P [.wording Rule.functionName] log.written log.plain := by
  have hk : PlainPiece ", ".toList ∧ PlainPiece ")".toList := by decide +kernel
  exact .of_makes local_functionName (uses_written .log).closed
    (.cons ⟨makes_command (f := .log) (by decide) (by decide +kernel), rfl⟩
      (.cons ⟨(keeps_of_plain local_functionName hk.1).makes, rfl⟩ .nil))
    (keeps_of_plain local_functionName hk.2).makes

theorem reframes_product (P : Text → Text → Prop) :
    Reframes P [.always Rule.sign] product.written product.plain := by
  have hl := local_sign
  have hbrace : (Stage.always Rule.sign).Keeps ['\x7b'] := keeps_of_plain hl (by decide +kernel)
  have hclosing : (Stage.always Rule.sign).Keeps ['\x7d'] := keeps_of_plain hl (by decide +kernel)
  refine .of_makes hl (uses_written .product).closed
    (.cons ⟨hbrace.makes, rfl⟩ (.cons ⟨fun b s t _ h => ?_, rfl⟩ .nil)) hclosing.makes
  show Rewrites true _ b ('\x7d' :: '\\' :: ("times".toList ++ '\x7b' :: s))
    ('\x7d' :: (['*'] ++ '\x7b' :: t))
  exact .keep (hl.plain b _ (by decide)) (.move (Stage.step_times (by decide) _ _) (hbrace _ s t h))

/-! #### All stages together -/

section Later

variable {P : Text → Text → Prop} {c : Composition} {stages : List Stage}

theorem reframes_written (hs : ∀ stage ∈ stages, stage ∈ Canonical.stages)
    (hi : ∀ stage ∈ stages, ∀ command ∈ c.commands, stage.Ignores command.1 command.2) :
    Reframes P stages c.written c.written :=
  .of_uses c.uses_written (fun stage h => Canonical.local_of_mem_stages stage (hs stage h)) hi

theorem reframes_plain (hs : ∀ stage ∈ stages, stage ∈ Canonical.stages) :
    Reframes P stages c.plain c.plain :=
  .of_plain c.uses_plain fun stage h => Canonical.local_of_mem_stages stage (hs stage h)

/-- One stage makes the composition plain; those before it keep it, and those
after it keep what it makes. -/
theorem reframes_at (before : List Stage) {after : List Stage} {stage : Stage}
    (hs : ∀ s ∈ before ++ stage :: after, s ∈ Canonical.stages)
    (hi : ∀ s ∈ before, ∀ command ∈ c.commands, s.Ignores command.1 command.2)
    {Q : Text → Text → Prop} (hQ : ∀ ⦃x x' y y' : Text⦄, P x y →
      Chain true before x x' → Chain true before y y' → Q x' y')
    (h : Reframes Q [stage] c.written c.plain) :
    Reframes P (before ++ stage :: after) c.written c.plain := by
  refine (reframes_written (fun s hm => hs s (List.mem_append_left _ hm)) hi).append hQ ?_
  refine h.append (Q := fun _ _ => True) (fun _ _ _ _ _ _ _ => trivial)
    (reframes_plain fun s hm => ?_)
  exact hs s (List.mem_append_right _ (List.mem_cons_of_mem _ hm))

end Later

theorem mem_stages_of_late {stage : Stage}
    (h : stage ∈ Canonical.passStages ++ Canonical.wordStages) : stage ∈ Canonical.stages :=
  List.mem_append_right _ h

theorem ignores_passStages {n : Text} {c : Char} (hn : IsName n) (hc : isAsciiLetter c = false)
    (hb : isBlank c = false) (hfraction : n ∉ fractionCommands) (hroot : n ≠ "sqrt".toList)
    (hbase : c ≠ '_') (hpower : c ≠ '^') :
    ∀ stage ∈ Canonical.passStages, stage.Ignores n c := by
  simp only [Canonical.passStages, List.forall_mem_cons]
  exact ⟨Stage.ignores_fraction hn hc hfraction, Stage.ignores_root hn hc hroot,
    Stage.ignores_logBase hn hc hb hbase, Stage.ignores_functionPower hn hc hb hpower, by simp⟩

/-- The passes and the stages of words and signs make the composition plain. -/
theorem reframes_late (c : Composition) :
    Reframes BothCounted (Canonical.passStages ++ Canonical.wordStages) c.written c.plain := by
  have hs := fun stage => @mem_stages_of_late stage
  have hQ : ∀ {before : List Stage} ⦃x x' y y' : Text⦄, BothCounted x y →
      Chain true before x x' → Chain true before y y' → True := fun _ _ _ => trivial
  cases c with
  | group b => exact reframes_plain (c := .group b) hs
  | power => exact reframes_plain (c := .power) hs
  | abs => exact reframes_plain (c := .abs) hs
  | neg => exact reframes_plain (c := .neg) hs
  | fraction =>
    exact reframes_at [] hs (by simp) (fun _ _ _ _ h hx hy => hx ▸ hy ▸ h) reframes_fraction
  | root =>
    refine reframes_at [.strictPass .fraction] hs ?_ (BothCounted.chain (by simp))
      reframes_root
    simpa [commands] using Stage.ignores_fraction isName_sqrt (by decide) (by decide)
  | logBase =>
    refine reframes_at [.strictPass .fraction, .strictPass .root] hs ?_
      (BothCounted.chain (by simp)) reframes_logBase
    simpa [commands] using ⟨Stage.ignores_fraction isName_log (by decide) (by decide),
      Stage.ignores_root isName_log (by decide) (by decide)⟩
  | log =>
    refine reframes_at Canonical.passStages hs ?_ hQ (reframes_log _)
    simpa [commands] using ignores_passStages (c := '(') isName_log (by decide) (by decide)
      (by decide) (by decide) (by decide) (by decide)
  | call f =>
    by_cases hf : f ∈ UnaryFunction.commands
    · refine reframes_at Canonical.passStages hs ?_ hQ (reframes_call _ hf)
      have hnames : ∀ f ∈ UnaryFunction.commands, f.name.toList ∉ fractionCommands ∧
          f.name.toList ≠ "sqrt".toList := by decide
      simpa [commands] using ignores_passStages (c := '\x7b') f.isName (by decide) (by decide)
        (hnames f hf).1 (hnames f hf).2 (by decide) (by decide)
    · obtain rfl : f = .sqrt := by
        cases f <;> first | rfl | exact absurd (by decide) hf
      refine reframes_at [.strictPass .fraction] hs ?_ (BothCounted.chain (by simp))
        reframes_squareRoot
      simpa [commands, UnaryFunction.name] using
        Stage.ignores_fraction isName_sqrt (by decide) (by decide)
  | product =>
    refine reframes_at (Canonical.passStages ++ [.wording Rule.functionName]) hs ?_ hQ
      (reframes_product _)
    have hpasses := ignores_passStages (c := '\x7b') isName_times (by decide) (by decide)
      (by decide) (by decide) (by decide) (by decide)
    have hname := Stage.ignores_functionName (c := '\x7b') isName_times (by decide) (by decide)
    intro stage hm command hc
    obtain rfl := List.mem_singleton.mp hc
    rcases List.mem_append.mp hm with hm | hm
    · exact hpasses stage hm
    · obtain rfl := List.mem_singleton.mp hm
      exact hname

end Composition

end NumericAnswer
