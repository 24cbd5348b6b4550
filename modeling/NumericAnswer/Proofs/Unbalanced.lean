/-
# Unbalanced answers

An answer whose brackets do not match has no value. Between the answer and its
canonical form no bracket appears or goes without its partner, so a type of
brackets with too many of one kind is always reported. Brackets that match in
number and still do not nest are reported too, unless a macro takes a group out
of its brackets and puts it into brackets of another type.

Key definitions: `Rule.takesNested`, `Canonical.KeepsBrackets`,
`Canonical.MovesNested`.
Key theorems: `Canonical.surplus_of_parseWithin`,
`Canonical.nested_of_parseWithin`, `Outcome.exists_failure_of_unbalanced`.
-/
import NumericAnswer.Proofs.Grouping
import NumericAnswer.Proofs.Stability

namespace NumericAnswer

/-! ### What rules take out of a text -/

/-- Whatever the rule matches in the text, after its first character, is well nested. -/
def Rule.takesNested (rule : Rule) : Text → Bool
  | [] => true
  | c :: s => (rule c s).all (fun found => decide (Nested (s.take found.2))) && rule.takesNested s

theorem Rule.takesNested_drop {rule : Rule} : ∀ {s : Text} (n : Nat), rule.takesNested s = true →
    rule.takesNested (s.drop n) = true
  | [], n, _ => by simp [takesNested]
  | _ :: _, 0, h => h
  | c :: s, n + 1, h => by
    rw [takesNested, Bool.and_eq_true] at h
    exact takesNested_drop n h.2

/-- The rule puts a well-nested text in the place of a well-nested one. -/
def Rule.KeepsNested (rule : Rule) : Prop :=
  ∀ ⦃c : Char⦄ ⦃s replacement : Text⦄ ⦃n : Nat⦄, rule c s = some (replacement, n) →
    Nested (s.take n) → NoBracket c ∧ Nested replacement

theorem FollowsBrackets.substituteFrom {σ : Type} {scan : σ → Text → Option σ}
    (hscan : FollowsBrackets scan) {rule : Rule} (hrule : rule.KeepsNested) (before : Option Char)
    (s : Text) : rule.takesNested s = true → ∀ x,
      scan x (substituteFrom (fun _ => rule) before s) = scan x s := by
  fun_induction NumericAnswer.substituteFrom (fun _ => rule) before s with
  | case1 => exact fun _ _ => rfl
  | case2 before c s replacement n hs ih =>
    intro h x
    rw [Rule.takesNested, hs, Option.all_some, Bool.and_eq_true, decide_eq_true_eq] at h
    obtain ⟨hc, hreplacement⟩ := hrule hs h.1
    calc scan x (replacement ++ NumericAnswer.substituteFrom (fun _ => rule)
          (c :: s.take n).getLast? (s.drop n))
        = scan x (s.drop n) := by
          rw [hscan.nested_append hreplacement]
          exact ih (Rule.takesNested_drop n h.2) x
      _ = scan x (s.take n ++ s.drop n) := (hscan.nested_append h.1 x _).symm
      _ = scan x (c :: s) := by rw [List.take_append_drop, hscan.cons hc]
  | case3 before c s hs ih =>
    intro h x
    rw [Rule.takesNested, Bool.and_eq_true] at h
    rw [← List.singleton_append, ← List.singleton_append (l := s), hscan.append, hscan.append]
    exact congrArg _ (funext (ih h.2))

/-- What a command with braces after it takes out of the text. -/
theorem take_of_braced {names : List Text} (make : Text → Text) {c : Char}
    {s replacement : Text} {n : Nat} (h : Rule.command names (fun length rest =>
      (braced? rest).map fun (content, braces) => (make content, length + braces)) c s =
        some (replacement, n)) :
    NoBracket c ∧ ∃ name content, (∀ d ∈ name, NoBracket d) ∧ replacement = make content ∧
      s.take n = name ++ '\x7b' :: (content ++ ['\x7d']) ∧ (∀ d ∈ content, notBrace d = true) := by
  obtain ⟨hc, blanks, content, hblanks, hcontent, hmade, htake⟩ := Rule.take_of_wrapper make h
  refine ⟨hc ▸ noBracket_backslash, leadingLetters s ++ blanks, content, fun d hd => ?_, hmade,
    by rw [htake, List.append_assoc], hcontent⟩
  rcases List.mem_append.mp hd with hd | hd
  · exact noBracket_of_isName isAsciiLetter_of_mem_leadingLetters d hd
  · exact noBracket_of_isBlank (List.all_eq_true.mp hblanks d hd)

namespace Rule

theorem keepsNested_annotation : annotation.KeepsNested := by
  intro c s replacement n h _
  obtain ⟨hc, _, _, _, rfl, _⟩ := take_of_braced (fun _ => []) h
  exact ⟨hc, rfl⟩

theorem keepsNested_upright : upright.KeepsNested := by
  intro c s replacement n h hn
  obtain ⟨hc, name, content, hname, rfl, htake, hcontent⟩ := take_of_braced (fun content =>
    if (UnaryFunction.ofCommand? (strip content)).isSome then '\\' :: strip content
    else strip content) h
  have hn : nest [] ('\x7b' :: (content ++ '\x7d' :: [])) = some [] := by
    rw [← nest_noBracket_append hname, ← htake]
    exact hn
  exact ⟨hc, Canonical.nest_upright content [] (nested_of_braces hcontent hn).1⟩

/-- Escaped braces are never well nested by themselves. -/
theorem keepsNested_escapedBrace : escapedBrace.KeepsNested := by
  intro c s replacement n h hn
  have hbrace : ∀ d ∈ ['\x7b', '\x7d'], ¬Nested [d] := by
    simp only [List.forall_mem_cons]
    exact ⟨by decide, by decide, by simp⟩
  have htake : ∀ {d : Char}, s.head? = some d → s.take 1 = [d] := by
    intro d hd
    obtain ⟨t, rfl⟩ := List.head?_eq_some_iff.mp hd
    rfl
  unfold escapedBrace at h
  split at h
  · cases h
  · split at h
    · next hd =>
      obtain ⟨rfl, rfl⟩ := Prod.mk.inj (Option.some.inj h)
      exact absurd (htake hd ▸ hn) (hbrace _ (by simp))
    · split at h
      · next hd =>
        obtain ⟨rfl, rfl⟩ := Prod.mk.inj (Option.some.inj h)
        exact absurd (htake hd ▸ hn) (hbrace _ (by simp))
      · cases h

/-- An upright name keeps the number of brackets of each type in any case. -/
theorem surplus_of_step_upright {b : Bracket} {before before' : Option Char} {c : Char}
    {s out rest : Text} (h : Stage.wrapper uprightNames upright before c s = .step out before' rest) :
    surplus b (c :: s) = surplus b (out ++ rest) := by
  unfold Stage.wrapper Stage.substitution at h
  split at h
  · next replacement n hs =>
    obtain ⟨rfl, rfl, rfl⟩ := Found.step.inj h
    obtain ⟨hc, name, content, hname, rfl, htake, _⟩ := take_of_braced (fun content =>
      if (UnaryFunction.ofCommand? (strip content)).isSome then '\\' :: strip content
      else strip content) hs
    have hstrip : surplus b (strip content) = surplus b content :=
      surplus_of_tally ((followsBrackets_tally b).strip 0 content)
    have hmade : surplus b (if (UnaryFunction.ofCommand? (strip content)).isSome then
        '\\' :: strip content else strip content) = surplus b content := by
      split
      · rw [← hstrip]
        exact surplus_noBracket_append (s := ['\\']) (by simp [noBracket_backslash]) b _
      · exact hstrip
    have hgroup : surplus b ('\x7b' :: (content ++ ['\x7d'])) = surplus b content :=
      surplus_inBraces content
    calc surplus b (c :: s) = surplus b (s.take n ++ s.drop n) := by
          rw [List.take_append_drop]
          exact surplus_noBracket_append (s := [c]) (by simpa using hc) b s
      _ = surplus b content + surplus b (s.drop n) := by
          rw [htake, surplus_append, surplus_noBracket_append hname, hgroup]
      _ = _ := by rw [surplus_append, hmade]
  · split at h <;> cases h

end Rule

/-! ### Answers -/

namespace Canonical

/-- The answer without wrappers, style, sizing and spacing commands. -/
def undecorated (answer : Text) : Text :=
  substitute Rule.spacing (substitute Rule.sizing (substitute Rule.style (unwrapped answer)))

/-- The undecorated answer without annotations. -/
def unannotated (answer : Text) : Text :=
  substitute Rule.annotation (undecorated answer)

/-- The simplified answer but for escaped braces. -/
def uprighted (answer : Text) : Text :=
  substitute Rule.bar (substitute Rule.upright (unannotated answer))

theorem simplified_eq (answer : Text) :
    simplified answer = substitute Rule.escapedBrace (uprighted answer) := rfl

/-- No display brackets are around the answer, annotations take well-nested
words away, and no brace is escaped. -/
structure KeepsBrackets (answer : Text) : Prop where
  display : dropDisplayClosing (dropDisplayOpening (strip (stripDollars (strip answer)))) =
    strip (stripDollars (strip answer))
  annotation : Rule.annotation.takesNested (undecorated answer) = true
  escapedBrace : Rule.escapedBrace.takesNested (uprighted answer) = true

/-- The groups that come out of brackets of another type than they go into are
well nested: upright names, bases of logarithms, and arguments of functions
after an exponent. -/
structure MovesNested (answer : Text) : Prop where
  upright : Rule.upright.takesNested (unannotated answer) = true
  logBase : Pass.logBase.respects (frontNests .curly) []
    (afterPasses [.fraction, .root] (simplified answer)).1 = true
  functionPower : Pass.functionPower.respects argumentNests []
    (afterPasses [.fraction, .root, .logBase] (simplified answer)).1 = true

section Scan

variable {σ : Type} {scan : σ → Text → Option σ} (hscan : FollowsBrackets scan) {answer : Text}
include hscan

theorem scan_stripDollars (x : σ) (s : Text) : scan x (stripDollars s) = scan x s := by
  have hdollars : ∀ t : Text, Nested (t.takeWhile (· = '$')) := by
    refine fun t => nested_of_noBracket fun c hc => ?_
    have hc : c = '$' := by simpa using List.all_eq_true.mp List.all_takeWhile c hc
    exact hc ▸ ⟨rfl, rfl⟩
  have hreverse : ∀ t : Text, Nested (t.takeWhile (· = '$')).reverse := by
    refine fun t => nested_of_noBracket fun c hc => ?_
    have hc : c = '$' := by
      simpa using List.all_eq_true.mp List.all_takeWhile c (List.mem_reverse.mp hc)
    exact hc ▸ ⟨rfl, rfl⟩
  have hfront := List.takeWhile_append_dropWhile (p := (· = '$')) (l := s)
  have hback := congrArg List.reverse
    (List.takeWhile_append_dropWhile (p := (· = '$')) (l := (s.dropWhile (· = '$')).reverse))
  rw [List.reverse_append, List.reverse_reverse] at hback
  calc scan x (stripDollars s)
      = scan x (s.dropWhile (· = '$')) := by
        refine Eq.trans ?_ (congrArg (scan x) hback)
        exact (hscan.append_nested (hreverse _) x _).symm
    _ = scan x s := by
        refine Eq.trans ?_ (congrArg (scan x) hfront)
        exact (hscan.nested_append (hdollars _) x _).symm

theorem scan_substitute_plain {rule : Rule} (hr : rule.Plain) (x : σ) (s : Text) :
    scan x (substitute rule s) = scan x s := by
  have hrewrites : Rewrites false (.always rule) none s (substitute rule s) :=
    rewrites_substituteFrom none s
  exact (hscan.rewrites_plain (fun _ => hr) hrewrites x).symm

theorem scan_unannotated (h : KeepsBrackets answer) (x : σ) :
    scan x (unannotated answer) = scan x answer := by
  have hunwrapped : scan x (unwrapped answer) = scan x answer := by
    unfold unwrapped
    rw [h.display, hscan.strip, hscan.strip, scan_stripDollars hscan, hscan.strip]
  calc scan x (unannotated answer)
      = scan x (undecorated answer) :=
        hscan.substituteFrom Rule.keepsNested_annotation none _ h.annotation x
    _ = scan x (unwrapped answer) := by
        unfold undecorated
        rw [scan_substitute_plain hscan Rule.plain_spacing,
          scan_substitute_plain hscan Rule.plain_sizing,
          scan_substitute_plain hscan Rule.plain_style]
    _ = scan x answer := hunwrapped

theorem scan_simplified (h : KeepsBrackets answer) (x : σ) :
    scan x (simplified answer) = scan x (substitute Rule.upright (unannotated answer)) := by
  rw [simplified_eq]
  refine (hscan.substituteFrom Rule.keepsNested_escapedBrace none _ h.escapedBrace x).trans ?_
  exact scan_substitute_plain hscan Rule.plain_bar x _

end Scan

variable {answer : Text} {calls : Nat} {x : Expr}

/-- What the passes make of an answer that is accepted is well nested. -/
theorem nested_afterPasses (h : Expr.parseWithin calls (canonical answer) = .ok x) :
    Nested (afterPasses passes (simplified answer)).1 := by
  obtain ⟨t, hwords, hplain⟩ := exists_chain_plain (afterPasses passes (simplified answer)).1
  obtain ⟨ts, hlexes, hrun, _⟩ := Expr.exists_lexes_of_parseWithin h
  have hcanonical : canonical answer = collapse (expandBars t) := congrArg collapse hplain
  rw [hcanonical] at hlexes
  have hlexes := hlexes.respaced (hlexes.notMem_of_run hrun '\\' (by simp)) (words_collapse _)
  have hbar : '|' ∉ expandBars t := hlexes.notMem_of_run hrun '|' (by simp)
  have hbars := BarsPair.of_expandBars hbar (hlexes.nest hrun)
  exact (followsBrackets_nest.chain_wordStages hwords []).trans hbars.nest

/-- An accepted answer has as many opening brackets of each type as closing ones. -/
theorem surplus_of_parseWithin (hk : KeepsBrackets answer)
    (h : Expr.parseWithin calls (canonical answer) = .ok x) (b : Bracket) :
    surplus b answer = 0 := by
  have hscan := followsBrackets_tally b
  have hupright : surplus b (unannotated answer) =
      surplus b (substitute Rule.upright (unannotated answer)) := by
    have hrewrites : Rewrites false (.wrapper Rule.uprightNames Rule.upright) none
        (unannotated answer) (substitute Rule.upright (unannotated answer)) :=
      rewrites_substituteFrom none _
    refine surplus_of_tally (hrewrites.scan_eq hscan.append (fun hstep y => ?_) 0)
    exact tally_congr (Rule.surplus_of_step_upright hstep) y
  calc surplus b answer
      = surplus b (unannotated answer) :=
        (surplus_of_tally (scan_unannotated hscan hk 0)).symm
    _ = surplus b (simplified answer) :=
        hupright.trans (surplus_of_tally (scan_simplified hscan hk 0)).symm
    _ = surplus b (afterPasses passes (simplified answer)).1 :=
        surplus_chain_passStages (chain_afterPasses _)
    _ = 0 := surplus_of_nested (nested_afterPasses h) b

/-- The brackets of an accepted answer nest if those of the groups that are
moved do. -/
theorem nested_of_parseWithin (hk : KeepsBrackets answer) (hm : MovesNested answer)
    (h : Expr.parseWithin calls (canonical answer) = .ok x) : Nested answer := by
  have hpower : Nested (afterPasses [.fraction, .root, .logBase] (simplified answer)).1 := by
    refine Pass.nest_of_runFrom Pass.builds_functionPower ?_ [] _ hm.functionPower
      (nested_afterPasses h)
    rintro s replacement rest opened out ⟨f, hf⟩ hs hn
    exact nest_of_buildFunctionPower hf hs hn
  have hlog : Nested (afterPasses [.fraction, .root] (simplified answer)).1 :=
    Pass.nest_of_runFrom Pass.builds_logBase nest_of_buildLogBase [] _ hm.logBase hpower
  have hroot : Nested (afterPasses [.fraction] (simplified answer)).1 :=
    Pass.nest_of_runFrom Pass.builds_root (fun hb _ hn => nest_of_buildRoot hb hn) [] _
      (Pass.respects_true _ _ _) hlog
  have hsimplified : Nested (simplified answer) :=
    Pass.nest_of_runFrom Pass.builds_fraction (fun hb _ hn => nest_of_buildFraction hb hn) [] _
      (Pass.respects_true _ _ _) hroot
  have hscan := followsBrackets_nest
  have hunannotated : Nested (unannotated answer) := by
    show nest [] _ = some []
    rw [← hscan.substituteFrom Rule.keepsNested_upright none _ hm.upright]
    exact (scan_simplified hscan hk []).symm.trans hsimplified
  exact (scan_unannotated hscan hk []).symm.trans hunannotated

end Canonical

namespace Outcome

variable [MathLibrary]

/-- An answer has no value if some type of brackets has more opening than closing
ones in it or the other way round, or if its brackets do not nest and those of
the groups that are moved do. -/
theorem exists_failure_of_unbalanced {answer : Text} (hk : Canonical.KeepsBrackets answer)
    (hu : (∃ b : Bracket, answer.count b.opening ≠ answer.count b.closing) ∨
      Canonical.MovesNested answer ∧ ¬Nested answer) :
    ∃ fault expression, ofAnswer (some answer) = failure fault expression := by
  show ∃ fault expression, ofText answer = failure fault expression
  cases h : ofText answer with
  | failure fault expression => exact ⟨fault, expression, rfl⟩
  | success value expression =>
    obtain ⟨_, hvalue⟩ := eq_canonical_of_success h
    obtain ⟨x, hparse⟩ := exists_parse_of_evaluateCanonical hvalue
    rcases hu with ⟨b, hb⟩ | ⟨hm, hn⟩
    · have hsurplus := Canonical.surplus_of_parseWithin hk hparse b
      unfold surplus at hsurplus
      omega
    · exact absurd (Canonical.nested_of_parseWithin hk hm hparse) hn

omit [MathLibrary] in
/-- Too few closing brackets, and brackets that cross beside a base that does not. -/
theorem exists_failure_of_unbalanced_crossing :
    (∃ fault expression, @ofAnswer .native (some "\\frac\x7b\\sin^\x7b2\x7d(1\x7d\x7b2\x7d".toList) =
      failure fault expression) ∧
    ∃ fault expression, @ofAnswer .native (some "([1)]\\log_\x7b2\x7d\x7b8\x7d".toList) =
      failure fault expression := by
  constructor
  · refine @exists_failure_of_unbalanced .native _ ⟨?_, ?_, ?_⟩ (.inl ⟨.round, ?_⟩)
    all_goals decide +kernel
  · refine @exists_failure_of_unbalanced .native _ ⟨?_, ?_, ?_⟩ (.inr ⟨⟨?_, ?_, ?_⟩, ?_⟩)
    all_goals decide +kernel

/-- A base that crosses a group is accepted in its new brackets. -/
example : canonical "\\log_\x7b2][8\x7d".toList = "logBase[2][8]".toList ∧
    (Expr.parse (canonical "\\log_\x7b2][8\x7d".toList)).isOk = true ∧
    ¬Nested "\\log_\x7b2][8\x7d".toList := by decide +kernel

end Outcome
end NumericAnswer
