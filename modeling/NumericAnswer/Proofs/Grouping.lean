/-
# Moved groups

Fractions, roots, logarithms and powers of functions take groups out of their
brackets and put them into other ones. The number of brackets of each type
stays. Read backwards, a group that is well nested where it is put was so where
it stood, unless it came out of brackets of another type.

Key definitions: `surplus`, `Pass.Builds`, `Pass.respects`.
Key theorems: `nested_of_group`, `nest_of_buildFunctionPower`,
`Pass.nest_of_runFrom`.
-/
import NumericAnswer.Proofs.Acceptance

namespace NumericAnswer

/-! ### The number of brackets -/

/-- The opening brackets of a type, less the closing ones. -/
def surplus (b : Bracket) (s : Text) : Int :=
  s.count b.opening - s.count b.closing

theorem surplus_append (b : Bracket) (s t : Text) :
    surplus b (s ++ t) = surplus b s + surplus b t := by
  simp only [surplus, List.count_append]
  omega

theorem surplus_cons (b : Bracket) (c : Char) (s : Text) :
    surplus b (c :: s) = surplus b [c] + surplus b s :=
  surplus_append b [c] s

/-- Counting up and down ends at the surplus. -/
theorem surplus_of_walk {b : Bracket} : ∀ {s : Text} {depth e : Nat}, walk b depth s = some e →
    (e : Int) = depth + surplus b s
  | [], depth, e, h => by
    obtain rfl := Option.some.inj h
    simp [surplus]
  | c :: s, depth, e, h => by
    have hne := opening_ne_closing b
    rw [surplus_cons]
    by_cases ho : c = b.opening
    · subst ho
      rw [walk_opening] at h
      have ih := surplus_of_walk h
      have hone : surplus b [b.opening] = 1 := by simp [surplus, hne.symm]
      omega
    · by_cases hc : c = b.closing
      · subst hc
        cases depth with
        | zero => simp [walk, hne] at h
        | succ depth =>
          rw [walk_closing] at h
          have ih := surplus_of_walk h
          have hone : surplus b [b.closing] = -1 := by simp [surplus, hne]
          omega
      · rw [walk_cons ho hc] at h
        have ih := surplus_of_walk h
        have hzero : surplus b [c] = 0 := by simp [surplus, ho, hc]
        omega

theorem surplus_of_nested {s : Text} (h : Nested s) (b : Bracket) : surplus b s = 0 := by
  have hs := surplus_of_walk (walk_of_nested h b)
  omega

/-- The surplus, carried along a text. -/
def tally (b : Bracket) (x : Int) (s : Text) : Option Int :=
  some (x + surplus b s)

theorem followsBrackets_tally (b : Bracket) : FollowsBrackets (tally b) where
  append x s t := by
    show some (x + surplus b (s ++ t)) = some (x + surplus b s + surplus b t)
    rw [surplus_append, Int.add_assoc]
  nested h x := by
    rw [tally, surplus_of_nested h, Int.add_zero]

theorem tally_congr {b : Bracket} {s t : Text} (h : surplus b s = surplus b t) (x : Int) :
    tally b x s = tally b x t := by
  rw [tally, tally, h]

theorem surplus_of_tally {b : Bracket} {s t : Text} (h : tally b 0 s = tally b 0 t) :
    surplus b s = surplus b t := by
  have hst := Option.some.inj h
  omega

theorem surplus_noBracket_append {s : Text} (h : ∀ c ∈ s, NoBracket c) (b : Bracket) (t : Text) :
    surplus b (s ++ t) = surplus b t := by
  rw [surplus_append, surplus_of_nested (nested_of_noBracket h), Int.zero_add]

theorem surplus_dropBlanks (b : Bracket) (s : Text) : surplus b (dropBlanks s) = surplus b s :=
  surplus_of_tally ((followsBrackets_tally b).dropBlanks 0 s)

/-- A pair of brackets counts for nothing. -/
theorem surplus_group (b b' : Bracket) (s t : Text) :
    surplus b (b'.opening :: (s ++ b'.closing :: t)) = surplus b s + surplus b t := by
  have hpair : surplus b [b'.opening] + surplus b [b'.closing] = 0 := by
    cases b <;> cases b' <;> decide
  rw [surplus_cons, surplus_append, surplus_cons b b'.closing]
  omega

/-! ### What macros are made of -/

/-- Each macro that the pass replaces has no brackets in its name and mark, and
`made` relates the text after them to the replacement and the rest. -/
def Pass.Builds (p : Pass) (made : Text → Text → Text → Prop) : Prop :=
  ∀ ⦃c : Char⦄ ⦃s : Text⦄ ⦃n : Nat⦄ ⦃replacement rest : Text⦄,
    p.site? c s = some ⟨n, .ok (replacement, rest)⟩ →
      NoBracket c ∧ (∀ d ∈ s.take n, NoBracket d) ∧ made (s.drop n) replacement rest

section Builds

variable {p : Pass} {names : List Text} {build : Text → Except Refusal (Text × Text)}

theorem Pass.builds_command (hp : ∀ c s, p.site? c s =
    if c = '\\' && names.contains (leadingLetters s) then
      some (siteAt s (leadingLetters s).length build) else none) :
    p.Builds fun s replacement rest => build s = .ok (replacement, rest) := by
  intro c s n replacement rest h
  rw [hp] at h
  split at h
  · next hc =>
    simp only [Bool.and_eq_true, decide_eq_true_eq] at hc
    obtain ⟨rfl, hbuild⟩ := Site.mk.inj (Option.some.inj h)
    exact ⟨hc.1 ▸ noBracket_backslash, noBracket_of_mem_take_leadingLetters, hbuild⟩
  · cases h

/-- A command with its mark is its letters, blanks and the mark. -/
theorem exists_take_of_markLength? {mark : Char} {s : Text} {n : Nat}
    (h : markLength? mark (s.drop (leadingLetters s).length) = some n) :
    ∃ blanks, isAllBlank blanks = true ∧
      s.take ((leadingLetters s).length + n) = leadingLetters s ++ (blanks ++ [mark]) := by
  obtain ⟨blanks, hblanks, hs, rfl⟩ := eq_append_of_markLength? h
  have htake : (s.drop (leadingLetters s).length).take (blanks.length + 1) = blanks ++ [mark] := by
    generalize (s.drop (leadingLetters s).length).drop (blanks.length + 1) = tail at hs
    have hlength : blanks.length + 1 = (blanks ++ [mark]).length := by simp
    rw [hs, hlength, List.append_cons blanks mark tail, List.take_left]
  exact ⟨blanks, hblanks, by rw [List.take_add, htake, take_leadingLetters]⟩

theorem noBracket_of_mem_take_mark {mark : Char} (hmark : NoBracket mark) {s : Text} {n : Nat}
    (h : markLength? mark (s.drop (leadingLetters s).length) = some n) :
    ∀ d ∈ s.take ((leadingLetters s).length + n), NoBracket d := by
  obtain ⟨blanks, hblanks, htake⟩ := exists_take_of_markLength? h
  intro d hd
  rw [htake, List.mem_append, List.mem_append, List.mem_singleton] at hd
  rcases hd with hd | hd | rfl
  · exact noBracket_of_isName isAsciiLetter_of_mem_leadingLetters d hd
  · exact noBracket_of_isBlank (List.all_eq_true.mp hblanks d hd)
  · exact hmark

end Builds

namespace Pass

theorem builds_fraction :
    fraction.Builds fun s replacement rest => buildFraction s = .ok (replacement, rest) :=
  builds_command fun _ _ => rfl

theorem builds_root :
    root.Builds fun s replacement rest => buildRoot s = .ok (replacement, rest) :=
  builds_command Stage.site_root

theorem builds_logBase :
    logBase.Builds fun s replacement rest => buildLogBase s = .ok (replacement, rest) := by
  intro c s n replacement rest h
  simp only [logBase, logBaseSite?] at h
  split at h
  · next hc =>
    simp only [Bool.and_eq_true, decide_eq_true_eq] at hc
    obtain ⟨length, hlength, hs⟩ := Option.map_eq_some_iff.mp h
    obtain ⟨rfl, hbuild⟩ := Site.mk.inj hs
    exact ⟨hc.1 ▸ noBracket_backslash, noBracket_of_mem_take_mark ⟨rfl, rfl⟩ hlength, hbuild⟩
  · cases h

theorem builds_functionPower :
    functionPower.Builds fun s replacement rest =>
      ∃ f, buildFunctionPower f s = .ok (replacement, rest) := by
  intro c s n replacement rest h
  simp only [functionPower, functionPowerSite?] at h
  split at h
  · next hc =>
    obtain ⟨f, _, hf⟩ := Option.bind_eq_some_iff.mp h
    obtain ⟨length, hlength, hs⟩ := Option.map_eq_some_iff.mp hf
    obtain ⟨rfl, hbuild⟩ := Site.mk.inj hs
    exact ⟨hc ▸ noBracket_backslash, noBracket_of_mem_take_mark ⟨rfl, rfl⟩ hlength, f, hbuild⟩
  · cases h

end Pass

/-! ### Macros keep the number of brackets -/

section Surplus

variable {b : Bracket} {s argument replacement rest : Text}

theorem surplus_of_spanGroup {b' : Bracket} (h : spanGroup b' 0 s = some (argument, rest)) :
    surplus b (b'.opening :: s) = surplus b argument + surplus b rest := by
  rw [← append_of_spanGroup h, surplus_group]

theorem surplus_of_readGroup (h : readGroup s = .ok (argument, rest)) :
    surplus b s = surplus b argument + surplus b rest := by
  obtain ⟨b', rfl⟩ := append_of_readGroup h
  exact surplus_group b b' argument rest

theorem surplus_of_macroArgument (h : macroArgument s = .ok (argument, rest)) :
    surplus b s = surplus b argument + surplus b rest := by
  obtain ⟨t, ht, hcase⟩ := macroArgument_cases h
  rw [← surplus_dropBlanks, ht]
  cases hcase with
  | group hg => exact @surplus_of_spanGroup b _ _ _ .curly hg
  | word w _ ha => rw [← append_of_absorbGroups ha, ← List.append_assoc, surplus_append]
  | command t =>
    rw [← surplus_append, List.cons_append, leadingLetters_append_dropWhile]
  | @character c _ => exact surplus_cons b c rest

theorem surplus_of_functionArgument (h : functionArgument s = .ok (argument, rest)) :
    surplus b s = surplus b argument + surplus b rest := by
  obtain ⟨t, ht, hcase⟩ := functionArgument_cases h
  rw [← surplus_dropBlanks, ht]
  cases hcase with
  | group b' hg => exact surplus_of_spanGroup hg
  | word w _ ha => rw [← append_of_absorbGroups ha, ← List.append_assoc, surplus_append]
  | command t =>
    rw [← surplus_append, List.cons_append, leadingLetters_append_dropWhile]
  | bare => exact surplus_append b argument rest

theorem surplus_inBraces (s : Text) : surplus b (inBraces s) = surplus b s :=
  (surplus_group b .curly s []).trans (by simp [surplus])

theorem surplus_inSquareBrackets (s : Text) : surplus b (inSquareBrackets s) = surplus b s :=
  (surplus_group b .square s []).trans (by simp [surplus])

theorem surplus_name {w : Text} (hw : ∀ c ∈ w, isAsciiLetter c = true) : surplus b w = 0 :=
  surplus_of_nested (nested_of_noBracket (noBracket_of_isName hw)) b

theorem surplus_buildFraction (h : buildFraction s = .ok (replacement, rest)) :
    surplus b s = surplus b (replacement ++ rest) := by
  obtain ⟨⟨numerator, after⟩, hn, h⟩ := exists_of_bind_ok h
  obtain ⟨⟨denominator, after'⟩, hd, h⟩ := exists_of_bind_ok h
  obtain ⟨rfl, rfl⟩ := Prod.mk.inj (Except.ok.inj h)
  have hnumerator := @surplus_of_macroArgument b _ _ _ hn
  have hdenominator := @surplus_of_macroArgument b _ _ _ hd
  have hname := @surplus_name b "frac".toList (forall_mem_of_all (by decide))
  simp only [surplus_append, surplus_inBraces]
  omega

theorem surplus_buildRoot (h : buildRoot s = .ok (replacement, rest)) :
    surplus b s = surplus b (replacement ++ rest) := by
  unfold buildRoot at h
  split at h
  · obtain ⟨⟨degree, after⟩, hd, h⟩ := exists_of_bind_ok h
    obtain ⟨⟨radicand, after'⟩, hr, h⟩ := exists_of_bind_ok h
    obtain ⟨rfl, rfl⟩ := Prod.mk.inj (Except.ok.inj h)
    have hdegree := @surplus_of_readGroup b _ _ _ hd
    have hradicand := @surplus_of_macroArgument b _ _ _ hr
    have hname := @surplus_name b "nthroot".toList (forall_mem_of_all (by decide))
    rw [surplus_dropBlanks] at hdegree
    simp only [surplus_append, surplus_inBraces, surplus_inSquareBrackets]
    omega
  · obtain ⟨⟨radicand, after⟩, hr, h⟩ := exists_of_bind_ok h
    obtain ⟨rfl, rfl⟩ := Prod.mk.inj (Except.ok.inj h)
    have hradicand := @surplus_of_macroArgument b _ _ _ hr
    have hname := @surplus_name b "sqrt".toList (forall_mem_of_all (by decide))
    simp only [surplus_append, surplus_inBraces]
    omega

theorem surplus_buildLogBase (h : buildLogBase s = .ok (replacement, rest)) :
    surplus b s = surplus b (replacement ++ rest) := by
  obtain ⟨⟨base, after⟩, hb, h⟩ := exists_of_bind_ok h
  obtain ⟨rfl, rfl⟩ := Prod.mk.inj (Except.ok.inj h)
  have hbase := @surplus_of_macroArgument b _ _ _ hb
  have hname := @surplus_name b "logBase".toList (forall_mem_of_all (by decide))
  simp only [surplus_append, surplus_inSquareBrackets]
  omega

theorem surplus_buildFunctionPower {f : UnaryFunction}
    (h : buildFunctionPower f s = .ok (replacement, rest)) :
    surplus b s = surplus b (replacement ++ rest) := by
  obtain ⟨⟨exponent, after⟩, he, h⟩ := exists_of_bind_ok h
  simp only at h
  split at h
  · cases h
  · obtain ⟨⟨argument, after'⟩, ha, h⟩ := exists_of_bind_ok h
    obtain ⟨rfl, rfl⟩ := Prod.mk.inj (Except.ok.inj h)
    have hexponent := @surplus_of_macroArgument b _ _ _ he
    have hargument := @surplus_of_functionArgument b _ _ _ ha
    have hname := @surplus_name b f.name.toList f.isName.2
    have hgroup := surplus_group b .round (f.name.toList ++ inBraces argument)
      ('^' :: (inBraces exponent ++ after'))
    have hcaret : ∀ t, surplus b ('^' :: t) = surplus b t :=
      surplus_noBracket_append (s := ['^']) (by simp [NoBracket]; decide) b
    simp only [Bracket.opening, Bracket.closing, List.append_assoc, List.cons_append,
      surplus_append, surplus_inBraces, hcaret] at hgroup ⊢
    omega

theorem surplus_rewrites_pass {p : Pass} {made : Text → Text → Text → Prop} (hp : p.Builds made)
    (hmade : ∀ {s replacement rest}, made s replacement rest →
      surplus b s = surplus b (replacement ++ rest)) {ended : Char → Text → Bool} {strict : Bool}
    {before : Option Char} {s t : Text} (h : Rewrites strict (.pass p ended) before s t) :
    surplus b s = surplus b t := by
  have hscan := followsBrackets_tally b
  refine surplus_of_tally (h.scan_eq hscan.append (fun {before c s out before' rest} hstep x => ?_) 0)
  unfold Stage.pass at hstep
  split at hstep
  · next n replacement rest' hsite =>
    obtain ⟨rfl, rfl, rfl⟩ := Found.step.inj hstep
    obtain ⟨hc, htake, hbuilt⟩ := hp hsite
    calc tally b x (c :: s) = tally b x (s.take n ++ s.drop n) := by
          rw [List.take_append_drop, hscan.cons hc]
      _ = tally b x (s.drop n) := hscan.nested_append (nested_of_noBracket htake) x _
      _ = tally b x (replacement ++ rest') := tally_congr (hmade hbuilt) x
      _ = tally b x ([] ++ (padded before rest'.head? replacement ++ rest')) :=
          (hscan.padded_append x _ _ _ _).symm
  · cases hstep
  · split at hstep <;> cases hstep
  · cases hstep

/-- The passes neither take brackets away nor make some. -/
theorem surplus_chain_passStages {strict : Bool} {s t : Text}
    (h : Chain strict Canonical.passStages s t) : surplus b s = surplus b t := by
  obtain ⟨s₁, h₁, s₂, h₂, s₃, h₃, s₄, h₄, rfl⟩ := h
  have hpower : surplus b s₃ = surplus b s₄ := by
    refine surplus_rewrites_pass Pass.builds_functionPower ?_ h₄
    rintro s replacement rest ⟨f, hf⟩
    exact surplus_buildFunctionPower hf
  calc surplus b s = surplus b s₁ := surplus_rewrites_pass Pass.builds_fraction surplus_buildFraction h₁
    _ = surplus b s₂ := surplus_rewrites_pass Pass.builds_root surplus_buildRoot h₂
    _ = surplus b s₃ := surplus_rewrites_pass Pass.builds_logBase surplus_buildLogBase h₃
    _ = surplus b s₄ := hpower

end Surplus

/-! ### Arguments in a well-nested text -/

section Nest

variable {s t argument replacement rest groups : Text} {opened out : List Bracket}

theorem nested_of_absorbGroups (h : absorbGroups s = .ok (groups, rest)) :
    ∀ {t : Text} {opened out : List Bracket}, nest opened (groups ++ t) = some out →
      Nested groups ∧ nest opened t = some out := by
  fun_induction absorbGroups s generalizing groups rest with
  | case1 =>
    obtain ⟨rfl, rfl⟩ := Prod.mk.inj (Except.ok.inj h)
    exact fun hn => ⟨rfl, hn⟩
  | case2 =>
    obtain ⟨rfl, rfl⟩ := Prod.mk.inj (Except.ok.inj h)
    exact fun hn => ⟨rfl, hn⟩
  | case3 =>
    obtain ⟨rfl, rfl⟩ := Prod.mk.inj (Except.ok.inj h)
    exact fun hn => ⟨rfl, hn⟩
  | case4 => cases h
  | case5 c s b _ hb content rest' hs ih =>
    obtain ⟨⟨more, after⟩, ha, he⟩ := exists_of_map_ok h
    obtain ⟨rfl, rfl⟩ := Prod.mk.inj he
    obtain rfl := Bracket.ofOpening?_eq_some_iff.mp hb
    intro t opened out hn
    rw [List.cons_append, List.append_assoc, List.cons_append] at hn
    obtain ⟨hcontent, hmore⟩ := nested_of_group (walk_of_spanGroup hs) hn
    obtain ⟨hmore, ht⟩ := ih ha hmore
    refine ⟨?_, ht⟩
    show nest [] _ = some []
    rw [nest_group hcontent]
    exact hmore

theorem nested_word_append {w : Text} (hw : ∀ c ∈ w, isAsciiLetter c = true) (hs : Nested s) :
    Nested (w ++ s) := by
  show nest [] (w ++ s) = some []
  rw [nest_noBracket_append (noBracket_of_isName hw)]
  exact hs

theorem nested_command (s : Text) : Nested ('\\' :: leadingLetters s) := by
  refine nested_of_noBracket ?_
  rw [List.forall_mem_cons]
  exact ⟨noBracket_backslash, noBracket_of_isName isAsciiLetter_of_mem_leadingLetters⟩

/-- A well-nested argument may be skipped. -/
theorem nest_of_macroArgument (h : macroArgument s = .ok (argument, rest)) (ha : Nested argument) :
    nest opened s = nest opened rest := by
  obtain ⟨t, ht, hcase⟩ := macroArgument_cases h
  rw [← followsBrackets_nest.dropBlanks, ht]
  cases hcase with
  | group hg =>
    rw [← append_of_spanGroup hg]
    exact @nest_group .curly _ _ _ ha
  | word w _ hg =>
    rw [← append_of_absorbGroups hg, ← List.append_assoc]
    exact followsBrackets_nest.nested_append ha _ _
  | command t =>
    refine (congrArg (fun t => nest opened ('\\' :: t)) (leadingLetters_append_dropWhile t)).symm.trans ?_
    exact followsBrackets_nest.nested_append ha _ _
  | @character c _ => exact followsBrackets_nest.nested_append (s := [c]) ha _ _

theorem nest_of_functionArgument (h : functionArgument s = .ok (argument, rest))
    (ha : Nested argument) : nest opened s = nest opened rest := by
  obtain ⟨t, ht, hcase⟩ := functionArgument_cases h
  rw [← followsBrackets_nest.dropBlanks, ht]
  cases hcase with
  | group b hg =>
    rw [← append_of_spanGroup hg]
    exact nest_group ha
  | word w _ hg =>
    rw [← append_of_absorbGroups hg, ← List.append_assoc]
    exact followsBrackets_nest.nested_append ha _ _
  | command t =>
    refine (congrArg (fun t => nest opened ('\\' :: t)) (leadingLetters_append_dropWhile t)).symm.trans ?_
    exact followsBrackets_nest.nested_append ha _ _
  | bare => exact followsBrackets_nest.nested_append ha _ _

/-- A single character between brackets is another bracket only if they do not nest. -/
theorem noBracket_of_nest {b : Bracket} {c : Char} (ho : c ≠ b.opening) (hc : c ≠ b.closing)
    (hn : nest (b :: opened) (c :: b.closing :: rest) = some out) : NoBracket c := by
  constructor
  · cases hb : Bracket.ofOpening? c with
    | none => rfl
    | some b' =>
      obtain rfl := Bracket.ofOpening?_eq_some_iff.mp hb
      have hne : b' ≠ b := fun h => ho (congrArg Bracket.opening h)
      rw [nest_opening, nest_closing] at hn
      simp [hne] at hn
  · cases hb : Bracket.ofClosing? c with
    | none => rfl
    | some b' =>
      obtain rfl := Bracket.ofClosing?_eq_some_iff.mp hb
      have hne : b ≠ b' := fun h => hc (congrArg Bracket.closing h).symm
      rw [nest_closing] at hn
      simp [hne] at hn

theorem nest_inBraces_append :
    nest opened (inBraces s ++ rest) = nest (.curly :: opened) (s ++ '\x7d' :: rest) := by
  rw [← nest_opening]
  simp [inBraces, Bracket.opening]

theorem nest_inSquareBrackets_append :
    nest opened (inSquareBrackets s ++ rest) = nest (.square :: opened) (s ++ ']' :: rest) := by
  rw [← nest_opening]
  simp [inSquareBrackets, Bracket.opening]

/-- The argument of a macro is well nested if it is so in braces. -/
theorem nested_of_macroArgument (h : macroArgument s = .ok (argument, rest))
    (hn : nest opened (inBraces argument ++ t) = some out) :
    Nested argument ∧ nest opened t = some out := by
  have hclose : nest (.curly :: opened) ('\x7d' :: t) = nest opened t :=
    (nest_closing .curly _ _).trans (if_pos rfl)
  rw [nest_inBraces_append] at hn
  obtain ⟨s', _, hcase⟩ := macroArgument_cases h
  cases hcase with
  | group hg => exact @nested_of_closing .curly _ _ _ _ (walk_of_spanGroup hg) hn
  | @word _ groups _ w hw hg =>
    have hletters := isAsciiLetter_of_mem_groupedWords hw
    rw [List.append_assoc, nest_noBracket_append (noBracket_of_isName hletters)] at hn
    obtain ⟨hgroups, hn⟩ := nested_of_absorbGroups hg hn
    exact ⟨nested_word_append hletters hgroups, hclose ▸ hn⟩
  | command s' =>
    rw [followsBrackets_nest.nested_append (nested_command s'), hclose] at hn
    exact ⟨nested_command s', hn⟩
  | @character c _ ho hc hb =>
    have hbracket : NoBracket c := noBracket_of_nest (b := .curly) ho hc hn
    have hc : Nested [c] := nested_of_noBracket (by simpa using hbracket)
    rw [followsBrackets_nest.nested_append hc, hclose] at hn
    exact ⟨hc, hn⟩

/-- A group of the type at the front of a text, if one is there, is well nested. -/
def frontNests (b : Bracket) (s : Text) : Bool :=
  match dropBlanks s with
  | [] => true
  | c :: t => c ≠ b.opening || (spanGroup b 0 t).all fun group => decide (Nested group.1)

theorem nested_of_frontNests {b : Bracket} (h : frontNests b s = true)
    (hs : dropBlanks s = b.opening :: t) (hg : spanGroup b 0 t = some (argument, rest)) :
    Nested argument := by
  unfold frontNests at h
  simpa [hs, hg] using h

/-- The argument of a function is well nested if it is so in braces, and groups
in other brackets are. -/
theorem nested_of_functionArgument (h : functionArgument s = .ok (argument, rest))
    (hround : frontNests .round s = true) (hsquare : frontNests .square s = true)
    (hn : nest opened (inBraces argument ++ t) = some out) :
    Nested argument ∧ nest opened t = some out := by
  have hclose : nest (.curly :: opened) ('\x7d' :: t) = nest opened t :=
    (nest_closing .curly _ _).trans (if_pos rfl)
  rw [nest_inBraces_append] at hn
  have hskip : Nested argument → Nested argument ∧ nest opened t = some out := by
    intro ha
    rw [followsBrackets_nest.nested_append ha, hclose] at hn
    exact ⟨ha, hn⟩
  obtain ⟨s', hs', hcase⟩ := functionArgument_cases h
  cases hcase with
  | group b hg =>
    cases b with
    | curly => exact @nested_of_closing .curly _ _ _ _ (walk_of_spanGroup hg) hn
    | round => exact hskip (nested_of_frontNests hround hs' hg)
    | square => exact hskip (nested_of_frontNests hsquare hs' hg)
  | @word _ groups _ w hw hg =>
    have hletters := isAsciiLetter_of_mem_groupedWords hw
    rw [List.append_assoc, nest_noBracket_append (noBracket_of_isName hletters)] at hn
    exact hskip (nested_word_append hletters (nested_of_absorbGroups hg hn).1)
  | command s' => exact hskip (nested_command s')
  | bare _ _ hbare =>
    refine hskip (nested_of_noBracket fun c hc => noBracket_of_lexeme_char ?_)
    rcases hbare c hc with hc | hc | rfl
    · exact .inl hc
    · exact .inr (.inl hc)
    · exact .inr (.inr (by simp))

/-! ### Macros read backwards -/

theorem nest_of_buildFraction (h : buildFraction s = .ok (replacement, rest))
    (hn : nest opened (replacement ++ rest) = some out) : nest opened s = some out := by
  obtain ⟨⟨numerator, after⟩, hnumerator, h⟩ := exists_of_bind_ok h
  obtain ⟨⟨denominator, after'⟩, hdenominator, h⟩ := exists_of_bind_ok h
  obtain ⟨rfl, rfl⟩ := Prod.mk.inj (Except.ok.inj h)
  have hname := noBracket_of_isName (s := "frac".toList) (forall_mem_of_all (by decide))
  rw [List.append_assoc, List.append_assoc, nest_noBracket_append hname] at hn
  obtain ⟨hnum, hn⟩ := nested_of_macroArgument hnumerator hn
  obtain ⟨hden, hn⟩ := nested_of_macroArgument hdenominator hn
  rw [nest_of_macroArgument hnumerator hnum, nest_of_macroArgument hdenominator hden]
  exact hn

theorem nest_of_buildRoot (h : buildRoot s = .ok (replacement, rest))
    (hn : nest opened (replacement ++ rest) = some out) : nest opened s = some out := by
  unfold buildRoot at h
  split at h
  · next hs =>
    obtain ⟨⟨degree, after⟩, hdegree, h⟩ := exists_of_bind_ok h
    obtain ⟨⟨radicand, after'⟩, hradicand, h⟩ := exists_of_bind_ok h
    obtain ⟨rfl, rfl⟩ := Prod.mk.inj (Except.ok.inj h)
    have hname := noBracket_of_isName (s := "nthroot".toList) (forall_mem_of_all (by decide))
    rw [List.append_assoc, List.append_assoc, nest_noBracket_append hname,
      nest_inSquareBrackets_append] at hn
    obtain ⟨t, ht⟩ := List.head?_eq_some_iff.mp hs
    have hsquare : Bracket.ofOpening? '[' = some .square := rfl
    have hspan : spanGroup .square 0 t = some (degree, after) := by
      simp only [ht, readGroup, hsquare] at hdegree
      split at hdegree
      · next group hgroup => rw [hgroup, Except.ok.inj hdegree]
      · cases hdegree
    obtain ⟨hdeg, hn⟩ := @nested_of_closing .square _ _ _ _ (walk_of_spanGroup hspan) hn
    obtain ⟨hrad, hn⟩ := nested_of_macroArgument hradicand hn
    rw [← followsBrackets_nest.dropBlanks, ht, ← append_of_spanGroup hspan]
    refine (@nest_group .square _ _ _ hdeg).trans ?_
    rw [nest_of_macroArgument hradicand hrad]
    exact hn
  · obtain ⟨⟨radicand, after⟩, hradicand, h⟩ := exists_of_bind_ok h
    obtain ⟨rfl, rfl⟩ := Prod.mk.inj (Except.ok.inj h)
    have hname := noBracket_of_isName (s := "sqrt".toList) (forall_mem_of_all (by decide))
    rw [List.append_assoc, nest_noBracket_append hname] at hn
    obtain ⟨hrad, hn⟩ := nested_of_macroArgument hradicand hn
    rw [nest_of_macroArgument hradicand hrad]
    exact hn

/-- A base in braces must be well nested, as it moves into square brackets. -/
theorem nest_of_buildLogBase (h : buildLogBase s = .ok (replacement, rest))
    (hcurly : frontNests .curly s = true)
    (hn : nest opened (replacement ++ rest) = some out) : nest opened s = some out := by
  obtain ⟨⟨base, after⟩, hbase, h⟩ := exists_of_bind_ok h
  obtain ⟨rfl, rfl⟩ := Prod.mk.inj (Except.ok.inj h)
  have hname := noBracket_of_isName (s := "logBase".toList) (forall_mem_of_all (by decide))
  rw [List.append_assoc, nest_noBracket_append hname, nest_inSquareBrackets_append] at hn
  have hclose : nest (.square :: opened) (']' :: after) = nest opened after :=
    (nest_closing .square _ _).trans (if_pos rfl)
  have hskip : Nested base → nest opened s = some out := by
    intro hb
    rw [followsBrackets_nest.nested_append hb, hclose] at hn
    rw [nest_of_macroArgument hbase hb]
    exact hn
  obtain ⟨s', hs', hcase⟩ := macroArgument_cases hbase
  cases hcase with
  | group hg => exact hskip (nested_of_frontNests hcurly hs' hg)
  | @word _ groups _ w hw hg =>
    have hletters := isAsciiLetter_of_mem_groupedWords hw
    rw [List.append_assoc, nest_noBracket_append (noBracket_of_isName hletters)] at hn
    exact hskip (nested_word_append hletters (nested_of_absorbGroups hg hn).1)
  | command s' => exact hskip (nested_command s')
  | @character c _ =>
    -- A square bracket as the base stands for itself between square brackets.
    rw [← followsBrackets_nest.dropBlanks, hs']
    by_cases ho : c = '['
    · subst ho
      have hopen : nest (.square :: opened) ('[' :: ']' :: after) = nest (.square :: opened) after :=
        nest_group (b := .square) (s := []) rfl
      exact (nest_opening .square opened after).trans (hopen.symm.trans hn)
    · by_cases hc : c = ']'
      · subst hc
        have hpop : nest (.square :: opened) (']' :: ']' :: after) = nest opened (']' :: after) :=
          (nest_closing .square _ _).trans (if_pos rfl)
        exact hpop.symm.trans hn
      · have hbracket : NoBracket c := noBracket_of_nest (b := .square) ho hc hn
        rw [← hs', followsBrackets_nest.dropBlanks]
        exact hskip (nested_of_noBracket (by simpa using hbracket))

/-- The argument of a function after an exponent is well nested, if it is in
round or square brackets. -/
def argumentNests (s : Text) : Bool :=
  match macroArgument s with
  | .ok (_, rest) => frontNests .round rest && frontNests .square rest
  | .error _ => true

/-- An argument in other brackets than braces must be well nested, as it moves
into braces. -/
theorem nest_of_buildFunctionPower {f : UnaryFunction}
    (h : buildFunctionPower f s = .ok (replacement, rest)) (hs : argumentNests s = true)
    (hn : nest opened (replacement ++ rest) = some out) : nest opened s = some out := by
  obtain ⟨⟨exponent, after⟩, hexponent, h⟩ := exists_of_bind_ok h
  simp only at h
  split at h
  · cases h
  · obtain ⟨⟨argument, after'⟩, hargument, h⟩ := exists_of_bind_ok h
    obtain ⟨rfl, rfl⟩ := Prod.mk.inj (Except.ok.inj h)
    simp only [argumentNests, hexponent, Bool.and_eq_true] at hs
    have happend : '(' :: f.name.toList ++ inBraces argument ++ ')' :: '^' :: inBraces exponent ++
        after' = Bracket.round.opening :: (f.name.toList ++ (inBraces argument ++
          Bracket.round.closing :: '^' :: (inBraces exponent ++ after'))) := by
      simp [Bracket.opening, Bracket.closing]
    rw [happend, nest_opening, f.nest_name_append] at hn
    obtain ⟨harg, hn⟩ := nested_of_functionArgument hargument hs.1 hs.2 hn
    rw [nest_closing, List.head?_cons, if_pos rfl, List.tail_cons, nest_cons ⟨rfl, rfl⟩] at hn
    obtain ⟨hexp, hn⟩ := nested_of_macroArgument hexponent hn
    rw [nest_of_macroArgument hexponent hexp, nest_of_functionArgument hargument harg]
    exact hn

end Nest

/-! ### Passes read backwards -/

/-- The text after the name and mark of each macro that the pass replaces meets a
condition. The part of the text before it, in reverse, is `done`. -/
def Pass.respects (pass : Pass) (condition : Text → Bool) (done : Text) (s : Text) : Bool :=
  match s with
  | [] => true
  | c :: s =>
    match _site : pass.site? c s with
    | some ⟨length, .ok (replacement, rest)⟩ =>
      condition (s.drop length) &&
        pass.respects condition done (padded done.head? rest.head? replacement ++ rest)
    | some ⟨_, .error (.unclosed _)⟩ => true
    | some ⟨_, .error .absent⟩ => pass.respects condition (c :: done) s
    | none => pass.respects condition (c :: done) s
termination_by weight s
decreasing_by
  · have := pass.lighter _site
    have := weight_padded_le done.head? rest.head? replacement
    rw [weight_append]
    omega
  all_goals exact weight_cons_le c s

theorem Pass.respects_true (p : Pass) (done s : Text) :
    p.respects (fun _ => true) done s = true := by
  fun_induction Pass.respects p (fun _ => true) done s <;> simp_all

/-- A pass whose macros do not hide that brackets are not well nested, under a
condition, does not hide it in any text in which its macros meet the condition. -/
theorem Pass.nest_of_runFrom {p : Pass} {made : Text → Text → Text → Prop} (hp : p.Builds made)
    {condition : Text → Bool} (hmade : ∀ {s replacement rest opened out},
      made s replacement rest → condition s = true →
        nest opened (replacement ++ rest) = some out → nest opened s = some out) (done s : Text) :
    p.respects condition done s = true → ∀ {opened out : List Bracket},
      nest opened (p.runFrom done s).1 = some out → nest opened (done.reverse ++ s) = some out := by
  fun_induction Pass.runFrom p done s with
  | case1 done =>
    intro _ opened out hn
    rw [List.append_nil]
    exact hn
  | case2 done c s length replacement rest hs ih =>
    intro hr opened out hn
    rw [respects] at hr
    have hcondition : condition (s.drop length) = true ∧
        p.respects condition done (padded done.head? rest.head? replacement ++ rest) = true := by
      split at hr <;> simp_all
    have hrest := ih hcondition.2 hn
    obtain ⟨hc, htake, hbuilt⟩ := hp hs
    rw [nest_append] at hrest ⊢
    obtain ⟨middle, hmiddle, hrest⟩ := Option.bind_eq_some_iff.mp hrest
    rw [followsBrackets_nest.padded_append] at hrest
    rw [hmiddle, Option.bind_some, nest_cons hc]
    have hmacro := hmade hbuilt hcondition.1 hrest
    rwa [← nest_noBracket_append htake, List.take_append_drop] at hmacro
  | case3 => exact fun _ {opened out} hn => hn
  | case4 done c s length hs ih =>
    intro hr opened out hn
    rw [respects] at hr
    have hrest : p.respects condition (c :: done) s = true := by split at hr <;> simp_all
    have hn := ih hrest hn
    rwa [List.reverse_cons, List.append_assoc] at hn
  | case5 done c s hs ih =>
    intro hr opened out hn
    rw [respects] at hr
    have hrest : p.respects condition (c :: done) s = true := by split at hr <;> simp_all
    have hn := ih hrest hn
    rwa [List.reverse_cons, List.append_assoc] at hn

end NumericAnswer
