/-
# Cosmetic substitutions before a closing brace

The cosmetic substitutions make the same of a well-nested text before a closing brace
as of the text alone, but for one thing: where they leave a backslash at its end, the
brace becomes a round bracket. The text around it then has a brace too many that opens,
which no pass makes good, and the parser refuses it.

Key definitions: `Canonical.unadorned`, `Tears`.
Key theorems: `Canonical.encloses_or_tears`, `Canonical.surplus_simplified`,
`Canonical.surplus_unadorned_enclosed`.
-/
import NumericAnswer.Proofs.Enclosed
import NumericAnswer.Proofs.Form
import NumericAnswer.Proofs.Unbalanced

namespace NumericAnswer

/-! ### Stages that look behind a backslash -/

section Escape

variable {b : Option Char} {c : Char} {s t : Text}

theorem Stage.eq_of_short_escape {rule : Rule} (h : Stage.escape rule b c s = .short) :
    c = '\\' ∧ s = [] := by
  unfold Stage.escape Stage.substitution at h
  split at h
  · cases h
  · split at h
    · next he => simpa using he
    · cases h

theorem Stage.spacing_brace (b : Option Char) (w : Text) :
    Stage.escape Rule.spacing b '\\' ('\x7d' :: w) = .nothing := by
  have hletters : leadingLetters ('\x7d' :: w) = [] := by
    simp [leadingLetters, show isAsciiLetter '\x7d' = false by decide]
  have hsign : '\x7d' ∉ Rule.spacingSigns := by decide
  simp [Stage.escape, Stage.substitution, Rule.spacing, Rule.command, hletters, hsign]

theorem Stage.escapedBrace_brace (b : Option Char) (w : Text) :
    Stage.escape Rule.escapedBrace b '\\' ('\x7d' :: w) = .step [')'] (some '\x7d') w := by
  simp [Stage.escape, Stage.substitution, Rule.escapedBrace]

/-- The stages leave a backslash at the end of the text, which takes a closing brace with
it. -/
def Tears (stages : List Stage) (s t : Text) : Prop :=
  ∃ t', t = t' ++ ['\\'] ∧ ∀ ⦃w W : Text⦄, Chain false stages w W →
    Chain false stages (s ++ '\x7d' :: w) (t' ++ ')' :: W)

theorem Tears.append_left {first second : List Stage} {u : Text} (h : Encloses first s t)
    (h' : Tears second t u) : Tears (first ++ second) s u := by
  obtain ⟨u', rfl, htorn⟩ := h'
  refine ⟨u', rfl, fun w W hw => ?_⟩
  obtain ⟨v, hv, hW⟩ := Chain.append.mp hw
  exact Chain.append.mpr ⟨_, h hv, htorn hW⟩

theorem Rewrites.encloses_or_tears (h : Rewrites false (.escape Rule.escapedBrace) b s t) :
    (∀ {w W}, Rewrites false (.escape Rule.escapedBrace) none w W →
      Rewrites false (.escape Rule.escapedBrace) b (s ++ '\x7d' :: w) (t ++ '\x7d' :: W)) ∨
    ∃ t', t = t' ++ ['\\'] ∧ ∀ {w W}, Rewrites false (.escape Rule.escapedBrace) none w W →
      Rewrites false (.escape Rule.escapedBrace) b (s ++ '\x7d' :: w) (t' ++ ')' :: W) := by
  have hl := Rule.local_escapedBrace
  induction h with
  | nil b => exact .inl fun hw => hw.brace hl b
  | @keep b c s t h _ ih =>
    have hnothing : ∀ w, Stage.escape Rule.escapedBrace b c (s ++ '\x7d' :: w) = .nothing :=
      fun w => hl.nothing h (closes_brace w)
    rcases ih with hgood | ⟨t', rfl, htorn⟩
    · exact .inl fun hw => .keep (hnothing _) (hgood hw)
    · exact .inr ⟨c :: t', rfl, fun hw => .keep (hnothing _) (htorn hw)⟩
  | @move b b' c s out rest t h ht ih =>
    have hstep : ∀ w, ∃ b'', Stage.escape Rule.escapedBrace b c (s ++ '\x7d' :: w) =
        .step out b'' (rest ++ '\x7d' :: w) ∧ (rest ≠ [] → b'' = b') := by
      intro w
      rcases hl.step h (closes_brace w) with hstep | ⟨rfl, b'', hstep⟩
      · exact ⟨b', hstep, fun _ => rfl⟩
      · rw [dropBlanks_cons_of_not_isBlank (by decide)] at hstep
        exact ⟨b'', hstep, fun hne => absurd rfl hne⟩
    by_cases hrest : rest = []
    · subst hrest
      refine .inl fun {w W} hw => ?_
      obtain ⟨b'', hb, -⟩ := hstep w
      rw [ht.eq_nil, List.append_assoc]
      exact .move hb (hw.brace hl b'')
    · rcases ih with hgood | ⟨t', rfl, htorn⟩
      · refine .inl fun {w W} hw => ?_
        obtain ⟨b'', hb, hsame⟩ := hstep w
        rw [List.append_assoc]
        exact .move hb (hsame hrest ▸ hgood hw)
      · refine .inr ⟨out ++ t', by simp, fun {w W} hw => ?_⟩
        obtain ⟨b'', hb, hsame⟩ := hstep w
        rw [List.append_assoc]
        exact .move hb (hsame hrest ▸ htorn hw)
  | @leave b c s t _ h ht _ =>
    obtain ⟨rfl, rfl⟩ := Stage.eq_of_short_escape h
    rw [ht.eq_nil]
    refine .inr ⟨[], rfl, fun {w W} hw => ?_⟩
    exact @Rewrites.move _ _ _ _ _ _ [')'] _ _ (Stage.escapedBrace_brace b w)
      (hw.of_before hl (by decide +kernel))
  | quit _ h => exact absurd h Stage.substitution_ne_unclosed

/-- The substitution of escaped braces makes the same of a text before a closing brace, or
takes the brace with it. -/
theorem Stage.escapedBrace_encloses_or_tears (s : Text) :
    Encloses [.escape Rule.escapedBrace] s (substitute Rule.escapedBrace s) ∨
      Tears [.escape Rule.escapedBrace] s (substitute Rule.escapedBrace s) := by
  have hrun : Rewrites false (.escape Rule.escapedBrace) none s (substitute Rule.escapedBrace s) :=
    rewrites_substituteFrom none s
  refine hrun.encloses_or_tears.imp (fun hgood => ?_) fun ⟨t', ht, htorn⟩ => ⟨t', ht, ?_⟩
  · rintro w W ⟨_, hw, rfl⟩
    exact ⟨_, hgood hw, rfl⟩
  · rintro w W ⟨_, hw, rfl⟩
    exact ⟨_, htorn hw, rfl⟩

theorem Stage.encloses_spacing (s : Text) :
    Encloses [.escape Rule.spacing] s (substitute Rule.spacing s) := by
  have hrun : Rewrites false (.escape Rule.spacing) none s (substitute Rule.spacing s) :=
    rewrites_substituteFrom none s
  rintro w W ⟨_, hw, rfl⟩
  refine ⟨_, hrun.encloses Rule.local_spacing ?_
    (fun _ _ _ _ => Stage.substitution_ne_unclosed) hw, rfl⟩
  rintro - b c s h w
  obtain ⟨rfl, rfl⟩ := Stage.eq_of_short_escape h
  exact Stage.spacing_brace b w

end Escape

/-! ### All cosmetic stages -/

namespace Canonical

/-- The cosmetic stages before escaped braces. -/
def bracingStages : List Stage :=
  [.always Rule.style, .always Rule.sizing, .escape Rule.spacing,
   .wrapper Rule.annotationNames Rule.annotation, .wrapper Rule.uprightNames Rule.upright,
   .always Rule.bar]

/-- The text without the cosmetic macros that are not escaped braces. -/
def unstyled (s : Text) : Text :=
  substitute Rule.bar (substitute Rule.upright (substitute Rule.annotation
    (substitute Rule.spacing (substitute Rule.sizing (substitute Rule.style s)))))

theorem encloses_unstyled {s : Text} (hs : Nested s) : Encloses bracingStages s (unstyled s) := by
  have hrun : ∀ {rule : Rule} {ended : Char → Text → Bool} (s : Text),
      Rewrites false (.substitution (fun _ => rule) ended) none s (substitute rule s) :=
    fun s => rewrites_substituteFrom none s
  have hlocal : ∀ stage ∈ cosmeticStages, stage.Local := local_of_mem_cosmeticStages
  simp only [cosmeticStages, List.forall_mem_cons] at hlocal
  obtain ⟨hstyle, hsizing, -, hannotation, hupright, hbar, -⟩ := hlocal
  have hnested : Nested (substitute Rule.spacing (substitute Rule.sizing
      (substitute Rule.style s))) := by
    have hplain := followsBrackets_nest
    show nest [] _ = some []
    rw [scan_substitute_plain hplain Rule.plain_spacing,
      scan_substitute_plain hplain Rule.plain_sizing,
      scan_substitute_plain hplain Rule.plain_style]
    exact hs
  have hempty : ∀ content opened, nest opened content = some opened →
      nest opened ((fun _ => []) content) = some opened := fun _ _ _ => rfl
  have hnested' : Nested (substitute Rule.annotation (substitute Rule.spacing
      (substitute Rule.sizing (substitute Rule.style s)))) :=
    (hrun _).scan nest_append (nest_of_step_wrapper hempty) hnested
  have hearly : Encloses [.always Rule.style, .always Rule.sizing, .escape Rule.spacing] s _ :=
    (((hrun s).toStrict_always.encloses_stage hstyle).append
      ((hrun _).toStrict_always.encloses_stage hsizing)).append (Stage.encloses_spacing _)
  have hwrappers : Encloses [.wrapper Rule.annotationNames Rule.annotation,
      .wrapper Rule.uprightNames Rule.upright] _ _ :=
    (((hrun _).toStrict_wrapper hempty hnested).encloses_stage hannotation).append
      (((hrun _).toStrict_wrapper nest_upright hnested').encloses_stage hupright)
  exact (hearly.append hwrappers).append ((hrun _).toStrict_always.encloses_stage hbar)

/-- The text without cosmetic macros. -/
def unadorned (s : Text) : Text :=
  substitute Rule.escapedBrace (unstyled s)

theorem simplified_eq_unadorned (s : Text) : simplified s = unadorned (unwrapped s) := rfl

/-- The cosmetic substitutions make the same of a well-nested text before a closing brace,
or take the brace with them. -/
theorem encloses_or_tears {s : Text} (hs : Nested s) :
    Encloses cosmeticStages s (unadorned s) ∨ Tears cosmeticStages s (unadorned s) := by
  have hunstyled := encloses_unstyled hs
  exact (Stage.escapedBrace_encloses_or_tears (unstyled s)).imp hunstyled.append
    (Tears.append_left hunstyled)

theorem chain_unadorned (s : Text) : Chain false cosmeticStages s (unadorned s) :=
  ⟨_, rewrites_substituteFrom _ _, _, rewrites_substituteFrom _ _, _, rewrites_substituteFrom _ _,
    _, rewrites_substituteFrom _ _, _, rewrites_substituteFrom _ _, _, rewrites_substituteFrom _ _,
    _, rewrites_substituteFrom _ _, rfl⟩

/-! ### Accepted texts -/

/-- The cosmetic substitutions leave as many opening brackets of each type in an
accepted answer as closing ones. -/
theorem surplus_simplified {calls : Nat} {answer : Text} {z : Expr}
    (h : Expr.parseWithin calls (canonical answer) = .ok z) (b : Bracket) :
    surplus b (simplified answer) = 0 := by
  rw [surplus_chain_passStages (chain_afterPasses (simplified answer))]
  exact surplus_of_nested (nested_afterPasses h) b

section Enclosed

variable {l m x y : Text}

/-- A torn text takes a closing brace away. -/
theorem surplus_torn {s s' : Text} (hs : Nested s) (h : s = s' ++ ['\\']) :
    surplus .curly s' = 0 := by
  have hsurplus := surplus_of_nested hs .curly
  rw [h, surplus_append, show surplus .curly ['\\'] = 0 by decide] at hsurplus
  omega

/-- A torn text between pieces that open a brace each leaves too few closing braces. -/
theorem surplus_unadorned_enclosed (hl : Turns cosmeticStages l l) (hm : Turns cosmeticStages m m)
    (hx : Nested x) (hy : Nested y) (hx' : Nested (unadorned x)) (hy' : Nested (unadorned y))
    (hopens : surplus .curly l = 1 ∧ surplus .curly m = 1)
    (htears : Tears cosmeticStages x (unadorned x) ∨ Tears cosmeticStages y (unadorned y)) :
    surplus .curly (unadorned (enclosed l x m y)) ≠ 0 := by
  have hclosing : surplus .curly ['\x7d'] = -1 ∧ surplus .curly [')'] = 0 := by decide
  have hzero : ∀ {s s' : Text}, Nested s → s = s' ++ ['\\'] →
      surplus .curly (s' ++ [')']) = 0 := fun hs h => by
    rw [surplus_append, surplus_torn hs h, hclosing.2]
    rfl
  have hone : ∀ {s : Text}, Nested s → surplus .curly (s ++ ['\x7d']) = -1 := fun hs => by
    rw [surplus_append, surplus_of_nested hs, hclosing.1]
    rfl
  have hsplit : ∀ (x' y' : Text) (c : Char), surplus .curly (l ++ (x' ++ c :: (m ++ y'))) =
      2 + surplus .curly (x' ++ [c]) + surplus .curly y' := fun x' y' c => by
    rw [surplus_append, surplus_append, surplus_cons, surplus_append, surplus_append, hopens.1,
      hopens.2]
    omega
  -- The second text takes at most one closing brace away, and the first one another one.
  have hsecond : ∃ y', (Tears cosmeticStages y (unadorned y) → surplus .curly y' = 0) ∧
      -1 ≤ surplus .curly y' ∧ Chain false cosmeticStages (y ++ ['\x7d']) y' := by
    by_cases ht : Tears cosmeticStages y (unadorned y)
    · obtain ⟨y', hy'', htorn⟩ := ht
      exact ⟨_, fun _ => hzero hy' hy'', by rw [hzero hy' hy'']; decide, htorn (chain_nil _)⟩
    · have hgood := (encloses_or_tears hy).resolve_right ht
      exact ⟨_, fun h => absurd h ht, Int.le_of_eq (hone hy').symm, hgood (chain_nil _)⟩
  obtain ⟨y', hcases, hbound, hrest⟩ := hsecond
  have hchain := chain_unadorned (enclosed l x m y)
  by_cases ht : Tears cosmeticStages x (unadorned x)
  · obtain ⟨x', hx'', htorn⟩ := ht
    rw [hchain.unique (hl (htorn (hm hrest))), hsplit, hzero hx' hx'']
    omega
  · have hgood := (encloses_or_tears hx).resolve_right ht
    rw [hchain.unique (hl (hgood (hm hrest))), hsplit, hone hx', hcases (htears.resolve_left ht)]
    decide

end Enclosed

end Canonical

end NumericAnswer
