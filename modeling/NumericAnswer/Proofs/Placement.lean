/-
# The place of an exponent

The exponent of a function's power stands ahead of the argument or behind it. Ahead of
the argument, a pass moves it behind; and what the other stages make of the two texts in
between does not depend on their order. So both texts stand for the same expression, or
the parser refuses both of them.

Key definitions: `Placement`, `Placement.written`, `Placement.plain`, `StaysNested`.
Key theorems: `Placement.refused_or_canonical`, `Placement.exists_sums`,
`Placement.parseWithin_plain`, `Placement.parse_placed`.
-/
import NumericAnswer.Proofs.Leading
import NumericAnswer.Proofs.Rereading
import NumericAnswer.Proofs.Splitting
import NumericAnswer.Proofs.Stability

namespace NumericAnswer

/-! ### Stages on pieces -/

section Pieces

variable {stages : List Stage} {n r : Text} {c : Char}

theorem PlainPiece.turns {l : Text} (h : PlainPiece l) (hl : ∀ stage ∈ stages, stage.Local) :
    Turns stages l l := by
  obtain ⟨hp, d, hd, hapart⟩ := h
  exact turns_plain hp (by rw [hd]; exact hapart) hl

/-- A text that no stage looks at stays. -/
theorem encloses_plain {s : Text} (hp : ∀ c ∈ s, c ∉ triggers) (hl : ∀ stage ∈ stages, stage.Local) :
    Encloses stages s s := by
  have hpiece : PlainPiece (s ++ ['\x7d']) := .append hp (by decide +kernel)
  intro w W h
  have hturned := hpiece.turns hl h
  rwa [List.append_assoc, List.append_assoc] at hturned

/-- A command that no stage looks for stays. -/
theorem turns_command (hl : ∀ stage ∈ stages, stage.Local) (hi : ∀ stage ∈ stages, stage.Ignores n c)
    (hn : PlainPiece (n ++ c :: r)) :
    Turns stages ('\\' :: (n ++ c :: r)) ('\\' :: (n ++ c :: r)) := by
  induction stages with
  | nil => exact fun s t h => by rw [show s = t from h]; rfl
  | cons stage stages ih =>
    rintro s t ⟨u, hu, ht⟩
    have hlocal := hl stage (List.mem_cons_self ..)
    have hnothing : stage none '\\' (n ++ c :: r ++ s) = .nothing := by
      rw [List.append_assoc]
      exact hi stage (List.mem_cons_self ..) none (r ++ s)
    have hpiece : Rewrites false stage (some '\\') (n ++ c :: r ++ s) (n ++ c :: r ++ u) := by
      obtain ⟨hp, d, hd, hapart⟩ := hn
      refine rewrites_plain_append hlocal hp (hu.of_before hlocal ?_)
      rw [hd]
      exact hapart.symm
    exact ⟨_, .keep hnothing hpiece, ih (fun stage h => hl stage (List.mem_cons_of_mem _ h))
      (fun stage h => hi stage (List.mem_cons_of_mem _ h)) ht⟩

/-- The command of a function becomes its name before a brace. -/
theorem turns_functionName {f : UnaryFunction} (hf : f ∈ UnaryFunction.commands) :
    Turns [.wording Rule.functionName] ('\\' :: (f.name.toList ++ ['\x7b']))
      (f.name.toList ++ ['\x7b']) := by
  rintro s _ ⟨u, hu, rfl⟩
  have hl := Composition.local_functionName
  have hstep := Stage.step_functionName hf (c := '\x7b') (by decide) none s
  have hpadded : padded none (some '\x7b') f.name.toList = f.name.toList :=
    padded_of_apart rfl (by decide +kernel)
  rw [hpadded] at hstep
  have hbrace : Rewrites false (.wording Rule.functionName) ('\\' :: f.name.toList).getLast?
      ('\x7b' :: s) ('\x7b' :: u) :=
    .keep (hl.plain _ _ (by decide)) (hu.of_before hl (by decide +kernel))
  have hmove := Rewrites.move hstep hbrace
  exact ⟨_, by simpa using hmove, rfl⟩

end Pieces

/-! ### Texts -/

/-- What a command begins and a brace ends has no wrapper. -/
theorem unwrapped_of_command {d : Char} (hd : isAsciiLetter d = true) (s : Text) :
    unwrapped ('\\' :: d :: (s ++ ['\x7d'])) = '\\' :: d :: (s ++ ['\x7d']) := by
  have hreverse : ('\\' :: d :: (s ++ ['\x7d'])).reverse = '\x7d' :: ('\\' :: d :: s).reverse := by
    simp
  have hstrip : strip ('\\' :: d :: (s ++ ['\x7d'])) = '\\' :: d :: (s ++ ['\x7d']) :=
    strip_eq_self (show isBlank '\\' = false by decide) (by
      rw [← List.head?_reverse, hreverse]
      exact (by decide : isBlank '\x7d' = false))
  have hdollars : stripDollars ('\\' :: d :: (s ++ ['\x7d'])) = '\\' :: d :: (s ++ ['\x7d']) := by
    have hfront : ('\\' :: d :: (s ++ ['\x7d'])).dropWhile (· = '$') = _ :=
      List.dropWhile_cons_of_neg (by decide)
    rw [stripDollars, hfront, hreverse, List.dropWhile_cons_of_neg (by decide), ← hreverse,
      List.reverse_reverse]
  have hopening : dropDisplayOpening ('\\' :: d :: (s ++ ['\x7d'])) = '\\' :: d :: (s ++ ['\x7d']) := by
    unfold dropDisplayOpening
    split
    · next heq =>
      rw [(List.cons.inj (List.cons.inj heq).2).1] at hd
      cases hd
    · next heq =>
      rw [(List.cons.inj (List.cons.inj heq).2).1] at hd
      cases hd
    · rfl
  have hclosing : dropDisplayClosing ('\\' :: d :: (s ++ ['\x7d'])) = '\\' :: d :: (s ++ ['\x7d']) := by
    unfold dropDisplayClosing
    rw [hreverse]
    rfl
  rw [unwrapped, hstrip, hdollars, hstrip, hopening, hclosing, hstrip]

/-- A text without bars is a sum where the parser reads it. -/
theorem sums_iff {calls : Nat} {t : Text} {x : Expr} (ht : '|' ∉ t) :
    Sums calls t x ↔ Expr.parseWithin calls t = .ok x := by
  constructor
  · rintro ⟨u, us, hbars, hslash, hlexes, hfills⟩
    rw [← hbars.expandBars, expandBars_eq_self ht] at hlexes
    exact Expr.parseWithin_of_fills hlexes (hfills _)
  · intro h
    obtain ⟨ts, hlexes, hrun, hsum⟩ := Expr.exists_lexes_of_parseWithin h
    have hself := expandBars_eq_self ht
    have hbars := BarsPair.of_expandBars (hself.symm ▸ ht) (hself.symm ▸ hlexes.nest hrun)
    rw [hself] at hbars
    exact ⟨t, _, hbars, hlexes.notMem_of_run hrun '\\' (by simp), hlexes, fun _ => .of_sum hsum⟩

/-- Where the exponent of a function's power stands: ahead of the argument or behind it. -/
inductive Placement where
  | ahead
  | behind
  deriving DecidableEq, Repr

/-- The brackets of the text nest, and still do without its cosmetic macros. -/
structure StaysNested (s : Text) : Prop where
  nested : Nested s
  unadorned : Nested (Canonical.unadorned s)

instance (s : Text) : Decidable (StaysNested s) :=
  decidable_of_iff (Nested s ∧ Nested (Canonical.unadorned s))
    ⟨fun h => ⟨h.1, h.2⟩, fun h => ⟨h.1, h.2⟩⟩

/-- The parser refuses the canonical form of the answer, however many calls may nest. -/
def Refused (answer : Text) : Prop :=
  ∀ calls z, Expr.parseWithin calls (canonical answer) ≠ .ok z

theorem canonical_eq_of_late {answer W : Text}
    (h : Chain false Canonical.lateStages (Canonical.simplified answer) W) :
    canonical answer = collapse (expandBars W) := by
  obtain ⟨u, t, hu, ht, hcanonical⟩ := exists_chain_of_canonical answer
  have hchain : Chain false Canonical.lateStages (Canonical.simplified answer) t :=
    Chain.append.mpr ⟨u, hu, ht⟩
  rw [hcanonical, hchain.unique h]

theorem refused_of_hollow {answer : Text}
    (h : ∀ W, Chain false Canonical.lateStages (Canonical.simplified answer) W → Hollow W) :
    Refused answer := by
  obtain ⟨W, hW⟩ := exists_chain_late (fun _ h => h) (Canonical.simplified answer)
  intro calls z hz
  rw [canonical_eq_of_late hW] at hz
  exact Expr.not_hollow_of_parseWithin hz (h W hW)

namespace Placement

/-- The exponent and the argument in the order of the text. -/
def pair (n x : Text) : Placement → Text × Text
  | ahead => (n, x)
  | behind => (x, n)

theorem pair_of {P : Text → Text → Prop} {n n' x x' : Text} (p : Placement) (hn : P n n')
    (hx : P x x') : P (p.pair n x).1 (p.pair n' x').1 ∧ P (p.pair n x).2 (p.pair n' x').2 := by
  cases p
  · exact ⟨hn, hx⟩
  · exact ⟨hx, hn⟩

section Texts

variable (f : UnaryFunction)

/-- The pieces of a power of the function. -/
def front : Placement → Text
  | ahead => '\\' :: (f.name.toList ++ ['^', '\x7b'])
  | behind => '\\' :: (f.name.toList ++ ['\x7b'])

def gap : Placement → Text
  | ahead => ['\x7b']
  | behind => ['^', '\x7b']

/-- A power of the function, with an exponent and an argument. -/
def written (n x : Text) (p : Placement) : Text :=
  enclosed (p.front f) (p.pair n x).1 p.gap (p.pair n x).2

/-- The pieces once the exponent is behind the argument. -/
def moved : Placement → Text
  | ahead => '(' :: (f.name.toList ++ ['\x7b'])
  | behind => '\\' :: (f.name.toList ++ ['\x7b'])

def middle : Placement → Text
  | ahead => [')', '^', '\x7b']
  | behind => ['^', '\x7b']

/-- The first piece once the command has become the name. -/
def opening : Placement → Text
  | ahead => '(' :: (f.name.toList ++ ['\x7b'])
  | behind => f.name.toList ++ ['\x7b']

/-- What the stages make of a power. -/
def plain (n x : Text) (p : Placement) : Text :=
  enclosed (p.opening f) x p.middle n

end Texts

/-! ### What the stages make of a power -/

/-- The stages before the powers of functions, after the cosmetic ones. -/
def earlyStages : List Stage :=
  [.strictPass .fraction, .strictPass .root, .strictPass .logBase]

/-- The stage of the powers of functions and those after it. -/
def laterStages : List Stage :=
  .functionPower :: Canonical.wordStages

theorem earlyStages_append : earlyStages ++ laterStages = Canonical.lateStages := rfl

theorem late_of_mem_earlyStages : ∀ stage ∈ earlyStages, stage ∈ Canonical.lateStages :=
  fun _ h => earlyStages_append ▸ List.mem_append_left _ h

theorem late_of_mem_laterStages : ∀ stage ∈ laterStages, stage ∈ Canonical.lateStages :=
  fun _ h => earlyStages_append ▸ List.mem_append_right _ h

theorem plainPiece_between (p : Placement) : PlainPiece p.gap ∧ PlainPiece p.middle := by
  cases p <;> decide +kernel

theorem plainPiece_name (f : UnaryFunction) {l : Text} (h : PlainPiece l) :
    PlainPiece (f.name.toList ++ l) :=
  .append f.notMem_triggers h

theorem plainPiece_opening (p : Placement) (f : UnaryFunction) : PlainPiece (p.opening f) := by
  have hname : PlainPiece (f.name.toList ++ ['\x7b']) := plainPiece_name f (by decide +kernel)
  cases p with
  | ahead => exact .append (p := ['(']) (List.forall_mem_singleton.mpr (by decide)) hname
  | behind => exact hname

section Stages

variable {f : UnaryFunction} (hf : f ∈ UnaryFunction.commands) {n n' x x' W : Text}

include hf in
/-- The command before the sign of a power or a brace is none that other stages look for. -/
theorem turns_front {stages : List Stage} (hs : ∀ stage ∈ stages,
    stage ∈ Canonical.cosmeticStages ++ earlyStages) (p : Placement) :
    Turns stages (p.front f) (p.front f) := by
  have hlocal : ∀ stage ∈ stages, stage.Local := by
    intro stage h
    rcases List.mem_append.mp (hs stage h) with h | h
    · exact Canonical.local_of_mem_cosmeticStages stage h
    · exact Stage.local_of_late (late_of_mem_earlyStages stage h)
  have hignores : ∀ c ∈ ['^', '\x7b'], ∀ stage ∈ stages, stage.Ignores f.name.toList c := by
    intro c hc stage h b s
    have hsigns : isAsciiLetter c = false ∧ isBlank c = false ∧ c ≠ '_' := by
      simp only [List.mem_cons, List.not_mem_nil, or_false] at hc
      rcases hc with rfl | rfl <;> decide
    exact Stage.eq_nothing_of_early hf hsigns.1 (markLength?_cons hsigns.2.1 hsigns.2.2 s) stage
      (hs stage h) b
  cases p with
  | ahead => exact turns_command hlocal (hignores '^' (by simp)) (plainPiece_name f (by decide +kernel))
  | behind =>
    exact turns_command hlocal (hignores '\x7b' (by simp)) (plainPiece_name f (by decide +kernel))

include hf in
theorem turns_moved (p : Placement) : Turns laterStages (p.moved f) (p.opening f) := by
  have hlocal : ∀ stage ∈ laterStages, stage.Local :=
    fun stage h => Stage.local_of_late (late_of_mem_laterStages stage h)
  cases p with
  | ahead => exact (ahead.plainPiece_opening f).turns hlocal
  | behind =>
    have hpower : Turns [.functionPower] (behind.moved f) (behind.moved f) := by
      refine turns_command (by simpa using Stage.local_functionPower) ?_ (behind.plainPiece_opening f)
      simpa using Stage.ignores_functionPower f.isName (by decide) (by decide) (by decide)
    have hlast : Turns [.always Rule.sign, .wording Rule.pi, .wording Rule.e]
        (behind.opening f) (behind.opening f) := (behind.plainPiece_opening f).turns
      fun stage h => hlocal stage (List.mem_cons_of_mem _ (List.mem_cons_of_mem _ h))
    exact hpower.append ((turns_functionName hf).append hlast)

include hf in
/-- The pass moves the exponent behind the argument. -/
theorem chain_moved (hn : Counted n) (hx : Counted x) (hminus : (strip n).head? ≠ some '-')
    (p : Placement) (h : Chain false laterStages (enclosed (p.moved f) x p.middle n) W) :
    Chain false laterStages (p.written f n x) W := by
  cases p with
  | ahead =>
    obtain ⟨u, hu, hW⟩ := h
    have hbuild := buildFunctionPower_braces (hn .curly) (hx .curly) f hminus []
    have hstep := Stage.step_functionPower hf hbuild none
    have hmoved : enclosed (ahead.moved f) x ahead.middle n =
        '(' :: f.name.toList ++ inBraces x ++ ')' :: '^' :: inBraces n ++ [] := by
      simp [enclosed, moved, middle, inBraces]
    have hwritten : ahead.written f n x = '\\' :: (f.name.toList ++
        '^' :: ('\x7b' :: (n ++ '\x7d' :: '\x7b' :: (x ++ '\x7d' :: [])))) := by
      simp [written, pair, enclosed, front, gap]
    rw [hmoved] at hu
    rw [hwritten]
    exact ⟨_, .move hstep hu, hW⟩
  | behind => exact h

include hf in
theorem surplus_pieces (p : Placement) :
    surplus .curly (p.front f) = 1 ∧ surplus .curly p.gap = 1 := by
  have hall : ∀ f ∈ UnaryFunction.commands, ∀ p ∈ [ahead, behind],
      surplus .curly (p.front f) = 1 ∧ surplus .curly p.gap = 1 := by decide
  exact hall f hf p (by cases p <;> simp)

/-- Nothing is wrapped around a power. -/
theorem unwrapped_written (p : Placement) : unwrapped (p.written f n x) = p.written f n x := by
  obtain ⟨d, name, hname, hd⟩ : ∃ d name, f.name.toList = d :: name ∧ isAsciiLetter d = true := by
    cases hs : f.name.toList with
    | nil => exact absurd hs f.isName.1
    | cons d name => exact ⟨d, name, rfl, f.isName.2 d (by rw [hs]; exact List.mem_cons_self ..)⟩
  have happ : ∃ s, p.written f n x = '\\' :: d :: (s ++ ['\x7d']) := by
    cases p with
    | ahead =>
      exact ⟨name ++ '^' :: '\x7b' :: (n ++ '\x7d' :: '\x7b' :: x),
        by simp [written, pair, front, gap, enclosed, hname]⟩
    | behind =>
      exact ⟨name ++ '\x7b' :: (x ++ '\x7d' :: '^' :: '\x7b' :: n),
        by simp [written, pair, front, gap, enclosed, hname]⟩
  obtain ⟨s, hs⟩ := happ
  rw [hs]
  exact unwrapped_of_command hd s

/-! ### Refused or canonical -/

include hf

/-- The cosmetic stages turn the exponent and the argument. -/
theorem simplified_written (hn : Encloses Canonical.cosmeticStages n n')
    (hx : Encloses Canonical.cosmeticStages x x') (p : Placement) :
    Canonical.simplified (p.written f n x) = p.written f n' x' := by
  obtain ⟨hfirst, hsecond⟩ := p.pair_of hn hx
  have hgap := p.plainPiece_between.1.turns Canonical.local_of_mem_cosmeticStages
  have hfront := turns_front hf (fun _ h => List.mem_append_left _ h) p
  rw [Canonical.simplified_eq_unadorned, unwrapped_written]
  exact (Canonical.chain_unadorned _).unique (chain_enclosed hfront hfirst hgap hsecond)

theorem refused_of_tears (hn : StaysNested n) (hx : StaysNested x)
    (h : Tears Canonical.cosmeticStages n (Canonical.unadorned n) ∨
      Tears Canonical.cosmeticStages x (Canonical.unadorned x)) (p : Placement) :
    Refused (p.written f n x) := by
  obtain ⟨hfirst, hsecond⟩ := @pair_of (fun s _ => StaysNested s) _ n _ x p hn hx
  have htears : Tears Canonical.cosmeticStages (p.pair n x).1 (Canonical.unadorned (p.pair n x).1) ∨
      Tears Canonical.cosmeticStages (p.pair n x).2 (Canonical.unadorned (p.pair n x).2) := by
    cases p
    · exact h
    · exact h.symm
  have hgap := p.plainPiece_between.1.turns Canonical.local_of_mem_cosmeticStages
  have hfront := turns_front hf (fun _ h => List.mem_append_left _ h) p
  intro calls z hz
  have hsurplus := Canonical.surplus_simplified hz .curly
  rw [Canonical.simplified_eq_unadorned, unwrapped_written] at hsurplus
  exact Canonical.surplus_unadorned_enclosed hfront hgap hfirst.nested hsecond.nested
    hfirst.unadorned hsecond.unadorned (surplus_pieces hf p) htears hsurplus

theorem chain_early (hn : Encloses earlyStages n n') (hx : Encloses earlyStages x x')
    (p : Placement) : Chain false earlyStages (p.written f n x) (p.written f n' x') := by
  obtain ⟨hfirst, hsecond⟩ := p.pair_of hn hx
  have hgap := p.plainPiece_between.1.turns fun stage h =>
    Stage.local_of_late (late_of_mem_earlyStages stage h)
  exact chain_enclosed (turns_front hf (fun _ h => List.mem_append_right _ h) p) hfirst hgap hsecond

theorem hollow_early (hn : Nested n) (hx : Nested x)
    (h : Spoils earlyStages n ∨ Spoils earlyStages x) (p : Placement)
    (hW : Chain false earlyStages (p.written f n x) W) : Hollow W := by
  obtain ⟨hfirst, -⟩ := @pair_of (fun s _ => Nested s) _ n _ x p hn hx
  have hspoils : Spoils earlyStages (p.pair n x).1 ∨ Spoils earlyStages (p.pair n x).2 := by
    cases p
    · exact h
    · exact h.symm
  have hgap := p.plainPiece_between.1.turns fun stage h =>
    Stage.local_of_late (late_of_mem_earlyStages stage h)
  exact hollow_enclosed late_of_mem_earlyStages
    (turns_front hf (fun _ h => List.mem_append_right _ h) p) hgap hfirst hspoils hW

theorem chain_later (hn : Nested n) (hx : Nested x) (hminus : (strip n).head? ≠ some '-')
    (hn' : Encloses laterStages n n') (hx' : Encloses laterStages x x') (p : Placement) :
    Chain false laterStages (p.written f n x) (p.plain f n' x') := by
  have hmiddle := p.plainPiece_between.2.turns fun stage h =>
    Stage.local_of_late (late_of_mem_laterStages stage h)
  exact chain_moved hf (counted_of_nested hn) (counted_of_nested hx) hminus p
    (chain_enclosed (turns_moved hf p) hx' hmiddle hn')

theorem hollow_later (hn : Nested n) (hx : Nested x) (hminus : (strip n).head? ≠ some '-')
    (h : Spoils laterStages n ∨ Spoils laterStages x) (p : Placement)
    (hW : Chain false laterStages (p.written f n x) W) : Hollow W := by
  have hmiddle := p.plainPiece_between.2.turns fun stage h =>
    Stage.local_of_late (late_of_mem_laterStages stage h)
  obtain ⟨V, hV⟩ := exists_chain_late late_of_mem_laterStages (enclosed (p.moved f) x p.middle n)
  have hmoved := chain_moved hf (counted_of_nested hn) (counted_of_nested hx) hminus p hV
  obtain rfl := hW.unique hmoved
  exact hollow_enclosed late_of_mem_laterStages (turns_moved hf p) hmiddle hx h.symm hV

/-- The parser refuses a power in both its forms, or the canonical forms of both have the
same exponent and the same argument. -/
theorem refused_or_canonical (hn : StaysNested n) (hx : StaysNested x)
    (hminus : ∀ n', Encloses earlyStages (Canonical.unadorned n) n' →
      (strip n').head? ≠ some '-') :
    (∀ p : Placement, Refused (p.written f n x)) ∨ ∃ n' x', Nested n' ∧ Nested x' ∧
      ∀ p : Placement, canonical (p.written f n x) = collapse (expandBars (p.plain f n' x')) := by
  by_cases htears : Tears Canonical.cosmeticStages n (Canonical.unadorned n) ∨
      Tears Canonical.cosmeticStages x (Canonical.unadorned x)
  · exact .inl (refused_of_tears hf hn hx htears)
  rw [not_or] at htears
  have hsimplified := simplified_written hf
    ((Canonical.encloses_or_tears hn.nested).resolve_right htears.1)
    ((Canonical.encloses_or_tears hx.nested).resolve_right htears.2)
  -- The passes before the powers of functions.
  have hearly : (Spoils earlyStages (Canonical.unadorned n) ∨
      Spoils earlyStages (Canonical.unadorned x)) → ∀ p : Placement, Refused (p.written f n x) := by
    intro hbad p
    refine refused_of_hollow fun W hW => ?_
    rw [hsimplified, ← earlyStages_append] at hW
    obtain ⟨V, hV, hW⟩ := Chain.append.mp hW
    exact hW.hollow_late late_of_mem_laterStages
      (hollow_early hf hn.unadorned hx.unadorned hbad p hV)
  rcases encloses_or_spoils_chain late_of_mem_earlyStages hn.unadorned with ⟨n₁, hn₁, hne⟩ | hbad
  swap
  · exact .inl (hearly (.inl hbad))
  rcases encloses_or_spoils_chain late_of_mem_earlyStages hx.unadorned with ⟨x₁, hx₁, hxe⟩ | hbad
  swap
  · exact .inl (hearly (.inr hbad))
  have hchain := chain_early hf hne hxe
  -- The pass over them and the words.
  have hlater : (Spoils laterStages n₁ ∨ Spoils laterStages x₁) →
      ∀ p : Placement, Refused (p.written f n x) := by
    intro hbad p
    refine refused_of_hollow fun W hW => ?_
    rw [hsimplified, ← earlyStages_append] at hW
    obtain ⟨V, hV, hW⟩ := Chain.append.mp hW
    obtain rfl := hV.unique (hchain p)
    exact hollow_later hf hn₁ hx₁ (hminus n₁ hne) hbad p hW
  rcases encloses_or_spoils_chain late_of_mem_laterStages hn₁ with ⟨n₂, hn₂, hne'⟩ | hbad
  swap
  · exact .inl (hlater (.inl hbad))
  rcases encloses_or_spoils_chain late_of_mem_laterStages hx₁ with ⟨x₂, hx₂, hxe'⟩ | hbad
  swap
  · exact .inl (hlater (.inr hbad))
  refine .inr ⟨n₂, x₂, hn₂, hx₂, fun p => canonical_eq_of_late ?_⟩
  rw [hsimplified, ← earlyStages_append]
  exact Chain.append.mpr ⟨_, hchain p, chain_later hf hn₁ hx₁ (hminus n₁ hne) hne' hxe' p⟩

/-- A power of texts that no stage looks at keeps them. -/
theorem canonical_written (hn : Nested n) (hx : Nested x) (hpn : ∀ c ∈ n, c ∉ triggers)
    (hpx : ∀ c ∈ x, c ∉ triggers) (hminus : (strip n).head? ≠ some '-') (p : Placement) :
    canonical (p.written f n x) = collapse (expandBars (p.plain f n x)) := by
  have hlate : ∀ stage ∈ earlyStages ++ laterStages, stage.Local := fun _ h => Stage.local_of_late h
  obtain ⟨hearly, hlater⟩ := List.forall_mem_append.mp hlate
  have hcosmetic := Canonical.local_of_mem_cosmeticStages
  have hsimplified := simplified_written hf (encloses_plain hpn hcosmetic)
    (encloses_plain hpx hcosmetic) p
  refine canonical_eq_of_late ?_
  rw [hsimplified, ← earlyStages_append]
  exact Chain.append.mpr ⟨_, chain_early hf (encloses_plain hpn hearly) (encloses_plain hpx hearly) p,
    chain_later hf hn hx hminus (encloses_plain hpn hlater) (encloses_plain hpx hlater) p⟩

end Stages

/-! ### What the parser makes of a power -/

/-- The calls around the argument. -/
def depth : Placement → Nat
  | ahead => 16
  | behind => 9

section Parser

variable (f : UnaryFunction) {n x : Text}

/-- The shapes of the pieces. -/
def openingShapes : Placement → List (Symbol × Bool)
  | ahead => [lone (.opening .round), lone (.word (.unary f)), lone (.opening .curly)]
  | behind => [lone (.word (.unary f)), lone (.opening .curly)]

def middleShapes : Placement → List (Symbol × Bool)
  | ahead => [lone (.closing .curly), lone (.closing .round), lone (.operator .caret),
      lone (.opening .curly)]
  | behind => [lone (.closing .curly), lone (.operator .caret), lone (.opening .curly)]

theorem pieceShows (p : Placement) : PieceShows (p.opening f) (p.openingShapes f) ∧
    PieceShows ('\x7d' :: p.middle) p.middleShapes ∧
    PieceShows ['\x7d'] [lone (.closing .curly)] := by
  have hname := pieceShows_wordOpening (.unary f) .curly
  have hexponent := pieceShows_caret.append (pieceShows_opening .curly)
  have hcurly := pieceShows_closing .curly
  refine ⟨?_, ?_, hcurly⟩
  · cases p with
    | ahead => exact (pieceShows_opening .round).append hname
    | behind => exact hname
  · cases p with
    | ahead => exact hcurly.append ((pieceShows_closing .round).append hexponent)
    | behind => exact hcurly.append hexponent

theorem pieceLexes (p : Placement) : PieceLexes (p.opening f) (p.openingShapes f) ∧
    PieceLexes ('\x7d' :: p.middle) p.middleShapes ∧
    PieceLexes ['\x7d'] [lone (.closing .curly)] := by
  have hname := pieceLexes_wordOpening (.unary f) .curly
  have hexponent := (pieceLexes_operator .caret).append (pieceLexes_opening .curly)
  have hcurly := pieceLexes_closing .curly
  refine ⟨?_, ?_, hcurly⟩
  · cases p with
    | ahead => exact (pieceLexes_opening .round).append hname
    | behind => exact hname
  · cases p with
    | ahead => exact hcurly.append ((pieceLexes_closing .round).append hexponent)
    | behind => exact hcurly.append hexponent

theorem braces (p : Placement) : ∃ opened, Braces (p.opening f) p.middle opened [] := by
  have hname : ∀ opened : List Bracket,
      nest opened (f.name.toList ++ ['\x7b']) = some (.curly :: opened) :=
    fun opened => f.nest_name_append opened _
  cases p with
  | ahead =>
    refine ⟨[.round], ⟨(nest_opening .round _ _).trans (hname _), rfl, rfl, ?_, by decide⟩⟩
    simpa [opening] using f.bar_notMem
  | behind =>
    refine ⟨[], ⟨hname _, rfl, rfl, ?_, by decide⟩⟩
    simpa [opening] using f.bar_notMem

variable {calls : Nat} {z : Expr}

/-- The tokens of the text alone are read as a sum. -/
theorem sums_of_tokens {t u : Text} {us ws : List Token} {token : Token} {b : Bracket} {stop : Nat}
    {y : Expr} (hbars : BarsPair [] [] true t u) (hslash : '\\' ∉ u)
    (hlexes : Lexes false u (us.map Token.shape)) (ht : token.symbol = .closing b)
    (h : Expr.sum stop calls (us ++ token :: ws) = .ok (y, token :: ws)) : Sums calls t y := by
  have hends : Ends (token :: ws) := by
    intro t ht'
    obtain rfl : token = t := by simpa using ht'
    exact .inr ⟨b, ht⟩
  exact ⟨u, _, hbars, hslash, hlexes, fun _ => .of_sum_append hends h⟩

theorem nestedTokens_of_lexes {t u : Text} {us : List Token} (hbars : BarsPair [] [] true t u)
    (hslash : '\\' ∉ u) (hlexes : Lexes false u (us.map Token.shape)) : NestedTokens us := by
  have hnest := hlexes.nest_eq hslash []
  rw [List.map_map] at hnest
  exact hnest.symm.trans hbars.nest_expanded

variable {f}

/-- The tokens of a power with the exponent behind the argument. -/
theorem exists_sums_behind {word opened closed caret opened' closed' : Token} {us vs : List Token}
    {stop : Nat} (hword : word.symbol = .word (.unary f)) (hopened : opened.symbol = .opening .curly)
    (hclosed : closed.symbol = .closing .curly) (hcaret : caret.symbol = .operator .caret)
    (hopened' : opened'.symbol = .opening .curly) (hclosed' : closed'.symbol = .closing .curly)
    (hus : NestedTokens us) (hvs : NestedTokens vs)
    (h : Expr.sum stop calls
      (word :: opened :: (us ++ closed :: caret :: opened' :: (vs ++ [closed']))) = .ok (z, [])) :
    ∃ callsₙ callsₓ e y,
      Expr.sum stop callsₙ (vs ++ [closed']) = .ok (e, [closed']) ∧
      Expr.sum stop callsₓ (us ++ closed :: caret :: opened' :: (vs ++ [closed'])) =
        .ok (y, closed :: caret :: opened' :: (vs ++ [closed'])) ∧
      callsₙ + 9 ≤ calls ∧ callsₓ + 9 ≤ calls := by
  obtain ⟨_, _, _, rfl, hraised⟩ := Expr.exists_raised_of_sum (by rw [hword]; rfl) h
  obtain ⟨_, _, _, rfl, hfactor, hexponent⟩ := Expr.exists_factor_of_raised hraised
  obtain ⟨callsₓ, y, rfl, rfl, hsumₓ⟩ :=
    Expr.exists_of_factor_call hword hopened hus hclosed hfactor
  obtain ⟨_, hsigned⟩ := hexponent _ _ rfl hcaret
  obtain ⟨callsₙ, e, hcalls, hsumₙ⟩ := Expr.exists_of_signed_group hopened' hvs hclosed' hsigned
  exact ⟨callsₙ, callsₓ, e, y, hsumₙ, hsumₓ, by omega, by omega⟩

/-- The tokens of a power in which a pass has moved the exponent behind the argument. -/
theorem exists_sums_ahead {round word opened closed round' caret opened' closed' : Token}
    {us vs : List Token} {stop : Nat} (hround : round.symbol = .opening .round)
    (hword : word.symbol = .word (.unary f)) (hopened : opened.symbol = .opening .curly)
    (hclosed : closed.symbol = .closing .curly) (hround' : round'.symbol = .closing .round)
    (hcaret : caret.symbol = .operator .caret) (hopened' : opened'.symbol = .opening .curly)
    (hclosed' : closed'.symbol = .closing .curly) (hus : NestedTokens us) (hvs : NestedTokens vs)
    (h : Expr.sum stop calls (round :: word :: opened :: (us ++ closed :: round' :: caret :: opened' ::
      (vs ++ [closed']))) = .ok (z, [])) :
    ∃ callsₙ callsₓ e y,
      Expr.sum stop callsₙ (vs ++ [closed']) = .ok (e, [closed']) ∧
      Expr.sum stop callsₓ (us ++ closed :: round' :: caret :: opened' :: (vs ++ [closed'])) =
        .ok (y, closed :: round' :: caret :: opened' :: (vs ++ [closed'])) ∧
      callsₙ + 9 ≤ calls ∧ callsₓ + 16 ≤ calls := by
  have hgroup : NestedTokens (word :: opened :: (us ++ [closed])) := by
    have hbrackets : bracketsOf (symbolsOf (word :: opened :: (us ++ [closed]))) =
        '\x7b' :: (bracketsOf (symbolsOf us) ++ '\x7d' :: []) := by
      simp [symbolsOf, hword, hopened, hclosed, bracketsOf, Bracket.opening, Bracket.closing]
    unfold NestedTokens
    rw [hbrackets]
    show nest [] (Bracket.curly.opening ::
      (bracketsOf (symbolsOf us) ++ Bracket.curly.closing :: [])) = some []
    rw [nest_group hus]
    rfl
  have happ : round :: word :: opened :: (us ++ closed :: round' :: caret :: opened' ::
      (vs ++ [closed'])) = round :: ((word :: opened :: (us ++ [closed])) ++ round' :: caret ::
        opened' :: (vs ++ [closed'])) := by simp
  obtain ⟨_, _, _, rfl, hpower⟩ := Expr.exists_raised_of_sum (by rw [hround]; rfl) h
  obtain ⟨_, _, _, rfl, hbase, hexponent⟩ := Expr.exists_factor_of_raised hpower
  rw [happ] at hbase
  obtain ⟨_, rfl, rfl, hsum⟩ := Expr.exists_of_factor_group hround hgroup hround' hbase
  -- Inside the round brackets the function is called.
  obtain ⟨_, _, _, rfl, hraised⟩ := Expr.exists_raised_of_sum (by rw [hword]; rfl) hsum
  obtain ⟨_, _, _, rfl, hfactor, -⟩ := Expr.exists_factor_of_raised hraised
  have hcall : (opened :: (us ++ [closed])).append (round' :: caret :: opened' :: (vs ++ [closed'])) =
      opened :: (us ++ closed :: round' :: caret :: opened' :: (vs ++ [closed'])) := by simp
  rw [hcall] at hfactor
  obtain ⟨callsₓ, y, rfl, -, hsumₓ⟩ := Expr.exists_of_factor_call hword hopened hus hclosed hfactor
  obtain ⟨_, hsigned⟩ := hexponent _ _ rfl hcaret
  obtain ⟨callsₙ, e, hcalls, hsumₙ⟩ := Expr.exists_of_signed_group hopened' hvs hclosed' hsigned
  exact ⟨callsₙ, callsₓ, e, y, hsumₙ, hsumₓ, by omega, by omega⟩

/-- A power that the parser accepts has an exponent and an argument that are sums. -/
theorem exists_sums (p : Placement) (hn : Nested n) (hx : Nested x)
    (h : Expr.parseWithin calls (collapse (expandBars (p.plain f n x))) = .ok z) :
    ∃ callsₙ callsₓ e y, Sums callsₙ n e ∧ Sums callsₓ x y ∧ callsₙ + 9 ≤ calls ∧
      callsₓ + p.depth ≤ calls := by
  obtain ⟨u, ts, stop, hbars, hslash, hlexes, hsum⟩ := Expr.exists_barsPair_of_parseWithin h
  obtain ⟨opened, hbraces⟩ := p.braces f
  obtain ⟨x', n', rfl, hxs, hns⟩ := hbars.of_enclosed hbraces hx hn
  have hslashes : '\\' ∉ x' ∧ '\\' ∉ n' := by
    simp only [enclosed, List.mem_append, List.mem_cons, not_or] at hslash
    exact ⟨hslash.2.1, hslash.2.2.2.2.1⟩
  obtain ⟨hshowsl, hshowsm, hshowsr⟩ := p.pieceShows f
  obtain ⟨us', vs', hts, hus, hvs⟩ := hlexes.of_enclosed hshowsl hshowsm hshowsr hslashes.1 hslashes.2
  cases p with
  | ahead =>
    obtain ⟨round, _, rfl, hround, hts₁⟩ := exists_cons_of_shapes hts
    obtain ⟨word, _, rfl, hword, hts₂⟩ := exists_cons_of_shapes hts₁
    obtain ⟨opened, _, rfl, hopened, hts₃⟩ := exists_cons_of_shapes hts₂
    obtain ⟨us, _, rfl, rfl, hts₄⟩ := @exists_append_of_shapes _ us' _ hts₃
    obtain ⟨closed, _, rfl, hclosed, hts₅⟩ := exists_cons_of_shapes hts₄
    obtain ⟨round', _, rfl, hround', hts₆⟩ := exists_cons_of_shapes hts₅
    obtain ⟨caret, _, rfl, hcaret, hts₇⟩ := exists_cons_of_shapes hts₆
    obtain ⟨opened', _, rfl, hopened', hts₈⟩ := exists_cons_of_shapes hts₇
    obtain ⟨vs, _, rfl, rfl, hts₉⟩ := @exists_append_of_shapes _ vs' _ hts₈
    obtain ⟨closed', _, rfl, hclosed', hnil⟩ := exists_cons_of_shapes hts₉
    obtain rfl := List.map_eq_nil_iff.mp hnil
    obtain ⟨callsₙ, callsₓ, e, y, hsumₙ, hsumₓ, hcallsₙ, hcallsₓ⟩ := exists_sums_ahead hround hword
      hopened hclosed hround' hcaret hopened' hclosed' (nestedTokens_of_lexes hxs hslashes.1 hus)
      (nestedTokens_of_lexes hns hslashes.2 hvs) hsum
    exact ⟨callsₙ, callsₓ, e, y, sums_of_tokens hns hslashes.2 hvs hclosed' hsumₙ,
      sums_of_tokens hxs hslashes.1 hus hclosed hsumₓ, hcallsₙ, hcallsₓ⟩
  | behind =>
    obtain ⟨word, _, rfl, hword, hts₁⟩ := exists_cons_of_shapes hts
    obtain ⟨opened, _, rfl, hopened, hts₂⟩ := exists_cons_of_shapes hts₁
    obtain ⟨us, _, rfl, rfl, hts₃⟩ := @exists_append_of_shapes _ us' _ hts₂
    obtain ⟨closed, _, rfl, hclosed, hts₄⟩ := exists_cons_of_shapes hts₃
    obtain ⟨caret, _, rfl, hcaret, hts₅⟩ := exists_cons_of_shapes hts₄
    obtain ⟨opened', _, rfl, hopened', hts₆⟩ := exists_cons_of_shapes hts₅
    obtain ⟨vs, _, rfl, rfl, hts₇⟩ := @exists_append_of_shapes _ vs' _ hts₆
    obtain ⟨closed', _, rfl, hclosed', hnil⟩ := exists_cons_of_shapes hts₇
    obtain rfl := List.map_eq_nil_iff.mp hnil
    obtain ⟨callsₙ, callsₓ, e, y, hsumₙ, hsumₓ, hcallsₙ, hcallsₓ⟩ := exists_sums_behind hword
      hopened hclosed hcaret hopened' hclosed' (nestedTokens_of_lexes hxs hslashes.1 hus)
      (nestedTokens_of_lexes hns hslashes.2 hvs) hsum
    exact ⟨callsₙ, callsₓ, e, y, sums_of_tokens hns hslashes.2 hvs hclosed' hsumₙ,
      sums_of_tokens hxs hslashes.1 hus hclosed hsumₓ, hcallsₙ, hcallsₓ⟩

/-- The parser reads the shapes of a power. -/
theorem fills_plain (p : Placement) {stop callsₙ callsₓ : Nat} {us vs : List (Symbol × Bool)}
    {e y : Expr} (hn : Fills stop .sum callsₙ vs e) (hx : Fills stop .sum callsₓ us y)
    (hcallsₙ : callsₙ + 9 ≤ calls) (hcallsₓ : callsₓ + p.depth ≤ calls) :
    Fills stop .sum calls (p.openingShapes f ++ (us ++ (p.middleShapes ++
      (vs ++ [lone (.closing .curly)])))) ((y.call f).power e) := by
  have hexponent : Fills stop .signed (callsₙ + 5) (grouped .curly vs) e :=
    (hn.factor_group .curly).signed_of_factor rfl
  have hcall : Fills stop .factor (callsₓ + 4) (lone (.word (.unary f)) :: grouped .curly us)
      (y.call f) := hx.call f .curly
  have hpower : ∀ {base : List (Symbol × Bool)} {k : Nat},
      Fills.BeginsFactor (base ++ lone (.operator .caret) :: grouped .curly vs) →
      Fills stop .factor k base (y.call f) → k + 5 ≤ calls → Fills stop .sum calls
        (base ++ lone (.operator .caret) :: grouped .curly vs) ((y.call f).power e) := by
    intro base k hbegins hbase hk
    have hpostfixed : Fills stop .postfixed (calls - 4) base (y.call f) :=
      hbase.postfixed_of_factor.mono (by omega)
    have hboth := hpostfixed.power (hexponent.mono (by omega))
    exact (hboth.signed_of_raised hbegins).sum_of_signed.mono (by omega)
  cases p with
  | ahead =>
    have hsum := (hcall.signed_of_factor rfl).sum_of_signed
    have hshapes := hpower (by exact rfl) (hsum.factor_group .round)
      (by simp only [depth] at hcallsₓ; omega)
    simpa [openingShapes, middleShapes, grouped] using hshapes
  | behind =>
    have hshapes := hpower (by exact rfl) hcall (by simp only [depth] at hcallsₓ; omega)
    simpa [openingShapes, middleShapes, grouped] using hshapes

/-- An exponent and an argument that are sums make a power. -/
theorem parseWithin_plain (p : Placement) {callsₙ callsₓ : Nat} {e y : Expr} (hn : Sums callsₙ n e)
    (hx : Sums callsₓ x y) (hcallsₙ : callsₙ + 9 ≤ calls) (hcallsₓ : callsₓ + p.depth ≤ calls) :
    Expr.parseWithin calls (collapse (expandBars (p.plain f n x))) = .ok ((y.call f).power e) := by
  obtain ⟨n', vs, hns, hslashₙ, hvs, hfillsₙ⟩ := hn
  obtain ⟨x', us, hxs, hslashₓ, hus, hfillsₓ⟩ := hx
  obtain ⟨opened, hbraces⟩ := p.braces f
  obtain ⟨hlexesl, hlexesm, hlexesr⟩ := p.pieceLexes f
  have hbars := BarsPair.enclosed hbraces hxs hns
  have hlexes := Lexes.enclosed hlexesl hlexesm hlexesr ⟨hus, hslashₓ⟩ ⟨hvs, hslashₙ⟩ false
  have hslash : '\\' ∉ enclosed (p.opening f) x' p.middle n' := by
    have hopening : '\\' ∉ p.opening f := fun h =>
      (p.plainPiece_opening f).1 _ h backslash_mem_triggers
    have hmiddle : '\\' ∉ p.middle := fun h => p.plainPiece_between.2.1 _ h backslash_mem_triggers
    simp only [enclosed, List.mem_append, List.mem_cons, List.not_mem_nil, not_or]
    exact ⟨hopening, hslashₓ, by decide, hmiddle, hslashₙ, by decide, not_false⟩
  unfold plain
  rw [hbars.expandBars]
  exact Expr.parseWithin_of_fills (hlexes.respaced hslash (words_collapse _).symm)
    (p.fills_plain (hfillsₙ _) (hfillsₓ _) hcallsₙ hcallsₓ)

/-- A power that the parser reads in one form it reads in the other as the same
expression, if the calls suffice for the deeper of the arguments. -/
theorem parseWithin_of_parseWithin {p q : Placement} {calls' : Nat} (hn : Nested n) (hx : Nested x)
    (h : Expr.parseWithin calls (collapse (expandBars (p.plain f n x))) = .ok z)
    (hcalls : calls ≤ calls') (hdepth : calls + q.depth ≤ calls' + p.depth) :
    Expr.parseWithin calls' (collapse (expandBars (q.plain f n x))) = .ok z := by
  obtain ⟨callsₙ, callsₓ, e, y, hsumsₙ, hsumsₓ, hcallsₙ, hcallsₓ⟩ := p.exists_sums hn hx h
  have hread := p.parseWithin_plain (f := f) hsumsₙ hsumsₓ hcallsₙ hcallsₓ
  obtain rfl : z = (y.call f).power e := Except.ok.inj (h.symm.trans hread)
  exact q.parseWithin_plain hsumsₙ hsumsₓ (by omega) (by omega)

end Parser

/-! ### The place does not matter -/

/-- **The exponent of a function's power may stand ahead of the argument or behind it.**
What the parser accepts with the exponent ahead, it accepts as the same expression with the
exponent behind; and the other way round if seven more calls may nest. -/
theorem parse_placed {f : UnaryFunction} (hf : f ∈ UnaryFunction.commands) {n x : Text}
    (hn : StaysNested n) (hx : StaysNested x) (hdollar : '$' ∉ n) (hdisplay : Undisplayed n)
    (hminus : (canonical n).head? ≠ some '-') :
    (∀ calls z, Expr.parseWithin calls (canonical (ahead.written f n x)) = .ok z →
      Expr.parseWithin calls (canonical (behind.written f n x)) = .ok z) ∧
    (∀ calls z, Expr.parseWithin calls (canonical (behind.written f n x)) = .ok z →
      Expr.parseWithin (calls + 7) (canonical (ahead.written f n x)) = .ok z) := by
  have hexponent : ∀ n', Encloses earlyStages (Canonical.unadorned n) n' →
      (strip n').head? ≠ some '-' := fun _ h => Canonical.head?_strip_ne hdollar hdisplay hminus h
  rcases refused_or_canonical hf hn hx hexponent with hrefused | ⟨n', x', hn', hx', hcanonical⟩
  · exact ⟨fun calls z h => absurd h (hrefused ahead calls z),
      fun calls z h => absurd h (hrefused behind calls z)⟩
  · rw [hcanonical ahead, hcanonical behind]
    exact ⟨fun calls z h => parseWithin_of_parseWithin hn' hx' h le_rfl (by simp only [depth]; omega),
      fun calls z h =>
        parseWithin_of_parseWithin hn' hx' h (Nat.le_add_right ..) (by simp only [depth]; omega)⟩

/-- The square root of a sine, written as a power. -/
theorem parse_placed_root : ∃ z,
    Expr.parse (canonical "\\sin^\x7b\\frac12\x7d\x7b\\pi|\x7b-1\x7d|\x7d".toList) = .ok z ∧
    Expr.parse (canonical "\\sin\x7b\\pi|\x7b-1\x7d|\x7d^\x7b\\frac12\x7d".toList) = .ok z := by
  have hahead : ahead.written .sin "\\frac12".toList "\\pi|\x7b-1\x7d|".toList =
      "\\sin^\x7b\\frac12\x7d\x7b\\pi|\x7b-1\x7d|\x7d".toList := by decide +kernel
  have hbehind : behind.written .sin "\\frac12".toList "\\pi|\x7b-1\x7d|".toList =
      "\\sin\x7b\\pi|\x7b-1\x7d|\x7d^\x7b\\frac12\x7d".toList := by decide +kernel
  obtain ⟨hmove, -⟩ := @parse_placed .sin (by decide) "\\frac12".toList "\\pi|\x7b-1\x7d|".toList
    (by decide +kernel) (by decide +kernel) (by decide) (by decide +kernel) (by decide +kernel)
  rw [hahead, hbehind] at hmove
  obtain ⟨z, hz⟩ := exists_of_isOk (r := Expr.parse
    (canonical "\\sin^\x7b\\frac12\x7d\x7b\\pi|\x7b-1\x7d|\x7d".toList)) (by decide +kernel)
  exact ⟨z, hz, hmove _ z hz⟩

/-! ### Where the place matters -/

/-- The number 1 behind minus signs. -/
def minuses (k : Nat) : Text :=
  List.replicate k '-' ++ ['1']

theorem mem_minuses {k : Nat} {c : Char} (h : c ∈ minuses k) : c = '-' ∨ c = '1' := by
  rcases List.mem_append.mp h with h | h
  · exact .inl (List.eq_of_mem_replicate h)
  · exact .inr (List.mem_singleton.mp h)

theorem nested_minuses (k : Nat) : Nested (minuses k) :=
  (nest_noBracket_append (fun c hc => List.eq_of_mem_replicate hc ▸ by decide) [] ['1']).trans rfl

theorem callsAt_signs (x : Written) :
    ∀ k, (Written.signs x k).callsAt .signed = x.callsAt .signed + k
  | 0 => rfl
  | k + 1 => congrArg (· + 1) (callsAt_signs x k)

/-- Each minus sign takes a call. -/
theorem parseWithin_minuses (k calls : Nat) : Expr.parseWithin calls (minuses k) =
    within (k + 5) calls (.ok (Written.signs .one k).toExpr) := by
  have hone : Level.signed.rank ≤ Written.one.level.rank := by decide
  obtain ⟨htext, hlevel⟩ := Written.text_signs hone k
  have hcalls : (Written.signs .one k).callsAt .sum = k + 5 := by
    have hsigned := callsAt_signs .one k
    rw [show Written.one.callsAt .signed = 3 by decide, Written.callsAt, Written.fitCalls,
      if_neg (Nat.not_lt.mpr hlevel)] at hsigned
    rw [show Level.signed.rank = 2 from rfl] at hlevel hsigned
    rw [Written.callsAt, Written.fitCalls, show Level.sum.rank = 0 from rfl,
      if_neg (Nat.not_lt_zero _)]
    omega
  rw [show minuses k = (Written.signs .one k).text from htext.symm, Written.parseWithin_text, hcalls]

/-- The power with minus signs in its argument is accepted if the calls suffice for its
place. -/
theorem isOk_minuses {f : UnaryFunction} (hf : f ∈ UnaryFunction.commands) (k calls : Nat)
    (p : Placement) :
    (Expr.parseWithin calls (canonical (p.written f ['2'] (minuses k)))).isOk = true ↔
      k + 6 + p.depth ≤ calls := by
  have hbar : '|' ∉ minuses k := fun h => by rcases mem_minuses h with h | h <;> cases h
  have hplain : ∀ c ∈ minuses k, c ∉ triggers := by
    intro c hc
    rcases mem_minuses hc with rfl | rfl <;> decide
  have hdigit : ∀ c ∈ ['2'], c ∉ triggers := List.forall_mem_singleton.mpr (by decide)
  rw [canonical_written hf (by decide) (nested_minuses k) hdigit hplain (by decide)]
  constructor
  · intro h
    obtain ⟨z, hz⟩ := exists_of_isOk h
    obtain ⟨_, callsₓ, _, y, _, hsums, _, hcalls⟩ := p.exists_sums (by decide) (nested_minuses k) hz
    have hread := (sums_iff hbar).mp hsums
    rw [parseWithin_minuses, within] at hread
    split at hread
    · omega
    · cases hread
  · intro h
    obtain ⟨e, he⟩ := exists_of_isOk (r := Expr.parseWithin 6 ['2']) (by decide +kernel)
    have hread : Expr.parseWithin (k + 6) (minuses k) = .ok (Written.signs .one k).toExpr := by
      rw [parseWithin_minuses, within, if_pos (by omega)]
    have hle : 9 ≤ p.depth := by cases p <;> decide
    rw [p.parseWithin_plain ((sums_iff (by decide)).mpr he) ((sums_iff hbar).mpr hread)
      (by omega) h]
    rfl

/-- Neither condition can be dropped: of an argument whose braces show only after a
sizing command is dropped, and of one near the limit of nested calls, the parser accepts the
square with the exponent behind and refuses the one with the exponent ahead. -/
theorem not_parse_placed :
    (canonical ['2']).head? ≠ some '-' ∧
    ∀ x ∈ [Composition.torn, minuses 980],
      (∀ s ∈ [['2'], x], Nested s ∧ '$' ∉ s ∧ Undisplayed s ∧
        ¬['\\', '\x7b'] <:+: s ∧ ¬['\\', '\x7d'] <:+: s) ∧
      (Expr.parse (canonical (behind.written .sin ['2'] x))).isOk = true ∧
      (Expr.parse (canonical (ahead.written .sin ['2'] x))).isOk = false := by
  refine ⟨by decide +kernel, fun x hx => ?_⟩
  simp only [List.mem_cons, List.not_mem_nil, or_false] at hx
  rcases hx with rfl | rfl
  · exact ⟨by decide +kernel, by decide +kernel, by decide +kernel⟩
  · have hfits := isOk_minuses (f := .sin) (by decide) 980 Expr.callLimit
    have hslash : '\\' ∉ minuses 980 := fun h => by rcases mem_minuses h with h | h <;> cases h
    have hdollar : '$' ∉ minuses 980 := fun h => by rcases mem_minuses h with h | h <;> cases h
    have hpair : ∀ c : Char, ¬['\\', c] <:+: minuses 980 := fun c h =>
      hslash (h.subset (List.mem_cons_self ..))
    refine ⟨fun s hs => ?_, (hfits behind).mpr (by decide), ?_⟩
    · simp only [List.mem_cons, List.not_mem_nil, or_false] at hs
      rcases hs with rfl | rfl
      · decide +kernel
      · exact ⟨nested_minuses _, hdollar, .of_notMem hslash, hpair _, hpair _⟩
    · exact eq_false_of_ne_true fun h => absurd ((hfits ahead).mp h) (by decide)

end Placement

end NumericAnswer
