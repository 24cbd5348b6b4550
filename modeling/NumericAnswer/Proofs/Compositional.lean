/-
# Composed answers

The notation is compositional: an answer that is accepted stands for the same
expression within every composition, if its brackets are well nested, also once
its cosmetic macros are dropped. Without that an answer may be accepted alone
and tear the group apart that it stands in.

Key definition: `Accepted`.
Key theorems: `Accepted.exists_block`, `Form.parseWithin_text`,
`Composition.parse_composed`.
-/
import NumericAnswer.Proofs.Composed
import NumericAnswer.Proofs.Unwrapped

namespace NumericAnswer

/-- The answer has no wrappers, its brackets are well nested, as written and
without its cosmetic macros, and it stands for the expression within that many
nested calls. -/
structure Accepted (calls : Nat) (answer : Text) (x : Expr) : Prop where
  dollar : '$' ∉ answer
  display : Undisplayed answer
  nested : Nested answer
  simplified : Nested (Canonical.simplified answer)
  parses : Expr.parseWithin calls (canonical answer) = .ok x

namespace Accepted

variable {calls : Nat} {answer : Text} {x : Expr}

theorem exists_of_isOk (calls : Nat) (answer : Text) (h : '$' ∉ answer ∧ Undisplayed answer ∧
    Nested answer ∧ Nested (Canonical.simplified answer))
    (hparse : (Expr.parseWithin calls (canonical answer)).isOk = true) :
    ∃ x, Accepted calls answer x := by
  obtain ⟨x, hx⟩ := NumericAnswer.exists_of_isOk hparse
  exact ⟨x, h.1, h.2.1, h.2.2.1, h.2.2.2, hx⟩

/-- What becomes of an accepted answer: the stages rewrite it without a hitch, its
bars pair, and its tokens fill a slot for a sum. -/
theorem exists_block (h : Accepted calls answer x) : ∃ t u us,
    Chain true Canonical.cosmeticStages (strip answer) (Canonical.simplified answer) ∧
      Chain true (Canonical.passStages ++ Canonical.wordStages) (Canonical.simplified answer) t ∧
      BarsPair [] [] true t u ∧ '\\' ∉ u ∧ Lexes false u us ∧
      ∀ stop, Fills stop .sum calls us x := by
  have hstrip := unwrapped_eq_strip h.dollar h.display
  have hn : Nested (unwrapped answer) := by
    rw [hstrip]
    exact (followsBrackets_nest.strip [] answer).trans h.nested
  obtain ⟨t, u, ts, stop, hchain, hbars, hb, hlexes, hsum⟩ :=
    isBlock_of_parseWithin hn h.simplified h.parses
  obtain ⟨v, hv, hlate⟩ := Chain.append.mp hchain
  obtain rfl := Canonical.simplified_eq_of_chain hv
  exact ⟨t, u, _, hstrip ▸ hv, hlate, hbars, hb, hlexes, fun stop => .of_sum hsum⟩

theorem getLast?_ne (h : Accepted calls answer x) : answer.getLast? ≠ some '\\' := by
  obtain ⟨_, _, _, hchain, _⟩ := h.exists_block
  exact getLast?_ne_of_strip (by decide) (Canonical.getLast?_ne_of_chain hchain)

end Accepted

/-! ### Texts of forms -/

/-- What stands in no piece and no block of a frame and is no blank does not stand in
its text. -/
theorem Framed.notMem {c : Char} (hc : isBlank c = false) :
    ∀ {fs : List (Text × Text)} {r t : Text}, Framed fs r t → (∀ l ∈ pieces fs r, c ∉ l) →
      (∀ f ∈ fs, c ∉ f.2) → c ∉ t := by
  have hblank : ∀ {bl : Text}, isAllBlank bl = true → c ∉ bl := by
    intro bl hbl hm
    have hb := List.all_eq_true.mp hbl c hm
    rw [hc] at hb
    cases hb
  intro fs
  induction fs with
  | nil =>
    rintro r _ ⟨bl, hbl, rfl⟩ hp _
    simpa using ⟨hblank hbl, hp r (by simp [pieces])⟩
  | cons f fs ih =>
    rintro r _ ⟨bl, bl', u, hbl, hbl', hu, rfl⟩ hp hf
    have hrest := ih hu (fun l hl => hp l (List.mem_cons_of_mem _ hl))
      fun f hm => hf f (List.mem_cons_of_mem _ hm)
    have hpiece := hp f.1 (by simp [pieces])
    have hx := hf f (List.mem_cons_self ..)
    simpa using ⟨hblank hbl, hpiece, hblank hbl', hx, hrest⟩

theorem Form.notMem_of_framed {F : Form} {c : Char} {x y t : Text} (hc : isBlank c = false)
    (h : Framed (F.frame x y) F.last t) (hp : c ∉ F.pieces.flatten) (hx : c ∉ x) (hy : c ∉ y) :
    c ∉ t := by
  refine h.notMem hc (fun l hl => ?_) fun f hf => ?_
  · rw [F.pieces_frame] at hl
    exact fun hm => hp (List.mem_flatten.mpr ⟨l, hl, hm⟩)
  · obtain ⟨mark, _, rfl⟩ := List.mem_map.mp hf
    cases mark.2 with
    | first => exact hx
    | second => exact hy

/-- A form without commands has no backslashes. -/
theorem Form.Uses.notMem_backslash {F : Form} (h : F.Uses []) : '\\' ∉ F.pieces.flatten := by
  have hpiece : ∀ {l : Text}, PieceOf [] l → '\\' ∉ l := by
    intro l hl
    induction hl with
    | plain h => exact fun hm => h.1 _ hm backslash_mem_triggers
    | command _ hm => exact absurd hm List.not_mem_nil
    | after hp _ ih =>
      exact fun hm => (List.mem_append.mp hm).elim (fun hm => hp _ hm backslash_mem_triggers) ih
  intro hm
  obtain ⟨l, hl, hm⟩ := List.mem_flatten.mp hm
  rcases List.mem_append.mp hl with hl | hl
  · exact hpiece (h.pieces l hl) hm
  · exact h.last _ (List.mem_singleton.mp hl ▸ hm) backslash_mem_triggers

/-- A text whose tokens are a sum and nothing else is read as it. -/
theorem Expr.parseWithin_of_sum {calls : Nat} {text : Text} {ts : List Token} {x : Expr}
    (htokens : tokens text = .ok ts) (hread : sum text.length calls ts = .ok (x, [])) :
    parseWithin calls text = .ok x := by
  have hne : ts.isEmpty = false := by
    cases ts with
    | nil => exact absurd hread (not_ok_of_nil ((readsAll text.length calls).sum []))
    | cons => rfl
  simp only [parseWithin, ofTokensWithin, htokens, hne, hread, bind, Except.bind]
  rfl

/-- A text whose tokens fill a slot for a sum is read as their expression. -/
theorem Expr.parseWithin_of_fills {calls : Nat} {text : Text} {us : List (Symbol × Bool)} {x : Expr}
    (hlexes : Lexes false text us) (h : Fills text.length .sum calls us x) :
    parseWithin calls text = .ok x := by
  obtain ⟨ts, hts, hus⟩ := hlexes.exists_tokensFrom 0
  have hread : sum text.length calls ts = .ok (x, []) := by
    have hsum := h (Nat.le_refl calls) hus (.nil _)
    rwa [List.append_nil] at hsum
  exact parseWithin_of_sum hts hread

/-! ### Notations -/

/-- A notation for two answers: how it is written, what the stages and the bars make
of it, and the shapes of its tokens. The relation is what the late stages need of the
simplified answers. -/
structure Rendering (P : Text → Text → Prop) where
  written : Form
  plain : Form
  expanded : Form
  shapes : List (Symbol × Bool) → List (Symbol × Bool) → List (Symbol × Bool)
  unwrapped : written.Unwrapped
  cosmetic : Reframes (fun _ _ => True) Canonical.cosmeticStages written written
  late : Reframes P (Canonical.passStages ++ Canonical.wordStages) written plain
  uses : expanded.Uses []
  bars : ∀ {x x' y y' : Text}, BarsPair [] [] true x x' → BarsPair [] [] true y y' →
    FramePairs [] (plain.frame x y) plain.last (expanded.frame x' y') expanded.last
  lexes : ∀ {x y : Text} {us vs : List (Symbol × Bool)}, Lexes false x us → '\\' ∉ x →
    Lexes false y vs → '\\' ∉ y → FrameLexes (expanded.frame x y) expanded.last (shapes us vs)

/-- What is written with accepted answers is read as the expression that its
tokens stand for. -/
theorem Rendering.parseWithin_text {P : Text → Text → Prop} (R : Rendering P) {calls calls' : Nat}
    {X Y : Text} {x y z : Expr} (hX : Accepted calls X x) (hY : Accepted calls Y y)
    (hP : P (Canonical.simplified X) (Canonical.simplified Y))
    (hfills : ∀ {stop us vs}, Fills stop .sum calls us x → Fills stop .sum calls vs y →
      Fills stop .sum calls' (R.shapes us vs) z) :
    Expr.parseWithin calls' (canonical (R.written.text X Y)) = .ok z := by
  obtain ⟨t, t', us, hcX, hlX, hbX, hnX, hsX, hfX⟩ := hX.exists_block
  obtain ⟨u, u', vs, hcY, hlY, hbY, hnY, hsY, hfY⟩ := hY.exists_block
  have hunwrapped := Form.unwrapped_text R.unwrapped ⟨hX.dollar, hX.display, hX.getLast?_ne⟩
    ⟨hY.dollar, hY.display, hY.getLast?_ne⟩
  -- The stages rewrite the composed text, then its bars pair.
  obtain ⟨v, hv, hcosmetic⟩ := R.cosmetic trivial hcX hcY (R.written.framed_text X Y)
  obtain ⟨w, hw, hlate⟩ := R.late hP hlX hlY hv
  obtain ⟨w', hw', hbars⟩ := (R.bars hbX hbY).framed hw
  have hcanonical : canonical (R.written.text X Y) = collapse w' := by
    rw [← (hbars [] true).expandBars]
    refine canonical_eq_of_chain ?_
    rw [hunwrapped]
    exact Chain.append.mpr ⟨v, hcosmetic, hlate⟩
  -- The lexer sees the answers between the pieces, with other blanks.
  have hno : '\\' ∉ w' := Form.notMem_of_framed (by decide) hw' R.uses.notMem_backslash hnX hnY
  have hlexes := hw'.lexes (R.lexes hsX hnX hsY hnY) R.uses.closed.frame false
  rw [hcanonical]
  exact Expr.parseWithin_of_fills (hlexes.respaced hno (words_collapse w').symm)
    (hfills (hfX _) (hfY _))

namespace Composition

theorem unwrapped_written (c : Composition) : c.written.Unwrapped := by
  cases c with
  | group b => cases b <;> decide +kernel
  | call f => cases f <;> decide +kernel
  | _ => decide +kernel

theorem uses_expanded (c : Composition) : c.expanded.Uses [] := by
  have hplain : c = .abs ∨ c.expanded = c.plain := by
    cases c with
    | abs => exact .inl rfl
    | _ => exact .inr rfl
  rcases hplain with rfl | hc
  · exact .one (closer_cons (by decide) _) (.plain (by decide +kernel)) (by decide +kernel)
  · exact hc ▸ c.uses_plain

/-- The notation of the composition. -/
def rendering (c : Composition) : Rendering BothCounted where
  written := c.written
  plain := c.plain
  expanded := c.expanded
  shapes := c.shapes
  unwrapped := c.unwrapped_written
  cosmetic := c.reframes_cosmetic _
  late := c.reframes_late
  uses := c.uses_expanded
  bars := c.framePairs
  lexes := c.frameLexes

variable {calls : Nat} {X Y : Text} {x y : Expr}

/-- An answer whose braces show only after a sizing command is dropped. -/
def torn : Text :=
  "\\sin^2\\\\left\x7b1\x7d+\x7b1\\\\left\x7d".toList

end Composition

end NumericAnswer
