/-
# Composed texts

In a composed text the bars of each answer pair as they do alone, and the lexer
sees the answers between the pieces: the shapes of its tokens are those of the
answers with words and signs around them.

Key definitions: `PiecePairs`, `FramePairs`, `Composition.expanded`,
`Composition.shapes`.
Key theorems: `FramePairs.framed`, `Composition.framePairs`,
`Composition.frameLexes`, `Composition.fills`.
-/
import NumericAnswer.Proofs.Bars
import NumericAnswer.Proofs.Composition
import NumericAnswer.Proofs.Filling

namespace NumericAnswer

/-! ### Bars in frames -/

/-- With `outer` open before it the piece expands to the second one, whatever
stands around it, and leaves `inner` open. -/
def PiecePairs (outer : List Opened) (l l' : Text) (inner : List Opened) : Prop :=
  ∀ ⦃s t : Text⦄, (∀ before last, BarsPair before inner last s t) →
    ∀ before last, BarsPair before outer last (l ++ s) (l' ++ t)

namespace PiecePairs

variable {outer middle inner : List Opened} {l l' k k' : Text}

theorem append (h : PiecePairs outer l l' middle) (h' : PiecePairs middle k k' inner) :
    PiecePairs outer (l ++ k) (l' ++ k') inner := by
  intro s t hs before last
  rw [List.append_assoc, List.append_assoc]
  exact h (h' hs) before last

/-- Brackets and what is neither a bracket nor a bar. -/
theorem of_nest : ∀ {l : Text} {opened out : List Bracket}, '|' ∉ l → nest opened l = some out →
    ∀ outer, PiecePairs (opened.map .bracket ++ outer) l l (out.map .bracket ++ outer)
  | [], _, _, _, h, outer => by
    obtain rfl := Option.some.inj h
    exact fun _ _ hs => hs
  | c :: l, opened, out, hbar, h, outer => by
    obtain ⟨hc, hl⟩ := List.ne_and_not_mem_of_not_mem_cons hbar
    intro s t hs before last
    rcases BarState.bracket_cases c with ⟨b, rfl⟩ | ⟨b, rfl⟩ | rfl | ⟨hn, hb⟩
    · rw [nest_opening] at h
      exact .opening b (of_nest hl h outer hs _ _)
    · obtain ⟨rest, rfl, hrest⟩ := nest_closing_eq_some_iff.mp h
      exact .closing b (of_nest hl hrest outer hs _ _)
    · exact absurd rfl hc
    · rw [nest_cons hn] at h
      exact .other hn hb (of_nest hl h outer hs _ _)

theorem blanks {bl : Text} (h : isAllBlank bl = true) : PiecePairs outer bl bl outer :=
  @of_nest bl [] [] (fun hm => absurd (List.all_eq_true.mp h _ hm) (by decide))
    (nested_of_isAllBlank h) outer

/-- An answer whose bars pair, in brackets. -/
theorem block {x x' : Text} (h : BarsPair [] [] true x x') (ho : outer.head? ≠ some .bar) :
    PiecePairs outer x x' outer :=
  fun _ _ hs before last => h.append (by simp) ho (by simp) hs

/-- A bar that opens, before a bracket. -/
theorem opens (ho : outer.head? ≠ some .bar) :
    PiecePairs outer ['|'] "abs(".toList (.bar :: outer) :=
  fun _ _ hs _ _ => .opens (fun h => absurd h ho) (hs _ _)

theorem barOpens_closing (b : Bracket) (before : Text) (last : Bool) :
    barOpens (b.closing :: before) last = false := by
  have hblank : isBlank b.closing = false := by cases b <;> decide
  have hletter : isLetter b.closing = false := by cases b <;> decide +kernel
  unfold barOpens
  rw [dropBlanks_cons_of_not_isBlank hblank]
  simp only [hletter]
  cases b <;> rfl

/-- A bar that closes, after a bracket. -/
theorem closes (b : Bracket) :
    PiecePairs (.bracket b :: .bar :: outer) [b.closing, '|'] [b.closing, ')'] outer := by
  intro s t hs before last
  exact .closing b (.closes (barOpens_closing b _ _) (hs _ _))

end PiecePairs

/-- The bars of the frame pair, and its text expands to the second one. -/
inductive FramePairs :
    List Opened → List (Text × Text) → Text → List (Text × Text) → Text → Prop where
  | last {outer : List Opened} {r r' : Text} (h : PiecePairs outer r r' []) :
      FramePairs outer [] r [] r'
  | cons {outer inner : List Opened} {l l' x x' r r' : Text} {fs fs' : List (Text × Text)}
      (hl : PiecePairs outer l l' inner) (ho : inner.head? ≠ some .bar)
      (hx : BarsPair [] [] true x x') (h : FramePairs inner fs r fs' r') :
      FramePairs outer ((l, x) :: fs) r ((l', x') :: fs') r'

theorem FramePairs.framed {outer : List Opened} {fs fs' : List (Text × Text)} {r r' : Text}
    (h : FramePairs outer fs r fs' r') : ∀ {t : Text}, Framed fs r t →
      ∃ u, Framed fs' r' u ∧ ∀ before last, BarsPair before outer last t u := by
  induction h with
  | @last outer r r' h =>
    rintro _ ⟨bl, hbl, rfl⟩
    have hnil : ∀ before last, BarsPair before [] last [] [] := BarsPair.nil
    have hpairs := (PiecePairs.blanks hbl).append h hnil
    rw [List.append_nil, List.append_nil] at hpairs
    exact ⟨bl ++ r', ⟨bl, hbl, rfl⟩, hpairs⟩
  | @cons outer inner l l' x x' r r' fs fs' hl ho hx _ ih =>
    rintro _ ⟨bl, bl', u, hbl, hbl', hu, rfl⟩
    obtain ⟨v, hv, hpairs⟩ := ih hu
    refine ⟨bl ++ (l' ++ (bl' ++ (x' ++ v))), ⟨bl, bl', v, hbl, hbl', hv, rfl⟩, ?_⟩
    exact PiecePairs.blanks hbl (hl (PiecePairs.blanks hbl' (PiecePairs.block hx ho hpairs)))

/-- A frame without bars, with well-nested brackets in its pieces. -/
theorem FramePairs.of_nest {r : Text} : ∀ {fs fs' : List (Text × Text)} {opened : List Bracket},
    SameFrame (BarsPair [] [] true) fs fs' → '|' ∉ (pieces fs r).flatten →
    nest opened (pieces fs r).flatten = some [] →
    FramePairs (opened.map .bracket) fs r fs' r := by
  intro fs fs' opened h
  induction h generalizing opened with
  | nil =>
    intro hbar hn
    simp only [pieces, List.map_nil, List.nil_append, List.flatten_singleton] at hbar hn
    have hpairs := PiecePairs.of_nest hbar hn []
    rw [List.append_nil] at hpairs
    exact .last hpairs
  | @cons p p' fs fs' hp _ ih =>
    obtain ⟨l, x⟩ := p
    obtain ⟨l', x'⟩ := p'
    obtain ⟨rfl, hx⟩ := hp
    intro hbar hn
    have hflat : (pieces ((l, x) :: fs) r).flatten = l ++ (pieces fs r).flatten := rfl
    rw [hflat, List.mem_append, not_or] at hbar
    rw [hflat, nest_append] at hn
    obtain ⟨inner, hinner, hn⟩ := Option.bind_eq_some_iff.mp hn
    have hpairs := PiecePairs.of_nest hbar.1 hinner []
    rw [List.append_nil, List.append_nil] at hpairs
    refine .cons hpairs ?_ hx (ih hbar.2 hn)
    cases inner <;> simp

/-! ### What the lexer sees of frames -/

section Lexes

variable {x y l m r : Text} {us vs ps qs rs ws : List (Symbol × Bool)}

theorem PieceLexes.lexes (h : PieceLexes r rs) (afterNumber : Bool) : Lexes afterNumber r rs := by
  have hr := h afterNumber [] [] (.nil false)
  rwa [List.append_nil, List.append_nil] at hr

theorem PieceLexes.append (h : PieceLexes l ps) (h' : PieceLexes m qs) :
    PieceLexes (l ++ m) (ps ++ qs) := by
  intro afterNumber s us hs
  rw [List.append_assoc, List.append_assoc]
  exact h afterNumber _ _ (h' false s us hs)

theorem pieceLexes_opening (b : Bracket) : PieceLexes [b.opening] [lone (.opening b)] := by
  cases b <;> exact pieceLexes_signs (by simp) (List.forall_mem_singleton.mpr (by decide))

theorem pieceLexes_closing (b : Bracket) : PieceLexes [b.closing] [lone (.closing b)] := by
  cases b <;> exact pieceLexes_signs (by simp) (List.forall_mem_singleton.mpr (by decide))

theorem pieceLexes_operator (o : Operator) : PieceLexes [o.sign] [lone (.operator o)] := by
  cases o <;> exact pieceLexes_signs (by simp) (List.forall_mem_singleton.mpr (by decide))

theorem pieceLexes_wordOpening (w : Word) (b : Bracket) :
    PieceLexes (w.text ++ [b.opening]) [lone (.word w), lone (.opening b)] := by
  cases b <;> exact pieceLexes_word w (by simp) (List.forall_mem_singleton.mpr (by decide))

theorem pieceLexes_wordBlank (w : Word) : PieceLexes (w.text ++ [' ']) [lone (.word w)] := by
  intro afterNumber s us h
  rw [List.append_assoc]
  exact .word w (by simp; decide) (.blank (by decide) h)

theorem pieceLexes_comma : PieceLexes ", ".toList [lone .comma] :=
  fun _ _ _ h => .sign (by decide) (.blank (by decide) h)

theorem FrameLexes.one (hx : Lexes false x us ∧ '\\' ∉ x) (hl : PieceLexes l ps)
    (hr : PieceLexes r rs) (h : ws = ps ++ (us ++ rs)) :
    FrameLexes ((Form.one l r).frame x y) r ws :=
  h ▸ .cons hl hx.1 hx.2 (.last hr.lexes)

theorem FrameLexes.two (hx : Lexes false x us ∧ '\\' ∉ x) (hy : Lexes false y vs ∧ '\\' ∉ y)
    (hl : PieceLexes l ps) (hm : PieceLexes m qs) (hr : PieceLexes r rs)
    (h : ws = ps ++ (us ++ (qs ++ (vs ++ rs)))) :
    FrameLexes ((Form.two l m r).frame x y) r ws :=
  h ▸ .cons hl hx.1 hx.2 (.cons hm hy.1 hy.2 (.last hr.lexes))

theorem FrameLexes.swapped (hx : Lexes false x us ∧ '\\' ∉ x) (hy : Lexes false y vs ∧ '\\' ∉ y)
    (hl : PieceLexes l ps) (hm : PieceLexes m qs) (hr : PieceLexes r rs)
    (h : ws = ps ++ (vs ++ (qs ++ (us ++ rs)))) :
    FrameLexes ((Form.swapped l m r).frame x y) r ws :=
  h ▸ .cons hl hy.1 hy.2 (.cons hm hx.1 hx.2 (.last hr.lexes))

end Lexes

/-- The pieces of the form hold no bars, and their brackets are well nested. -/
def Form.Barless (F : Form) : Prop :=
  '|' ∉ F.pieces.flatten ∧ Nested F.pieces.flatten

instance (F : Form) : Decidable F.Barless :=
  inferInstanceAs (Decidable (_ ∧ _))

theorem Form.Barless.framePairs {F : Form} (h : F.Barless) {x x' y y' : Text}
    (hx : BarsPair [] [] true x x') (hy : BarsPair [] [] true y y') :
    FramePairs [] (F.frame x y) F.last (F.frame x' y') F.last := by
  obtain ⟨hbar, hn⟩ := h
  rw [← F.pieces_frame x y] at hbar hn
  exact @FramePairs.of_nest _ _ _ [] (Form.sameFrame hx hy) hbar hn

namespace Composition

/-- What the composition is once its bars are expanded. -/
def expanded : Composition → Form
  | abs => .one "abs(\x7b".toList "\x7d)".toList
  | c => c.plain

section Bars

variable {x x' y y' : Text}

theorem framePairs (c : Composition) (hx : BarsPair [] [] true x x')
    (hy : BarsPair [] [] true y y') :
    FramePairs [] (c.plain.frame x y) c.plain.last (c.expanded.frame x' y') c.expanded.last := by
  cases c with
  | group b =>
    have hb : (group b).plain.Barless := by cases b <;> decide
    exact hb.framePairs hx hy
  | call f =>
    have hf : (call f).plain.Barless := by cases f <;> decide
    exact hf.framePairs hx hy
  | abs =>
    have hopen : PiecePairs [.bar] ['\x7b'] ['\x7b'] [.bracket .curly, .bar] :=
      @PiecePairs.of_nest _ [] [.curly] (by decide) rfl [.bar]
    exact .cons ((PiecePairs.opens (by simp)).append hopen) (by simp) hx (.last (.closes .curly))
  | fraction | root | logBase | log | power | neg | product =>
    exact Form.Barless.framePairs (by decide) hx hy

end Bars

/-- The shapes of the composition, with those of the answers. -/
def shapes : Composition → List (Symbol × Bool) → List (Symbol × Bool) → List (Symbol × Bool)
  | group b, us, _ => grouped b us
  | fraction, us, vs => lone (.word .fraction) :: (grouped .curly us ++ grouped .curly vs)
  | root, us, vs => lone (.word (.binary .nthroot)) :: (grouped .square us ++ grouped .curly vs)
  | logBase, us, vs => lone (.word (.binary .logBase)) :: (grouped .square us ++ grouped .curly vs)
  | log, us, vs => lone (.word (.unary .log)) :: grouped .round (us ++ lone .comma :: vs)
  | call f, us, _ => lone (.word (.unary f)) :: grouped .curly us
  | power, us, vs => grouped .curly us ++ lone (.operator .caret) :: grouped .curly vs
  | abs, us, _ => lone (.word .absolute) :: grouped .round (grouped .curly us)
  | neg, us, _ => lone (.operator .minus) :: grouped .curly us
  | product, us, vs => grouped .curly us ++ lone (.operator .times) :: grouped .curly vs

section Lexes

variable {x y : Text} {us vs : List (Symbol × Bool)}

theorem frameLexes (c : Composition) (hx : Lexes false x us) (hbx : '\\' ∉ x)
    (hy : Lexes false y vs) (hby : '\\' ∉ y) :
    FrameLexes (c.expanded.frame x y) c.expanded.last (c.shapes us vs) := by
  have hcurly := pieceLexes_closing .curly
  have hbetween := (pieceLexes_closing .curly).append (pieceLexes_opening .curly)
  cases c with
  | group b => exact .one ⟨hx, hbx⟩ (pieceLexes_opening b) (pieceLexes_closing b) rfl
  | fraction =>
    exact .two ⟨hx, hbx⟩ ⟨hy, hby⟩ (pieceLexes_wordOpening .fraction .curly) hbetween hcurly
      (by simp [shapes, grouped])
  | root =>
    exact .two ⟨hx, hbx⟩ ⟨hy, hby⟩ (pieceLexes_wordOpening (.binary .nthroot) .square)
      ((pieceLexes_closing .square).append (pieceLexes_opening .curly)) hcurly
      (by simp [shapes, grouped])
  | logBase =>
    exact .two ⟨hx, hbx⟩ ⟨hy, hby⟩ (pieceLexes_wordOpening (.binary .logBase) .square)
      ((pieceLexes_closing .square).append (pieceLexes_opening .curly)) hcurly
      (by simp [shapes, grouped])
  | log =>
    exact .two ⟨hx, hbx⟩ ⟨hy, hby⟩ (pieceLexes_wordOpening (.unary .log) .round)
      pieceLexes_comma (pieceLexes_closing .round) (by simp [shapes, grouped])
  | call f =>
    exact .one ⟨hx, hbx⟩ (pieceLexes_wordOpening (.unary f) .curly) hcurly
      (by simp [shapes, grouped])
  | power =>
    exact .two ⟨hx, hbx⟩ ⟨hy, hby⟩ (pieceLexes_opening .curly)
      (hcurly.append ((pieceLexes_operator .caret).append (pieceLexes_opening .curly))) hcurly
      (by simp [shapes, grouped])
  | abs =>
    exact .one ⟨hx, hbx⟩ ((pieceLexes_wordOpening .absolute .round).append
      (pieceLexes_opening .curly)) (hcurly.append (pieceLexes_closing .round))
      (by simp [shapes, grouped])
  | neg =>
    exact .one ⟨hx, hbx⟩ ((pieceLexes_operator .minus).append (pieceLexes_opening .curly)) hcurly
      (by simp [shapes, grouped])
  | product =>
    exact .two ⟨hx, hbx⟩ ⟨hy, hby⟩ (pieceLexes_opening .curly)
      (hcurly.append ((pieceLexes_operator .times).append (pieceLexes_opening .curly))) hcurly
      (by simp [shapes, grouped])

end Lexes

/-- What fills a slot for a sum makes the composition fill one. -/
theorem fills (c : Composition) {stop calls : Nat} {us vs : List (Symbol × Bool)} {x y : Expr}
    (hx : Fills stop .sum calls us x) (hy : Fills stop .sum calls vs y) :
    Fills stop .sum (calls + 16) (c.shapes us vs) (c.tree x y) := by
  have hgroup : ∀ {b : Bracket} {us : List (Symbol × Bool)} {x : Expr},
      Fills stop .sum calls us x → Fills stop .postfixed (calls + 3) (grouped b us) x :=
    fun h => (h.factor_group _).postfixed_of_factor
  have hsigned : ∀ {b : Bracket} {us : List (Symbol × Bool)} {x : Expr},
      Fills stop .sum calls us x → Fills stop .signed (calls + 5) (grouped b us) x :=
    fun h => (h.factor_group _).signed_of_factor rfl
  have hsum : ∀ {n : Nat} {us : List (Symbol × Bool)} {x : Expr}, n + 5 ≤ calls + 16 →
      Fills stop .factor n us x → Fills.BeginsFactor us → Fills stop .sum (calls + 16) us x :=
    fun hle h hus => (h.signed_of_factor hus).sum_of_signed.mono hle
  cases c with
  | group b => exact hsum (by omega) (hx.factor_group b) rfl
  | fraction => exact hsum (by omega) (hx.fraction hy) rfl
  | root => exact hsum (by omega) (hx.call₂ hy .nthroot) rfl
  | logBase => exact hsum (by omega) (hx.call₂ hy .logBase) rfl
  | log => exact hsum (by omega) (hx.log hy) rfl
  | call f => exact hsum (by omega) (hx.call f .curly) rfl
  | abs =>
    have hinner : Fills stop .sum (calls + 7) (grouped .curly us) x := (hsigned hx).sum_of_signed
    exact hsum (Nat.le_refl _) (hinner.abs .round) rfl
  | power =>
    have hpower : Fills stop .raised (calls + 6) ((power).shapes us vs) (x.power y) :=
      Fills.power ((hgroup hx).mono (by omega)) (hsigned hy)
    exact (hpower.signed_of_raised rfl).sum_of_signed.mono (by omega)
  | neg => exact (hsigned hx).neg.sum_of_signed.mono (by omega)
  | product => exact ((hsigned hx).product (hsigned hy)).sum_of_term.mono (by omega)

end Composition

end NumericAnswer
