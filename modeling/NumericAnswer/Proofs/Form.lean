/-
# Forms

A form makes a text of two answers: it is a frame with an answer in each of its
places. What the stages make of such a text is again a form, if they rewrite its
pieces and leave the answers, each rewritten as it is alone.

Key definitions: `Form`, `Form.text`, `Reframes`, `Counted`.
Key theorems: `Form.framed_text`, `Reframes.append`, `Reframes.of_keeps`,
`Reframes.of_makes`, `Reframes.of_step`.
-/
import NumericAnswer.Proofs.Transparent

namespace NumericAnswer

/-- Which of two answers stands after a piece. -/
inductive Place where
  | first
  | second
  deriving DecidableEq, Repr

/-- The answer that stands there. -/
def Place.pick : Place → Text → Text → Text
  | first, x, _ => x
  | second, _, y => y

@[simp] theorem Place.pick_first (x y : Text) : first.pick x y = x := rfl

@[simp] theorem Place.pick_second (x y : Text) : second.pick x y = y := rfl

/-- A frame with places for two answers. -/
structure Form where
  /-- The pieces, and which answer stands after each. -/
  marks : List (Text × Place)
  last : Text

namespace Form

variable (F : Form) (x y : Text)

/-- The frame with the answers in their places. -/
def frame : List (Text × Text) :=
  F.marks.map fun mark => (mark.1, mark.2.pick x y)

def pieces : List Text :=
  F.marks.map Prod.fst ++ [F.last]

/-- The text that the form makes of two answers. -/
def text : Text :=
  (F.frame x y).flatMap (fun part => part.1 ++ part.2) ++ F.last

/-- All pieces but the first one begin with a closing bracket or a comma. -/
def Closed : Prop :=
  ∀ l ∈ F.pieces.tail, Closer l

theorem map_fst_frame : (F.frame x y).map Prod.fst = F.marks.map Prod.fst := by
  unfold frame
  rw [List.map_map]
  rfl

theorem pieces_frame : NumericAnswer.pieces (F.frame x y) F.last = F.pieces := by
  unfold NumericAnswer.pieces pieces
  rw [map_fst_frame]

variable {F x y}

theorem Closed.frame (h : F.Closed) :
    ∀ l ∈ (NumericAnswer.pieces (F.frame x y) F.last).tail, Closer l := by
  rw [F.pieces_frame]
  exact h

theorem sameFrame {make : Text → Text → Prop} {x' y' : Text} (hx : make x x') (hy : make y y') :
    SameFrame make (F.frame x y) (F.frame x' y') := by
  refine List.forall₂_map_left_iff.mpr (List.forall₂_map_right_iff.mpr
    (List.forall₂_same.mpr fun mark _ => ⟨rfl, ?_⟩))
  cases mark.2 with
  | first => exact hx
  | second => exact hy

end Form

/-- The stage keeps the pieces of the form. -/
def Stage.KeepsForm (stage : Stage) (F : Form) : Prop :=
  stage.KeepsFrame (F.marks.map Prod.fst) F.last

theorem Stage.KeepsForm.frame {stage : Stage} {F : Form} (h : stage.KeepsForm F) {x y : Text} :
    stage.KeepsFrame ((F.frame x y).map Prod.fst) F.last := by
  rw [F.map_fst_frame]
  exact h

/-! ### The text of a form -/

/-- Blanks before a frame are blanks of the frame. -/
theorem Framed.blanks_append {fs : List (Text × Text)} {r t bl : Text} (h : Framed fs r t)
    (hbl : isAllBlank bl = true) : Framed fs r (bl ++ t) := by
  have happ : ∀ {bl' : Text}, isAllBlank bl' = true → isAllBlank (bl ++ bl') = true := by
    intro bl' hbl'
    simp only [isAllBlank, List.all_append, Bool.and_eq_true]
    exact ⟨hbl, hbl'⟩
  cases fs with
  | nil =>
    obtain ⟨bl', hbl', rfl⟩ := h
    exact ⟨bl ++ bl', happ hbl', (List.append_assoc ..).symm⟩
  | cons f fs =>
    obtain ⟨bl', bl'', u, hbl', hbl'', hu, rfl⟩ := h
    exact ⟨bl ++ bl', bl'', u, happ hbl', hbl'', hu, (List.append_assoc ..).symm⟩

theorem framed_flatMap (r : Text) : ∀ fs : List (Text × Text),
    Framed (fs.map fun f => (f.1, strip f.2)) r (fs.flatMap (fun f => f.1 ++ f.2) ++ r)
  | [] => ⟨[], rfl, rfl⟩
  | (l, x) :: fs => by
    obtain ⟨u, v, hu, hv, hx⟩ := exists_blanks_strip x
    refine ⟨[], u, _, rfl, hu, (framed_flatMap r fs).blanks_append hv, ?_⟩
    conv_lhs => rw [List.flatMap_cons, hx]
    simp

/-- The text of a form frames the answers without the blanks around them. -/
theorem Form.framed_text (F : Form) (x y : Text) :
    Framed (F.frame (strip x) (strip y)) F.last (F.text x y) := by
  have hframe : F.frame (strip x) (strip y) = (F.frame x y).map fun f => (f.1, strip f.2) := by
    unfold frame
    rw [List.map_map]
    refine List.map_congr_left fun mark _ => ?_
    cases hm : mark.2 <;> simp [hm, Place.pick]
  rw [hframe]
  exact framed_flatMap F.last _

/-! ### What stages make of a form -/

/-- The stages make texts of the second form of texts of the first one, with what
they make of the answers. -/
def Reframes (P : Text → Text → Prop) (stages : List Stage) (F G : Form) : Prop :=
  ∀ ⦃x x' y y' t : Text⦄, P x y → Chain true stages x x' → Chain true stages y y' →
    Framed (F.frame x y) F.last t →
      ∃ t', Framed (G.frame x' y') G.last t' ∧ Chain true stages t t'

namespace Reframes

variable {P Q : Text → Text → Prop} {stage : Stage} {first second : List Stage} {F G H : Form}

theorem append (h : Reframes P first F G) (hQ : ∀ ⦃x x' y y' : Text⦄, P x y →
    Chain true first x x' → Chain true first y y' → Q x' y') (h' : Reframes Q second G H) :
    Reframes P (first ++ second) F H := by
  intro x x' y y' t hP hx hy ht
  obtain ⟨u, hxu, hx⟩ := Chain.append.mp hx
  obtain ⟨v, hyv, hy⟩ := Chain.append.mp hy
  obtain ⟨t₁, ht₁, hch₁⟩ := h hP hxu hyv ht
  obtain ⟨t₂, ht₂, hch₂⟩ := h' (hQ hP hxu hyv) hx hy ht₁
  exact ⟨t₂, ht₂, Chain.append.mpr ⟨t₁, hch₁, hch₂⟩⟩

/-- Stages that keep the pieces keep the form. -/
theorem of_keeps {stages : List Stage} (hl : ∀ stage ∈ stages, stage.Local) (hc : F.Closed)
    (hk : ∀ stage ∈ stages, stage.KeepsForm F) : Reframes P stages F F := by
  intro x x' y y' t _ hx hy ht
  exact ht.chain hl hc.frame (fun stage hs => (hk stage hs).frame) (Form.sameFrame hx hy)

/-- A stage that makes pieces of pieces makes a form of a form. -/
theorem of_makes (hl : stage.Local) (hc : F.Closed)
    (hm : List.Forall₂ (fun m m' => stage.Makes m.1 m'.1 ∧ m.2 = m'.2) F.marks G.marks)
    (hlast : stage.Makes F.last G.last) : Reframes P [stage] F G := by
  rintro x _ y _ t _ ⟨x', hx, rfl⟩ ⟨y', hy, rfl⟩ ht
  have hframe : ∀ {ms ms' : List (Text × Place)},
      List.Forall₂ (fun m m' => stage.Makes m.1 m'.1 ∧ m.2 = m'.2) ms ms' →
      FrameMakes stage (ms.map fun m => (m.1, m.2.pick x y)) F.last
        (ms'.map fun m => (m.1, m.2.pick x' y')) G.last := by
    intro ms ms' h
    induction h with
    | nil => exact .last hlast.last
    | @cons m m' ms ms' h _ ih =>
      obtain ⟨hp, he⟩ := h
      refine .cons hp ?_ ih
      rw [← he]
      cases m.2 with
      | first => exact hx
      | second => exact hy
  obtain ⟨t', ht', hr⟩ := ht.rewrites hl (hframe hm) hc.frame
  exact ⟨t', ht', _, hr none rfl, rfl⟩

/-- A stage that makes a step to a text of a form whose pieces it keeps. -/
theorem of_step (hl : stage.Local) (hc : G.Closed) (hk : stage.KeepsForm G)
    (hs : ∀ ⦃x y t : Text⦄, P x y → Framed (F.frame x y) F.last t →
      ∃ bl c s u, isAllBlank bl = true ∧ t = bl ++ c :: s ∧ Framed (G.frame x y) G.last u ∧
        ∀ b, Apart b → stage b c s = .step [] b u) : Reframes P [stage] F G := by
  rintro x _ y _ t hP ⟨x', hx, rfl⟩ ⟨y', hy, rfl⟩ ht
  obtain ⟨bl, c, s, u, hbl, rfl, hu, hstep⟩ := hs hP ht
  obtain ⟨t', ht', hr⟩ := hu.rewrites hl ((Form.sameFrame hx hy).frameMakes hk.frame) hc.frame
  exact ⟨bl ++ t', ht'.blanks_append hbl, _,
    rewrites_blanks_append hl (fun b hb => .move (hstep b hb) (hr b hb)) hbl none rfl, rfl⟩

end Reframes

/-! ### Pieces with commands -/

/-- The text is not empty, ends apart from letters and digits, and holds nothing that a
stage looks for. -/
def PlainPiece (l : Text) : Prop :=
  (∀ c ∈ l, c ∉ triggers) ∧ EndsApart l

instance (l : Text) : Decidable (PlainPiece l) :=
  decidable_of_iff ((l.all (fun c => !triggers.contains c) &&
      l.getLast?.any fun c => !isAlphanumeric c) = true) (by
    simp [PlainPiece, EndsApart, Option.any_eq_true])

/-- The piece is plain but for some of these commands, each before this character. -/
inductive PieceOf (commands : List (Text × Char)) : Text → Prop where
  | plain {l : Text} (h : PlainPiece l) : PieceOf commands l
  | command {n l : Text} {c : Char} (hn : IsName n) (hm : (n, c) ∈ commands)
      (h : PieceOf commands (c :: l)) : PieceOf commands ('\\' :: (n ++ c :: l))
  | after {p l : Text} (hp : ∀ c ∈ p, c ∉ triggers) (h : PieceOf commands l) :
      PieceOf commands (p ++ l)

theorem PieceOf.keeps {commands : List (Text × Char)} {stage : Stage} (hl : stage.Local)
    (hi : ∀ command ∈ commands, stage.Ignores command.1 command.2) {l : Text}
    (h : PieceOf commands l) : stage.Keeps l := by
  induction h with
  | plain h => exact Stage.keeps_plain hl h.1 h.2
  | command hn hm _ ih =>
    exact (hi _ hm).keeps hl (fun c hc => isAsciiLetter_notMem_triggers (hn.2 c hc)) ih
  | after hp _ ih =>
    intro b s t h
    rw [List.append_assoc, List.append_assoc]
    exact rewrites_plain_append hl hp (ih _ s t h)

/-! ### Forms with commands -/

namespace Form

/-- A form that looks at the first answer only. -/
def one (l r : Text) : Form :=
  ⟨[(l, .first)], r⟩

/-- A form with both answers in their order. -/
def two (l m r : Text) : Form :=
  ⟨[(l, .first), (m, .second)], r⟩

/-- A form with the second answer before the first one. -/
def swapped (l m r : Text) : Form :=
  ⟨[(l, .second), (m, .first)], r⟩

/-- The pieces of the form use these commands only, the last one none, and all but the
first one begin with a closing bracket or a comma. -/
structure Uses (F : Form) (commands : List (Text × Char)) : Prop where
  closed : F.Closed
  pieces : ∀ l ∈ F.marks.map Prod.fst, PieceOf commands l
  last : ∀ c ∈ F.last, c ∉ triggers

/-- A stage that looks at none of its commands keeps the form. -/
theorem Uses.keeps {F : Form} {commands : List (Text × Char)} (h : F.Uses commands) {stage : Stage}
    (hl : stage.Local) (hi : ∀ command ∈ commands, stage.Ignores command.1 command.2) :
    stage.KeepsForm F :=
  ⟨fun l hm => (h.pieces l hm).keeps hl hi, Stage.makesLast_plain hl h.last⟩

end Form

theorem closer_cons {c : Char} (h : c ∈ closers) (r : Text) : Closer (c :: r) :=
  ⟨c, r, rfl, h⟩

theorem Form.Uses.one {commands : List (Text × Char)} {l r : Text} (hr : Closer r)
    (hl : PieceOf commands l) (h : PlainPiece r) : (Form.one l r).Uses commands := by
  refine ⟨?_, ?_, h.1⟩
  · simpa [Closed, Form.pieces, Form.one] using hr
  · simpa [Form.one] using hl

theorem Form.Uses.two {commands : List (Text × Char)} {l m r : Text} (hm : Closer m) (hr : Closer r)
    (hl : PieceOf commands l) (h : PieceOf commands m) (h' : PlainPiece r) :
    (Form.two l m r).Uses commands := by
  refine ⟨?_, ?_, h'.1⟩
  · simpa [Closed, Form.pieces, Form.two] using ⟨hm, hr⟩
  · simpa [Form.two] using ⟨hl, h⟩

theorem Form.Uses.swapped {commands : List (Text × Char)} {l m r : Text} (hm : Closer m)
    (hr : Closer r) (hl : PieceOf commands l) (h : PieceOf commands m) (h' : PlainPiece r) :
    (Form.swapped l m r).Uses commands := by
  refine ⟨?_, ?_, h'.1⟩
  · simpa [Closed, Form.pieces, Form.swapped] using ⟨hm, hr⟩
  · simpa [Form.swapped] using ⟨hl, h⟩

/-- Stages that look at none of its commands keep the form. -/
theorem Reframes.of_uses {P : Text → Text → Prop} {stages : List Stage} {F : Form}
    {commands : List (Text × Char)} (h : F.Uses commands) (hl : ∀ stage ∈ stages, stage.Local)
    (hi : ∀ stage ∈ stages, ∀ command ∈ commands, stage.Ignores command.1 command.2) :
    Reframes P stages F F :=
  of_keeps hl h.closed fun stage hs => h.keeps (hl stage hs) (hi stage hs)

/-- All stages keep a form without commands. -/
theorem Reframes.of_plain {P : Text → Text → Prop} {stages : List Stage} {F : Form}
    (h : F.Uses []) (hl : ∀ stage ∈ stages, stage.Local) : Reframes P stages F F :=
  of_uses h hl fun _ _ _ hm => absurd hm List.not_mem_nil

/-! ### Answers that count out -/

/-- Each type of brackets counts out, from the front on. -/
def Counted (s : Text) : Prop :=
  ∀ b, walk b 0 s = some 0

theorem counted_of_nested {s : Text} (h : Nested s) : Counted s :=
  walk_of_nested h

theorem Counted.blanks {s bl bl' : Text} (h : Counted s) (hbl : isAllBlank bl = true)
    (hbl' : isAllBlank bl' = true) : Counted (bl ++ (s ++ bl')) := by
  intro b
  have hscan := followsBrackets_walk b
  rw [hscan.nested_append (nested_of_isAllBlank hbl),
    hscan.append_nested (nested_of_isAllBlank hbl')]
  exact h b

/-- The passes before the powers of functions keep the counts. -/
theorem Counted.chain : ∀ {stages : List Stage},
    (∀ stage ∈ stages,
      stage ∈ [Stage.strictPass .fraction, .strictPass .root, .strictPass .logBase]) →
    ∀ ⦃x x' : Text⦄, Counted x → Chain true stages x x' → Counted x'
  | [], _, _, _, h, rfl => h
  | stage :: _, hs, _, _, h, ⟨_, hu, hx⟩ =>
    chain (fun stage h => hs stage (List.mem_cons_of_mem _ h))
      (fun b => walk_of_rewrites_pass (hs stage (List.mem_cons_self ..)) hu (h b)) hx

/-- Both answers count out. -/
def BothCounted (x y : Text) : Prop :=
  Counted x ∧ Counted y

theorem BothCounted.chain {stages : List Stage}
    (hs : ∀ stage ∈ stages,
      stage ∈ [Stage.strictPass .fraction, .strictPass .root, .strictPass .logBase])
    ⦃x x' y y' : Text⦄ (h : BothCounted x y) (hx : Chain true stages x x')
    (hy : Chain true stages y y') : BothCounted x' y' :=
  ⟨Counted.chain hs h.1 hx, Counted.chain hs h.2 hy⟩

end NumericAnswer
