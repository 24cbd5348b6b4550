/-
# Blocks in frames

A frame is a text with blocks in it, such as the arguments of a macro: each
block stands between a piece of the frame that does not end in a letter or
digit and one that begins with a closing bracket or a comma. A stage whose
finds are local rewrites each block as it rewrites the block alone, and the
pieces of the frame that it keeps stay. Blanks around the pieces may go.

Key definitions: `Stage.Local`, `Stage.Keeps`, `Framed`.
Key theorems: `Rewrites.append`, `Framed.rewrites`, `Framed.chain`.
-/
import Mathlib.Data.List.Forall2
import NumericAnswer.Proofs.Stage
import NumericAnswer.Proofs.Text

namespace NumericAnswer

/-! ### Local stages -/

/-- The characters at which some stage may find something. -/
def triggers : List Char :=
  ['\\', '~', '×', '·', '∙', '⋅', '÷', '−', 'π']

theorem notMem_triggers_of_isBlank {c : Char} (h : isBlank c = true) : c ∉ triggers := by
  have hall : ∀ c ∈ triggers, isBlank c = false := forall_mem_of_all (by decide)
  intro hc
  rw [hall c hc] at h
  cases h

/-- The finds differ in the character before the rest at most, and there only
in ways that padding does not see. -/
inductive Found.Alike : Found → Found → Prop where
  | nothing : Alike .nothing .nothing
  | short : Alike .short .short
  | unclosed : Alike .unclosed .unclosed
  | step {before before' : Option Char} (out rest : Text)
      (h : before.any isAlphanumeric = before'.any isAlphanumeric) :
      Alike (.step out before rest) (.step out before' rest)

/-- What the stage finds in a text does not change when another text follows
that closes it, except that it may swallow the blanks between the two. -/
structure Stage.Local (stage : Stage) : Prop where
  before {b b' : Option Char} (c : Char) (s : Text)
    (h : b.any isAlphanumeric = b'.any isAlphanumeric) : Found.Alike (stage b c s) (stage b' c s)
  plain {c : Char} (b : Option Char) (s : Text) (h : c ∉ triggers) : stage b c s = .nothing
  nothing {b : Option Char} {c : Char} {s v : Text} (h : stage b c s = .nothing) (hv : Closes v) :
    stage b c (s ++ v) = .nothing
  step {b b' : Option Char} {c : Char} {s v out rest : Text} (h : stage b c s = .step out b' rest)
    (hv : Closes v) :
    stage b c (s ++ v) = .step out b' (rest ++ v) ∨
      rest = [] ∧ ∃ b', stage b c (s ++ v) = .step out b' (dropBlanks v)

section Local

variable {strict : Bool} {stage : Stage}

/-- A run depends on the character before the text as far as padding sees it. -/
theorem Rewrites.of_before (hl : stage.Local) {b b' : Option Char} {s t : Text}
    (h : Rewrites strict stage b s t) (hb : b.any isAlphanumeric = b'.any isAlphanumeric) :
    Rewrites strict stage b' s t := by
  induction h generalizing b' with
  | nil => exact .nil _
  | @keep before c s t h ht _ =>
    have ha := hl.before c s hb
    rw [h] at ha
    generalize hf : stage b' c s = f at ha
    cases ha
    exact .keep hf ht
  | @move before before' c s out rest t h ht ih =>
    have ha := hl.before c s hb
    rw [h] at ha
    generalize hf : stage b' c s = f at ha
    cases ha with
    | step _ _ hb' => exact .move hf (ih hb')
  | @leave before c s t hs h ht _ =>
    have ha := hl.before c s hb
    rw [h] at ha
    generalize hf : stage b' c s = f at ha
    cases ha
    exact .leave hs hf ht
  | @quit before c s hs h =>
    have ha := hl.before c s hb
    rw [h] at ha
    generalize hf : stage b' c s = f at ha
    cases ha
    exact .quit hs hf

theorem Rewrites.eq_nil {b : Option Char} {t : Text} (h : Rewrites strict stage b [] t) :
    t = [] := by
  cases h
  rfl

theorem notMem_triggers_of_mem_closers {c : Char} (h : c ∈ closers) : c ∉ triggers := by
  have : ∀ c ∈ closers, c ∉ triggers := by simp [closers, triggers]
  exact this c h

/-- What begins with a character at which nothing is found is rewritten the same after
every character. -/
theorem Rewrites.of_plain (hl : stage.Local) {b : Option Char} {c : Char} {s t : Text}
    (hc : c ∉ triggers) (h : Rewrites true stage b (c :: s) t) (b' : Option Char) :
    Rewrites true stage b' (c :: s) t := by
  have hn := fun b => hl.plain b s hc
  cases h with
  | keep _ ht => exact .keep (hn b') ht
  | move h => rw [hn] at h; cases h
  | leave hs => cases hs
  | quit hs => cases hs

/-- What closes a block is rewritten the same after every character. -/
theorem Rewrites.of_closes (hl : stage.Local) {b : Option Char} {v w : Text} (hv : Closes v)
    (h : Rewrites true stage b v w) (b' : Option Char) : Rewrites true stage b' v w := by
  obtain ⟨c, r, rfl, hc⟩ := hv.eq_cons
  refine h.of_plain hl ?_ b'
  rcases hc with hc | hc
  · exact notMem_triggers_of_isBlank hc
  · exact notMem_triggers_of_mem_closers hc

/-- A block is rewritten the same with a text after it that closes it. -/
theorem Rewrites.append (hl : stage.Local) {b : Option Char} {s t : Text}
    (h : Rewrites true stage b s t) : ∀ {v : Text}, Closes v → ∃ v', (v' = v ∨ v' = dropBlanks v) ∧
      ∀ b' w, Rewrites true stage b' v' w → Rewrites true stage b (s ++ v) (t ++ w) := by
  induction h with
  | nil b => exact fun {v} hv => ⟨v, .inl rfl, fun b' w hw => hw.of_closes hl hv b⟩
  | keep h _ ih =>
    intro v hv
    obtain ⟨v', hv', hw⟩ := ih hv
    exact ⟨v', hv', fun b' w h' => .keep (hl.nothing h hv) (hw b' w h')⟩
  | move h ht ih =>
    intro v hv
    rcases hl.step h hv with hs | ⟨rfl, b', hs⟩
    · obtain ⟨v', hv', hw⟩ := ih hv
      refine ⟨v', hv', fun b' w h' => ?_⟩
      rw [List.append_assoc]
      exact .move hs (hw b' w h')
    · obtain rfl : _ = [] := ht.eq_nil
      refine ⟨dropBlanks v, .inr rfl, fun b'' w h' => ?_⟩
      rw [List.append_nil]
      exact .move hs (h'.of_closes hl hv.dropBlanks b')
  | leave hs => cases hs
  | quit hs => cases hs

/-- The text does not go on from a letter or digit. -/
def Apart (b : Option Char) : Prop :=
  b.any isAlphanumeric = false

/-- Blanks stay. -/
theorem rewrites_blanks_append (hl : stage.Local) {s t : Text}
    (h : ∀ b, Apart b → Rewrites strict stage b s t) : ∀ {bl : Text}, isAllBlank bl = true →
      ∀ b, Apart b → Rewrites strict stage b (bl ++ s) (bl ++ t)
  | [], _, b, hb => h b hb
  | c :: bl, hbl, b, _ => by
    simp only [isAllBlank, List.all_cons, Bool.and_eq_true] at hbl
    refine .keep (hl.plain b _ (notMem_triggers_of_isBlank hbl.1)) ?_
    exact rewrites_blanks_append hl h hbl.2 _ (by simpa [Apart] using isAlphanumeric_of_isBlank hbl.1)

end Local

/-! ### Frames -/

/-- The stage makes `l'` of the piece `l`, whatever follows, and goes on apart
from letters and digits. -/
def Stage.Makes (stage : Stage) (l l' : Text) : Prop :=
  ∀ (b : Option Char) (s t : Text), Apart b → (∀ b', Apart b' → Rewrites true stage b' s t) →
    Rewrites true stage b (l ++ s) (l' ++ t)

/-- The stage leaves the piece as it is, also after a letter or digit. -/
def Stage.Keeps (stage : Stage) (l : Text) : Prop :=
  ∀ (b : Option Char) (s t : Text), (∀ b', Apart b' → Rewrites true stage b' s t) →
    Rewrites true stage b (l ++ s) (l ++ t)

theorem Stage.Keeps.makes {stage : Stage} {l : Text} (h : stage.Keeps l) : stage.Makes l l :=
  fun b s t _ => h b s t

/-- The stage makes `r'` of the last piece `r`, which nothing follows. -/
def Stage.MakesLast (stage : Stage) (r r' : Text) : Prop :=
  ∀ b, Apart b → Rewrites true stage b r r'

theorem Stage.Makes.last {stage : Stage} {r r' : Text} (h : stage.Makes r r') :
    stage.MakesLast r r' := by
  intro b hb
  have := h b [] [] hb fun b _ => .nil b
  rwa [List.append_nil, List.append_nil] at this

/-- The text begins with a closing bracket or a comma. -/
def Closer (l : Text) : Prop :=
  ∃ c r, l = c :: r ∧ c ∈ closers

/-- The text is made of the pieces of a frame, each with its block after it,
and of the last piece, with blanks before the pieces and the blocks. -/
def Framed : List (Text × Text) → Text → Text → Prop
  | [], r, t => ∃ bl, isAllBlank bl = true ∧ t = bl ++ r
  | (l, x) :: fs, r, t => ∃ bl bl' u, isAllBlank bl = true ∧ isAllBlank bl' = true ∧
      Framed fs r u ∧ t = bl ++ (l ++ (bl' ++ (x ++ u)))

/-- The pieces of a frame. -/
def pieces (fs : List (Text × Text)) (r : Text) : List Text :=
  fs.map Prod.fst ++ [r]

theorem Closer.closes {l : Text} (h : Closer l) (s : Text) : Closes (l ++ s) := by
  obtain ⟨c, r, rfl, hc⟩ := h
  exact closes_cons hc _

theorem Closer.dropBlanks_append {l : Text} (h : Closer l) (s : Text) :
    dropBlanks (l ++ s) = l ++ s := by
  obtain ⟨c, r, rfl, hc⟩ := h
  exact dropBlanks_cons_of_not_isBlank (isBlank_of_mem_closers hc) _

theorem Framed.closes : ∀ {fs : List (Text × Text)} {r t : Text}, Framed fs r t →
    (∀ l ∈ pieces fs r, Closer l) → Closes t
  | [], r, _, ⟨bl, hbl, rfl⟩, hc => by
    have := (hc r (by simp [pieces])).closes []
    rw [List.append_nil] at this
    exact closes_blanks_append hbl this
  | _ :: _, _, _, ⟨_, _, _, hbl, _, _, rfl⟩, hc =>
    closes_blanks_append hbl ((hc _ (by simp [pieces])).closes _)

/-- The blanks before a frame may go. -/
theorem Framed.dropBlanks : ∀ {fs : List (Text × Text)} {r t : Text}, Framed fs r t →
    (∀ l ∈ pieces fs r, Closer l) → Framed fs r (dropBlanks t)
  | [], r, _, ⟨bl, hbl, rfl⟩, hc => by
    have := (hc r (by simp [pieces])).dropBlanks_append []
    rw [List.append_nil] at this
    rw [dropBlanks_of_isAllBlank hbl, this]
    exact ⟨[], rfl, rfl⟩
  | (l, x) :: _, _, _, ⟨bl, bl', u, hbl, hbl', hu, rfl⟩, hc => by
    rw [dropBlanks_of_isAllBlank hbl, (hc l (by simp [pieces])).dropBlanks_append]
    exact ⟨[], bl', u, rfl, hbl', hu, rfl⟩

/-- The stage makes the second frame of the first one, piece by piece and block
by block. -/
inductive FrameMakes (stage : Stage) :
    List (Text × Text) → Text → List (Text × Text) → Text → Prop where
  | last {r r' : Text} (h : stage.MakesLast r r') : FrameMakes stage [] r [] r'
  | cons {l l' x x' r r' : Text} {fs fs' : List (Text × Text)} (hl : stage.Makes l l')
      (hx : Rewrites true stage none x x') (h : FrameMakes stage fs r fs' r') :
      FrameMakes stage ((l, x) :: fs) r ((l', x') :: fs') r'

/-- A stage rewrites a piece with its block, before a text that closes the block and
that it makes a text with the property of. -/
theorem rewrites_block {stage : Stage} (hl : stage.Local) {K : Text → Prop} {l l' x x' bl u : Text}
    (hp : stage.Makes l l') (hx : Rewrites true stage none x x') (hbl : isAllBlank bl = true)
    (hu : Closes u) (h : ∀ {v}, v = u ∨ v = dropBlanks u →
      ∃ v', K v' ∧ ∀ b, Apart b → Rewrites true stage b v v') :
    ∃ u', K u' ∧ ∀ b, Apart b →
      Rewrites true stage b (l ++ (bl ++ (x ++ u))) (l' ++ (bl ++ (x' ++ u'))) := by
  obtain ⟨v, hv, hw⟩ := hx.append hl hu
  obtain ⟨u', hu', hrew⟩ := h hv
  refine ⟨u', hu', fun b hb => hp b _ _ hb (rewrites_blanks_append hl (fun b hb => ?_) hbl)⟩
  exact (hw none u' (hrew none rfl)).of_before hl hb.symm

/-- A stage rewrites a frame piece by piece and block by block. -/
theorem Framed.rewrites {stage : Stage} (hl : stage.Local) {fs fs' : List (Text × Text)}
    {r r' : Text} (h : FrameMakes stage fs r fs' r') : ∀ {t : Text}, Framed fs r t →
      (∀ l ∈ (pieces fs r).tail, Closer l) →
      ∃ t', Framed fs' r' t' ∧ ∀ b, Apart b → Rewrites true stage b t t' := by
  induction h with
  | @last r r' hr =>
    rintro _ ⟨bl, hbl, rfl⟩ _
    exact ⟨bl ++ r', ⟨bl, hbl, rfl⟩, rewrites_blanks_append hl hr hbl⟩
  | @cons l l' x x' r r' fs fs' hp hx _ ih =>
    rintro _ ⟨bl, bl', u, hbl, hbl', hu, rfl⟩ hc
    replace hc : ∀ l ∈ pieces fs r, Closer l := hc
    obtain ⟨t', ht', hrew⟩ := rewrites_block hl hp hx hbl' (hu.closes hc) fun {v} hv => by
      refine ih ?_ fun l hl => hc l (List.mem_of_mem_tail hl)
      rcases hv with rfl | rfl
      · exact hu
      · exact hu.dropBlanks hc
    exact ⟨bl ++ (l' ++ (bl' ++ (x' ++ t'))), ⟨bl, bl', t', hbl, hbl', ht', rfl⟩,
      rewrites_blanks_append hl hrew hbl⟩

/-- The second frame has the same pieces, and blocks that the relation makes of
those of the first. -/
def SameFrame (make : Text → Text → Prop) : List (Text × Text) → List (Text × Text) → Prop :=
  List.Forall₂ fun f f' => f.1 = f'.1 ∧ make f.2 f'.2

theorem SameFrame.map_fst {make : Text → Text → Prop} {fs fs' : List (Text × Text)}
    (h : SameFrame make fs fs') : fs.map Prod.fst = fs'.map Prod.fst := by
  induction h with
  | nil => rfl
  | cons h _ ih => simpa [h.1] using ih

/-- The stage keeps the pieces before the blocks, and the last one. -/
structure Stage.KeepsFrame (stage : Stage) (ls : List Text) (r : Text) : Prop where
  pieces : ∀ l ∈ ls, stage.Keeps l
  last : stage.MakesLast r r

theorem SameFrame.frameMakes {stage : Stage} {fs fs' : List (Text × Text)} {r : Text}
    (h : SameFrame (Rewrites true stage none) fs fs') (hk : stage.KeepsFrame (fs.map Prod.fst) r) :
    FrameMakes stage fs r fs' r := by
  induction h with
  | nil => exact .last hk.last
  | @cons f f' fs fs' h _ ih =>
    obtain ⟨l, x⟩ := f
    obtain ⟨l', x'⟩ := f'
    obtain ⟨rfl, hx⟩ : l = l' ∧ Rewrites true stage none x x' := h
    obtain ⟨hpiece, hpieces⟩ := List.forall_mem_cons.mp hk.pieces
    exact .cons hpiece.makes hx (ih ⟨hpieces, hk.last⟩)

theorem SameFrame.exists_of_cons {stage : Stage} {stages : List Stage}
    {fs fs' : List (Text × Text)} (h : SameFrame (Chain true (stage :: stages)) fs fs') :
    ∃ gs, SameFrame (Rewrites true stage none) fs gs ∧ SameFrame (Chain true stages) gs fs' := by
  induction h with
  | nil => exact ⟨[], .nil, .nil⟩
  | @cons f f' fs fs' h _ ih =>
    obtain ⟨hl, x, hx, hx'⟩ := h
    obtain ⟨gs, hgs, hgs'⟩ := ih
    exact ⟨(f.1, x) :: gs, .cons ⟨rfl, hx⟩ hgs, .cons ⟨hl, hx'⟩ hgs'⟩

theorem SameFrame.eq_of_nil {fs fs' : List (Text × Text)} (h : SameFrame (Chain true []) fs fs') :
    fs = fs' := by
  induction h with
  | nil => rfl
  | cons h _ ih =>
    obtain ⟨hl, hx⟩ := h
    rw [ih, Prod.ext hl hx]

/-- Stages that keep the pieces of a frame rewrite it block by block. -/
theorem Framed.chain : ∀ {stages : List Stage} {fs fs' : List (Text × Text)} {r t : Text},
    (∀ stage ∈ stages, stage.Local) → Framed fs r t → (∀ l ∈ (pieces fs r).tail, Closer l) →
    (∀ stage ∈ stages, stage.KeepsFrame (fs.map Prod.fst) r) → SameFrame (Chain true stages) fs fs' →
    ∃ t', Framed fs' r t' ∧ Chain true stages t t'
  | [], _, _, _, t, _, ht, _, _, h => ⟨t, h.eq_of_nil ▸ ht, rfl⟩
  | stage :: stages, fs, fs', r, t, hl, ht, hc, hk, h => by
    obtain ⟨gs, hgs, hgs'⟩ := h.exists_of_cons
    obtain ⟨u, hu, hr⟩ := ht.rewrites (hl stage (List.mem_cons_self ..))
      (hgs.frameMakes (hk stage (List.mem_cons_self ..))) hc
    have hp := hgs.map_fst
    have hpieces : pieces fs r = pieces gs r := congrArg (· ++ [r]) hp
    obtain ⟨t', ht', hch⟩ := hu.chain (fun st h => hl st (List.mem_cons_of_mem _ h)) (hpieces ▸ hc)
      (fun st h => hp ▸ hk st (List.mem_cons_of_mem _ h)) hgs'
    exact ⟨t', ht', u, hr none rfl, hch⟩

end NumericAnswer
