/-
# Functions before powers of functions

A function before the power of another one is written in three ways. With braces
around the power, or with the exponent behind the argument, the text stands for the
first function of the power. With the exponent right after the second function it
does not: the power becomes a group with an exponent, the first function takes the
group as its argument, and the text stands for the power of the first function.

Key definition: `NestedPower`.
Key theorems: `reframes_functionPower`, `Accepted.head?_ne`, `NestedPower.parse_nested`.
-/
import NumericAnswer.Proofs.Compositional

namespace NumericAnswer

/-! ### The stage of the powers of functions -/

theorem Stage.step_functionPower {f : UnaryFunction} (hf : f ∈ UnaryFunction.commands)
    {s x y rest : Text} (hb : buildFunctionPower f s =
      .ok ('(' :: f.name.toList ++ inBraces y ++ ')' :: '^' :: inBraces x, rest))
    (b : Option Char) : functionPower b '\\' (f.name.toList ++ '^' :: s) =
      .step [] b ('(' :: f.name.toList ++ inBraces y ++ ')' :: '^' :: inBraces x ++ rest) := by
  have happ : '(' :: f.name.toList ++ inBraces y ++ ')' :: '^' :: inBraces x =
      ('(' :: f.name.toList ++ inBraces y ++ [')', '^']) ++ inBraces x := by simp
  have hpad : padded b rest.head? ('(' :: f.name.toList ++ inBraces y ++ ')' :: '^' :: inBraces x) =
      '(' :: f.name.toList ++ inBraces y ++ ')' :: '^' :: inBraces x := by
    refine padded_eq_self (.inr (by simp; decide +kernel)) ?_
    rw [happ]
    exact apart_inBraces _ _
  have hl := leadingLetters_name_append (c := '^') f.isName (by decide) s
  have hm : markLength? '^' ('^' :: s) = some 1 := by
    have hd := dropBlanks_cons_of_not_isBlank (c := '^') (by decide) s
    simp [markLength?, hd, show isBlank '^' = false by decide]
  have hdrop : (f.name.toList ++ '^' :: s).drop (f.name.toList.length + 1) = s := by simp
  have hsite : functionPowerSite? '\\' (f.name.toList ++ '^' :: s) =
      some (siteAt (f.name.toList ++ '^' :: s) (f.name.toList.length + 1)
        (buildFunctionPower f)) := by
    simp [functionPowerSite?, hl, UnaryFunction.ofCommand?_name hf, hm]
  unfold functionPower pass
  simp only [Pass.functionPower, hsite, siteAt, hdrop, hb, hpad]

/-- The first answer can be an exponent: it has no minus sign in front. -/
def ExponentReady (x y : Text) : Prop :=
  BothCounted x y ∧ (strip x).head? ≠ some '-'

theorem PlainPiece.append {l p : Text} (hp : ∀ c ∈ p, c ∉ triggers) (h : PlainPiece l) :
    PlainPiece (p ++ l) := by
  obtain ⟨hl, c, hc, ha⟩ := h
  refine ⟨fun d hd => (List.mem_append.mp hd).elim (hp d) (hl d), c, ?_, ha⟩
  rw [List.getLast?_append, hc]
  rfl

/-- The power of a function becomes a group with an exponent, after a piece that
the stage keeps. -/
theorem reframes_functionPower {f : UnaryFunction} (hf : f ∈ UnaryFunction.commands)
    {l r : Text} (hr : PlainPiece ('\x7d' :: r)) (hkeep : ∀ {b : Option Char} {s t : Text},
      (∀ b', Rewrites true .functionPower b' ('\\' :: s) t) →
        Rewrites true .functionPower b (l ++ '\\' :: s) (l ++ t)) :
    Reframes ExponentReady [.functionPower]
      (.two (l ++ '\\' :: (f.name.toList ++ ['^', '\x7b'])) "\x7d\x7b".toList ('\x7d' :: r))
      (.swapped (l ++ '(' :: (f.name.toList ++ ['\x7b'])) "\x7d)^\x7b".toList
        ('\x7d' :: r)) := by
  have hl := Stage.local_functionPower
  have hkeeps : ∀ {p : Text}, PlainPiece p → Stage.functionPower.Keeps p :=
    fun h => Stage.keeps_plain hl h.1 h.2
  have hopening : PlainPiece ('(' :: (f.name.toList ++ ['\x7b'])) :=
    .append (p := ['(']) (List.forall_mem_singleton.mpr (by decide))
      (.append f.notMem_triggers (by decide +kernel))
  have hbetween : PlainPiece "\x7d)^\x7b".toList := by decide +kernel
  rintro x _ y _ _ ⟨⟨hx, hy⟩, hminus⟩ ⟨x', hrx, rfl⟩ ⟨y', hry, rfl⟩
    ⟨bl, bl₁, _, hbl, hbl₁, ⟨bl₂, bl₃, _, hbl₂, hbl₃, ⟨bl₄, hbl₄, rfl⟩, rfl⟩, rfl⟩
  rw [← strip_blanks hbl₁ hbl₂] at hminus
  have hb := buildFunctionPower_braces (hx.blanks hbl₁ hbl₂ .curly) (hy.blanks hbl₃ hbl₄ .curly) f
    hminus r
  -- After the step the argument comes first, and then the exponent.
  have hframed : Framed [("\x7d)^\x7b".toList, x)] ('\x7d' :: r)
      (bl₄ ++ ("\x7d)^\x7b".toList ++ (bl₁ ++ (x ++ (bl₂ ++ '\x7d' :: r))))) :=
    ⟨bl₄, bl₁, _, hbl₄, hbl₁, ⟨bl₂, hbl₂, rfl⟩, rfl⟩
  have hmakes : FrameMakes .functionPower [("\x7d)^\x7b".toList, x)] ('\x7d' :: r)
      [("\x7d)^\x7b".toList, x')] ('\x7d' :: r) :=
    .cons (hkeeps hbetween).makes hrx (.last (hkeeps hr).makes.last)
  have hcloser : ∀ p ∈ pieces [("\x7d)^\x7b".toList, x)] ('\x7d' :: r), Closer p := by
    simpa [pieces] using ⟨closer_cons (by decide) _, closer_cons (by decide) _⟩
  obtain ⟨u', hu', hrew⟩ := rewrites_block hl (hkeeps hopening).makes hry hbl₃
    (hframed.closes hcloser) fun {v} hv => by
      refine Framed.rewrites hl hmakes ?_ fun p hp => hcloser p (List.mem_of_mem_tail hp)
      rcases hv with rfl | rfl
      · exact hframed
      · exact hframed.dropBlanks hcloser
  refine ⟨_, ⟨bl, bl₃, u', hbl, hbl₃, hu', rfl⟩, _,
    rewrites_blanks_append hl (fun b _ => ?_) hbl none rfl, rfl⟩
  have hmove : ∀ b, Rewrites true .functionPower b ('\\' :: (f.name.toList ++ '^' :: '\x7b' ::
      ((bl₁ ++ (x ++ bl₂)) ++ '\x7d' :: '\x7b' :: ((bl₃ ++ (y ++ bl₄)) ++ '\x7d' :: r))))
      ('(' :: (f.name.toList ++ '\x7b' :: (bl₃ ++ (y' ++ u')))) := by
    intro b
    have hafter := (hrew none rfl).of_plain hl (by decide) b
    refine .move (Stage.step_functionPower hf hb b) ?_
    simpa [inBraces] using hafter
  simpa [Form.two] using hkeep hmove

/-! ### Exponents with a minus sign -/

/-- What no stage looks at stands at the front of what the stages make. -/
theorem Chain.eq_append {strict : Bool} {l : Text} (hp : ∀ c ∈ l, c ∉ triggers) :
    ∀ {stages : List Stage} {s t : Text}, (∀ stage ∈ stages, stage.Local) →
      Chain strict stages (l ++ s) t → ∃ t', t = l ++ t'
  | [], s, _, _, h => ⟨s, h.symm⟩
  | stage :: stages, _, _, hl, ⟨_, hu, ht⟩ => by
    obtain ⟨_, u, rfl, _⟩ := hu.eq_append (hl stage (List.mem_cons_self ..)) hp
    exact ht.eq_append hp fun stage h => hl stage (List.mem_cons_of_mem _ h)

theorem head?_collapse {bl : Text} (hbl : isAllBlank bl = true) {c : Char} (hc : isBlank c = false)
    (s : Text) : (collapse (bl ++ c :: s)).head? = some c := by
  have hwords : words (bl ++ c :: s) = words (c :: s) := by
    rw [← words_dropBlanks, dropBlanks_of_isAllBlank hbl, words_dropBlanks]
  rw [collapse, hwords, words_cons hc]
  cases words (s.dropWhile fun c => !isBlank c) <;> simp [List.intercalate_cons_cons]

/-- The minus sign of an accepted exponent that the passes before the powers of functions
leave in front is the first character of its canonical form. -/
theorem Accepted.head?_ne {calls : Nat} {exponent : Text} {n : Expr}
    (h : Accepted calls exponent n) (hminus : (canonical exponent).head? ≠ some '-') {x : Text}
    (hx : Chain true [.strictPass .fraction, .strictPass .root, .strictPass .logBase]
      (Canonical.simplified exponent) x) : (strip x).head? ≠ some '-' := by
  obtain ⟨t, u, _, hcosmetic, hlate, hbars, -⟩ := h.exists_block
  have hcanonical : canonical exponent = collapse u := by
    rw [← hbars.expandBars]
    refine canonical_eq_of_chain (Chain.append.mpr ⟨_, ?_, hlate⟩)
    rwa [unwrapped_eq_strip h.dollar h.display]
  have hsplit : Chain true ([.strictPass .fraction, .strictPass .root, .strictPass .logBase] ++
      Stage.functionPower :: Canonical.wordStages) (Canonical.simplified exponent) t := hlate
  obtain ⟨x', hx', hrest⟩ := Chain.append.mp hsplit
  obtain rfl := hx.unique hx'
  intro hhead
  obtain ⟨s, hs⟩ := List.head?_eq_some_iff.mp hhead
  obtain ⟨bl, bl', hbl, -, hstrip⟩ := exists_blanks_strip x
  have hfront : x = (bl ++ ['-']) ++ (s ++ bl') := by rw [hstrip, hs]; simp
  have hplain : ∀ c ∈ bl ++ ['-'], c ∉ triggers := by
    intro c hc
    rcases List.mem_append.mp hc with hc | hc
    · exact notMem_triggers_of_isBlank (List.all_eq_true.mp hbl c hc)
    · obtain rfl := List.mem_singleton.mp hc
      decide
  have hbar : '|' ∉ bl ++ ['-'] := by
    intro hm
    rcases List.mem_append.mp hm with hm | hm
    · exact absurd (List.all_eq_true.mp hbl _ hm) (by decide)
    · exact absurd (List.mem_singleton.mp hm) (by decide)
  rw [hfront] at hrest
  obtain ⟨t', rfl⟩ := hrest.eq_append hplain fun stage hs => Canonical.local_of_mem_stages stage
    (List.mem_append_right _ (List.mem_append_right
      [Stage.strictPass .fraction, .strictPass .root, .strictPass .logBase] hs))
  obtain ⟨u', rfl⟩ := hbars.eq_append hbar
  refine hminus ?_
  rw [hcanonical, List.append_assoc]
  exact head?_collapse hbl (by decide) u'

/-! ### Three ways to write it -/

/-- Where the exponent of the power stands: ahead of the argument, also in braces
around the power, or behind the argument. -/
inductive NestedPower where
  | ahead
  | braced
  | behind
  deriving DecidableEq, Repr

namespace NestedPower

section Forms

variable (g f : UnaryFunction)

/-- The function `g` before the power of `f`. The first answer is the exponent. -/
def written : NestedPower → Form
  | ahead => .two ('\\' :: g.name.toList ++ '\\' :: (f.name.toList ++ ['^', '\x7b']))
      "\x7d\x7b".toList "\x7d".toList
  | braced => .two ('\\' :: (g.name.toList ++ ['\x7b']) ++
      '\\' :: (f.name.toList ++ ['^', '\x7b'])) "\x7d\x7b".toList "\x7d\x7d".toList
  | behind => .swapped ('\\' :: g.name.toList ++ '\\' :: (f.name.toList ++ ['\x7b']))
      "\x7d^\x7b".toList "\x7d".toList

/-- What the stage of the powers of functions makes of it. -/
def regrouped : NestedPower → Form
  | ahead => .swapped ('\\' :: g.name.toList ++ '(' :: (f.name.toList ++ ['\x7b']))
      "\x7d)^\x7b".toList "\x7d".toList
  | braced => .swapped ('\\' :: (g.name.toList ++ ['\x7b']) ++
      '(' :: (f.name.toList ++ ['\x7b'])) "\x7d)^\x7b".toList "\x7d\x7d".toList
  | behind => written g f behind

/-- What all stages make of it. -/
def plain : NestedPower → Form
  | ahead => .swapped (g.name.toList ++ '(' :: (f.name.toList ++ ['\x7b']))
      "\x7d)^\x7b".toList "\x7d".toList
  | braced => .swapped (g.name.toList ++ '\x7b' :: '(' :: (f.name.toList ++ ['\x7b']))
      "\x7d)^\x7b".toList "\x7d\x7d".toList
  | behind => .swapped (g.name.toList ++ ' ' :: (f.name.toList ++ ['\x7b']))
      "\x7d^\x7b".toList "\x7d".toList

/-- The expression that it stands for. -/
def tree (exponent x : Expr) : NestedPower → Expr
  | ahead => ((x.call f).call g).power exponent
  | braced | behind => ((x.call f).power exponent).call g

/-- The shapes, with those of the exponent and the argument. -/
def shapes (us vs : List (Symbol × Bool)) : NestedPower → List (Symbol × Bool)
  | ahead => lone (.word (.unary g)) :: grouped .round (lone (.word (.unary f)) :: grouped .curly vs) ++
      lone (.operator .caret) :: grouped .curly us
  | braced => lone (.word (.unary g)) :: grouped .curly
      (grouped .round (lone (.word (.unary f)) :: grouped .curly vs) ++
        lone (.operator .caret) :: grouped .curly us)
  | behind => lone (.word (.unary g)) :: lone (.word (.unary f)) ::
      (grouped .curly vs ++ lone (.operator .caret) :: grouped .curly us)

/-- The commands that it uses, and what follows each. -/
def commands : NestedPower → List (Text × Char)
  | ahead => [(g.name.toList, '\\'), (f.name.toList, '^')]
  | braced => [(g.name.toList, '\x7b'), (f.name.toList, '^')]
  | behind => [(g.name.toList, '\\'), (f.name.toList, '\x7b')]

end Forms

variable {g f : UnaryFunction}

theorem uses_written (p : NestedPower) : (p.written g f).Uses (p.commands g f) := by
  have hbetween : PlainPiece "\x7d\x7b".toList ∧ PlainPiece "\x7d^\x7b".toList := by decide +kernel
  cases p with
  | ahead =>
    exact .two (closer_cons (by decide) _) (closer_cons (by decide) _)
      (.command g.isName (by simp [commands]) (.command f.isName (by simp [commands])
        (.plain (by decide +kernel)))) (.plain hbetween.1) (by decide +kernel)
  | braced =>
    have hf : PieceOf (commands g f braced) ('\\' :: (f.name.toList ++ ['^', '\x7b'])) :=
      .command f.isName (by simp [commands]) (.plain (by decide +kernel))
    have hg : PieceOf (commands g f braced)
        ('\\' :: (g.name.toList ++ '\x7b' :: '\\' :: (f.name.toList ++ ['^', '\x7b']))) :=
      .command g.isName (by simp [commands])
        (.after (p := ['\x7b']) (List.forall_mem_singleton.mpr (by decide)) hf)
    exact .two (closer_cons (by decide) _) (closer_cons (by decide) _) (by simpa using hg)
      (.plain hbetween.1) (by decide +kernel)
  | behind =>
    exact .swapped (closer_cons (by decide) _) (closer_cons (by decide) _)
      (.command g.isName (by simp [commands]) (.command f.isName (by simp [commands])
        (.plain (by decide +kernel)))) (.plain hbetween.2) (by decide +kernel)

theorem uses_plain (p : NestedPower) : (p.plain g f).Uses [] := by
  have hf : ∀ {l : Text}, PlainPiece l → PlainPiece (f.name.toList ++ l) :=
    fun h => .append f.notMem_triggers h
  have hg : ∀ {l : Text}, PlainPiece l → PlainPiece (g.name.toList ++ l) :=
    fun h => .append g.notMem_triggers h
  have hopening : PlainPiece (f.name.toList ++ ['\x7b']) := hf (by decide +kernel)
  have hcons : ∀ {c : Char} {l : Text}, c ∉ triggers → PlainPiece l → PlainPiece (c :: l) :=
    fun hc h => .append (p := [_]) (List.forall_mem_singleton.mpr hc) h
  cases p with
  | ahead =>
    exact .swapped (closer_cons (by decide) _) (closer_cons (by decide) _)
      (.plain (hg (hcons (by decide) hopening))) (.plain (by decide +kernel)) (by decide +kernel)
  | braced =>
    exact .swapped (closer_cons (by decide) _) (closer_cons (by decide) _)
      (.plain (hg (hcons (by decide) (hcons (by decide) hopening)))) (.plain (by decide +kernel))
      (by decide +kernel)
  | behind =>
    exact .swapped (closer_cons (by decide) _) (closer_cons (by decide) _)
      (.plain (hg (hcons (by decide) hopening))) (.plain (by decide +kernel)) (by decide +kernel)

/-! #### What the stages make of it -/

theorem mem_commands {p : NestedPower} {command : Text × Char} (h : command ∈ p.commands g f) :
    (command.1 = g.name.toList ∨ command.1 = f.name.toList) ∧ command.2 ∈ ['\\', '^', '\x7b'] := by
  cases p <;> simp only [commands, List.mem_cons, List.not_mem_nil, or_false] at h <;>
    rcases h with rfl | rfl <;> simp

variable (hg : g ∈ UnaryFunction.commands) (hf : f ∈ UnaryFunction.commands)

include hg hf in
theorem ignores_before (p : NestedPower) : ∀ stage ∈ Canonical.cosmeticStages ++
      [.strictPass .fraction, .strictPass .root, .strictPass .logBase],
    ∀ command ∈ p.commands g f, stage.Ignores command.1 command.2 := by
  intro stage hs command hc
  obtain ⟨hname, hchar⟩ := mem_commands hc
  have hsigns : isAsciiLetter command.2 = false ∧ isBlank command.2 = false ∧ command.2 ≠ '_' := by
    simp only [List.mem_cons, List.not_mem_nil, or_false] at hchar
    rcases hchar with h | h | h <;> rw [h] <;> decide
  have hmark := fun s => markLength?_cons hsigns.2.1 hsigns.2.2 s
  rcases hname with h | h <;> rw [h]
  · exact fun b s => Stage.eq_nothing_of_early hg hsigns.1 (hmark s) stage hs b
  · exact fun b s => Stage.eq_nothing_of_early hf hsigns.1 (hmark s) stage hs b

include hg hf in
/-- The cosmetic stages keep it. -/
theorem reframes_cosmetic (P : Text → Text → Prop) (p : NestedPower) :
    Reframes P Canonical.cosmeticStages (p.written g f) (p.written g f) :=
  .of_uses (uses_written p) Canonical.local_of_mem_cosmeticStages fun stage hs =>
    ignores_before hg hf p stage (List.mem_append_left _ hs)

include hf in
/-- With the exponent ahead the power becomes a group. -/
theorem reframes_regrouped (p : NestedPower) :
    Reframes ExponentReady [.functionPower] (p.written g f) (p.regrouped g f) := by
  have hl := Stage.local_functionPower
  cases p with
  | ahead =>
    refine reframes_functionPower hf (l := '\\' :: g.name.toList) (by decide +kernel) fun {b s t} h => ?_
    have hi : Stage.functionPower.Ignores g.name.toList '\\' :=
      Stage.ignores_functionPower g.isName (by decide) (by decide) (by decide)
    exact .keep (hi b s) (rewrites_plain_append hl g.notMem_triggers (h _))
  | braced =>
    refine reframes_functionPower hf (l := '\\' :: (g.name.toList ++ ['\x7b'])) (by decide +kernel)
      fun {b s t} h => ?_
    have hi : Stage.functionPower.Ignores g.name.toList '\x7b' :=
      Stage.ignores_functionPower g.isName (by decide) (by decide) (by decide)
    have hbrace : ∀ b, Rewrites true .functionPower b ('\x7b' :: '\\' :: s) ('\x7b' :: t) :=
      fun b => .keep (hl.plain b _ (by decide)) (h _)
    have happ : ∀ u : Text, '\\' :: (g.name.toList ++ ['\x7b']) ++ u =
        '\\' :: (g.name.toList ++ '\x7b' :: u) := by simp
    rw [happ, happ]
    exact .keep (hi b _) (rewrites_plain_append hl g.notMem_triggers (hbrace _))
  | behind =>
    refine .of_uses (uses_written behind) (by simpa using hl) ?_
    have hi : ∀ {n : Text}, IsName n → Stage.functionPower.Ignores n '\\' ∧
        Stage.functionPower.Ignores n '\x7b' := fun hn =>
      ⟨Stage.ignores_functionPower hn (by decide) (by decide) (by decide),
        Stage.ignores_functionPower hn (by decide) (by decide) (by decide)⟩
    simpa [commands] using ⟨(hi g.isName).1, (hi f.isName).2⟩

theorem padded_name (g f : UnaryFunction) :
    padded ('\\' :: g.name.toList).getLast? (some '\x7b') f.name.toList = ' ' :: f.name.toList := by
  have hbefore : ('\\' :: g.name.toList).getLast?.any isAlphanumeric = true := by
    cases g <;> decide +kernel
  have hword : f.name.toList.head?.any isAlphanumeric = true := by
    cases f <;> decide +kernel
  have hafter : (some '\x7b').any isAlphanumeric = false := by decide +kernel
  simp only [padded, hbefore, hword, hafter]
  rfl

include hg hf in
/-- The commands become names, apart from one another. -/
theorem reframes_names (P : Text → Text → Prop) (p : NestedPower) :
    Reframes P [.wording Rule.functionName] (p.regrouped g f) (p.plain g f) := by
  have hl := Composition.local_functionName
  have hkeeps : ∀ {l : Text}, PlainPiece l → (Stage.wording Rule.functionName).Keeps l :=
    fun h => Stage.keeps_plain hl h.1 h.2
  have hround : PlainPiece ('(' :: (f.name.toList ++ ['\x7b'])) :=
    .append (p := ['(']) (List.forall_mem_singleton.mpr (by decide))
      (.append f.notMem_triggers (by decide +kernel))
  have hcurly : PlainPiece ('\x7b' :: '(' :: (f.name.toList ++ ['\x7b'])) :=
    .append (p := ['\x7b']) (List.forall_mem_singleton.mpr (by decide)) hround
  have hends : PlainPiece "\x7d)^\x7b".toList ∧ PlainPiece "\x7d^\x7b".toList ∧
      PlainPiece "\x7d".toList ∧ PlainPiece "\x7d\x7d".toList := by decide +kernel
  have hclosed : (p.regrouped g f).Closed := by
    cases p <;> simp only [Form.Closed, Form.pieces, regrouped, written, Form.swapped] <;>
      simpa using ⟨closer_cons (by decide) _, closer_cons (by decide) _⟩
  have hnext : ∀ {c : Char} {l : Text}, isAlphanumeric c = false → PlainPiece (c :: l) →
      (Stage.wording Rule.functionName).Makes ('\\' :: (g.name.toList ++ c :: l))
        (g.name.toList ++ c :: l) := fun hc h =>
    Stage.makes_functionName hg hc fun s t => hkeeps h _ s t
  cases p with
  | ahead =>
    exact .of_makes hl hclosed (.cons ⟨hnext (by decide +kernel) hround, rfl⟩
      (.cons ⟨(hkeeps hends.1).makes, rfl⟩ .nil)) (hkeeps hends.2.2.1).makes
  | braced =>
    have hmakes := hnext (by decide +kernel) hcurly
    refine .of_makes hl hclosed (.cons ⟨?_, rfl⟩
      (.cons ⟨(hkeeps hends.1).makes, rfl⟩ .nil)) (hkeeps hends.2.2.2).makes
    simpa using hmakes
  | behind =>
    refine .of_makes hl hclosed (.cons ⟨?_, rfl⟩
      (.cons ⟨(hkeeps hends.2.1).makes, rfl⟩ .nil)) (hkeeps hends.2.2.1).makes
    refine @Stage.makes_functionName g hg '\\' (by decide +kernel) (f.name.toList ++ ['\x7b'])
      (' ' :: (f.name.toList ++ ['\x7b'])) fun s t h => ?_
    have hstep := Stage.step_functionName hf (c := '\x7b') (by decide)
      ('\\' :: g.name.toList).getLast? s
    rw [padded_name] at hstep
    have hbrace : PlainPiece ['\x7b'] := by decide +kernel
    have hmove : Rewrites true (.wording Rule.functionName) ('\\' :: g.name.toList).getLast?
        ('\\' :: (f.name.toList ++ '\x7b' :: s)) (' ' :: f.name.toList ++ '\x7b' :: t) :=
      .move hstep (hkeeps hbrace _ s t h)
    simpa using hmove

/-- The first answer can be an exponent once the passes before the powers of functions
have rewritten it. -/
def ReadyLater (x y : Text) : Prop :=
  BothCounted x y ∧ ∀ x', Chain true [.strictPass .fraction, .strictPass .root, .strictPass .logBase]
    x x' → (strip x').head? ≠ some '-'

theorem ReadyLater.exponentReady ⦃x x' y y' : Text⦄ (h : ReadyLater x y)
    (hx : Chain true [.strictPass .fraction, .strictPass .root, .strictPass .logBase] x x')
    (hy : Chain true [.strictPass .fraction, .strictPass .root, .strictPass .logBase] y y') :
    ExponentReady x' y' :=
  ⟨BothCounted.chain (by simp) h.1 hx hy, h.2 x' hx⟩

theorem readyLater_simplified {calls : Nat} {N X : Text} {n x : Expr} (hN : Accepted calls N n)
    (hX : Accepted calls X x) (hminus : (canonical N).head? ≠ some '-') :
    ReadyLater (Canonical.simplified N) (Canonical.simplified X) :=
  ⟨⟨counted_of_nested hN.simplified, counted_of_nested hX.simplified⟩,
    fun _ => hN.head?_ne hminus⟩

include hg hf in
theorem reframes_late (p : NestedPower) :
    Reframes ReadyLater (Canonical.passStages ++ Canonical.wordStages) (p.written g f)
      (p.plain g f) := by
  have hlocal : ∀ stage ∈ Canonical.passStages ++ Canonical.wordStages, stage.Local := fun stage hs =>
    Canonical.local_of_mem_stages stage (List.mem_append_right _ hs)
  have hearly : Reframes ReadyLater [.strictPass .fraction, .strictPass .root, .strictPass .logBase]
      (p.written g f) (p.written g f) := by
    refine .of_uses (uses_written p) (fun stage hs => hlocal stage ?_) fun stage hs =>
      ignores_before hg hf p stage (List.mem_append_right _ hs)
    exact List.mem_append_left _ (List.mem_append_left [Stage.functionPower] hs)
  have hlast : Reframes (fun _ _ => True) [.always Rule.sign, .wording Rule.pi, .wording Rule.e]
      (p.plain g f) (p.plain g f) :=
    .of_plain (uses_plain p) fun stage hs => hlocal stage
      (List.mem_append_right _ (List.mem_cons_of_mem _ hs))
  exact hearly.append ReadyLater.exponentReady ((reframes_regrouped hf p).append
    (fun _ _ _ _ _ _ _ => trivial) ((reframes_names hg hf (fun _ _ => True) p).append
      (fun _ _ _ _ _ _ _ => trivial) hlast))

/-! #### What the lexer and the parser make of it -/

theorem barless_plain (p : NestedPower) : (p.plain g f).Barless := by
  have hname := UnaryFunction.nest_name_append
  refine ⟨by cases p <;> simp [plain, Form.pieces, Form.swapped, UnaryFunction.bar_notMem], ?_⟩
  cases p <;> simp only [Nested, plain, Form.pieces, Form.swapped, List.map_cons, List.map_nil,
    List.cons_append, List.nil_append, List.flatten_cons, List.flatten_nil, List.append_assoc,
    List.append_nil, hname]
  case ahead => exact (nest_opening .round _ _).trans ((hname f _ _).trans (by decide))
  case braced =>
    have hround := nest_opening .round [.curly]
      (f.name.toList ++ '\x7b' :: ("\x7d)^\x7b".toList ++ "\x7d\x7d".toList))
    exact (nest_opening .curly _ _).trans (hround.trans ((hname f _ _).trans (by decide)))
  case behind =>
    exact (nest_cons (noBracket_of_isBlank (by decide)) _ _).trans ((hname f _ _).trans (by decide))

section Lexes

variable {x y : Text} {us vs : List (Symbol × Bool)}

theorem frameLexes (p : NestedPower) (hx : Lexes false x us) (hbx : '\\' ∉ x)
    (hy : Lexes false y vs) (hby : '\\' ∉ y) :
    FrameLexes ((p.plain g f).frame x y) (p.plain g f).last (p.shapes g f us vs) := by
  have hround := pieceLexes_closing .round
  have hcurly := pieceLexes_closing .curly
  have hexponent := (pieceLexes_operator .caret).append (pieceLexes_opening .curly)
  have hword := pieceLexes_wordOpening (.unary f) .curly
  cases p with
  | ahead =>
    have hopening := (pieceLexes_wordOpening (.unary g) .round).append hword
    exact .swapped ⟨hx, hbx⟩ ⟨hy, hby⟩ (by simpa [Word.text, Word.name, Bracket.opening] using hopening)
      (hcurly.append (hround.append hexponent)) hcurly (by simp [shapes, grouped])
  | braced =>
    have hopening := (pieceLexes_wordOpening (.unary g) .curly).append
      ((pieceLexes_opening .round).append hword)
    exact .swapped ⟨hx, hbx⟩ ⟨hy, hby⟩ (by simpa [Word.text, Word.name, Bracket.opening] using hopening)
      (hcurly.append (hround.append hexponent)) (hcurly.append hcurly) (by simp [shapes, grouped])
  | behind =>
    have hopening := (pieceLexes_wordBlank (.unary g)).append hword
    exact .swapped ⟨hx, hbx⟩ ⟨hy, hby⟩ (by simpa [Word.text, Word.name, Bracket.opening] using hopening)
      (hcurly.append hexponent) hcurly (by simp [shapes, grouped])

end Lexes

theorem fills (p : NestedPower) {stop calls : Nat} {us vs : List (Symbol × Bool)} {x y : Expr}
    (hx : Fills stop .sum calls us x) (hy : Fills stop .sum calls vs y) :
    Fills stop .sum (calls + 25) (p.shapes g f us vs) (p.tree g f x y) := by
  have hexponent : Fills stop .signed (calls + 5) (grouped .curly us) x :=
    (hx.factor_group .curly).signed_of_factor rfl
  have hinner : Fills stop .factor (calls + 4) (lone (.word (.unary f)) :: grouped .curly vs)
      (y.call f) := hy.call f .curly
  have hsum : Fills stop .sum (calls + 9) (lone (.word (.unary f)) :: grouped .curly vs)
      (y.call f) := (hinner.signed_of_factor rfl).sum_of_signed
  cases p with
  | ahead =>
    have hpower : Fills stop .raised (calls + 15) (ahead.shapes g f us vs)
        (((y.call f).call g).power x) :=
      Fills.power (hsum.call g .round).postfixed_of_factor (hexponent.mono (by omega))
    exact (hpower.signed_of_raised rfl).sum_of_signed.mono (by omega)
  | braced =>
    have hpower : Fills stop .raised (calls + 13)
        (grouped .round (lone (.word (.unary f)) :: grouped .curly vs) ++
          lone (.operator .caret) :: grouped .curly us) ((y.call f).power x) :=
      Fills.power (hsum.factor_group .round).postfixed_of_factor (hexponent.mono (by omega))
    have hcall := ((hpower.signed_of_raised rfl).sum_of_signed).call g .curly
    exact (hcall.signed_of_factor rfl).sum_of_signed
  | behind =>
    have hpower : Fills stop .raised (calls + 6) (lone (.word (.unary f)) :: (grouped .curly vs ++
        lone (.operator .caret) :: grouped .curly us)) ((y.call f).power x) :=
      Fills.power hinner.postfixed_of_factor hexponent
    have hcall := (hpower.signed_of_raised rfl).bareCall (.inl ⟨_, rfl⟩) g
    exact (hcall.signed_of_raised rfl).sum_of_signed.mono (by omega)

theorem unwrapped_written (p : NestedPower) : (p.written g f).Unwrapped := by
  have hname := UnaryFunction.undisplayed
  -- What follows a name ends the piece.
  have happend : ∀ (f : UnaryFunction) {l : Text}, l.getLast? = some '\x7b' ∧ Undisplayed l →
      ('\\' :: (f.name.toList ++ l)).getLast? = some '\x7b' ∧
        Undisplayed ('\\' :: (f.name.toList ++ l)) := by
    intro f l h
    rw [← List.cons_append, List.getLast?_append, h.1]
    exact ⟨rfl, (hname f).1.append h.2 (hname f).2.1⟩
  have hpiece : ∀ {l : Text}, l.getLast? = some '\x7b' ∧ Undisplayed l →
      Undisplayed l ∧ l.getLast? ≠ some '\\' := fun h => ⟨h.2, by rw [h.1]; decide⟩
  have hinner : ∀ {l : Text}, l.getLast? = some '\x7b' ∧ Undisplayed l →
      ('\x7b' :: l).getLast? = some '\x7b' ∧ Undisplayed ('\x7b' :: l) := by
    rintro (_ | ⟨c, l⟩) ⟨hlast, h⟩
    · cases hlast
    · exact ⟨hlast, h.cons_cons fun hc => absurd hc (by decide)⟩
  have hpower := happend f (l := ['^', '\x7b']) (by decide)
  have hcall := happend f (l := ['\x7b']) (by decide)
  cases p with
  | ahead =>
    refine ⟨by simp [written, Form.pieces, Form.two, (hname _).2.2], ?_, rfl, rfl⟩
    have hfirst := hpiece (happend g hpower)
    simp only [written, Form.pieces, Form.two, List.map_cons, List.map_nil, List.forall_mem_cons,
      List.cons_append, List.nil_append]
    exact ⟨hfirst, by decide, by decide, by simp⟩
  | braced =>
    refine ⟨by simp [written, Form.pieces, Form.two, (hname _).2.2], ?_, rfl, rfl⟩
    have hfirst := hpiece (happend g (hinner hpower))
    simp only [written, Form.pieces, Form.two, List.map_cons, List.map_nil, List.forall_mem_cons,
      List.cons_append, List.nil_append, List.append_assoc]
    exact ⟨hfirst, by decide, by decide, by simp⟩
  | behind =>
    refine ⟨by simp [written, Form.pieces, Form.swapped, (hname _).2.2], ?_, rfl, rfl⟩
    have hfirst := hpiece (happend g hcall)
    simp only [written, Form.pieces, Form.swapped, List.map_cons, List.map_nil, List.forall_mem_cons,
      List.cons_append, List.nil_append]
    exact ⟨hfirst, by decide, by decide, by simp⟩

/-- The notation for functions before powers of functions. -/
def rendering {g f : UnaryFunction} (hg : g ∈ UnaryFunction.commands)
    (hf : f ∈ UnaryFunction.commands) (p : NestedPower) : Rendering ReadyLater where
  written := p.written g f
  plain := p.plain g f
  expanded := p.plain g f
  shapes := p.shapes g f
  unwrapped := p.unwrapped_written
  cosmetic := reframes_cosmetic hg hf _ p
  late := reframes_late hg hf p
  uses := uses_plain p
  bars := (barless_plain p).framePairs
  lexes := p.frameLexes

/-- **A function before the power of another one.** With braces around the power, or with
the exponent behind the argument, the text stands for the function of the power; with the
exponent ahead of the argument it stands for the power of the function. -/
theorem parse_nested (p : NestedPower) {g f : UnaryFunction} (hg : g ∈ UnaryFunction.commands)
    (hf : f ∈ UnaryFunction.commands) {calls : Nat} {N X : Text} {n x : Expr}
    (hN : Accepted calls N n) (hX : Accepted calls X x)
    (hminus : (canonical N).head? ≠ some '-') (hcalls : calls + 25 ≤ Expr.callLimit) :
    Expr.parse (canonical ((p.written g f).text N X)) = .ok (p.tree g f n x) :=
  (rendering hg hf p).parseWithin_text hN hX (readyLater_simplified hN hX hminus)
    fun h h' => (p.fills h h').mono hcalls

/-- The square of the logarithm of a sine, though the square is written at the sine. -/
theorem parse_nested_ln_sin : ∃ n x, Accepted 900 ['2'] n ∧ Accepted 900 ['1'] x ∧
    (canonical ['2']).head? ≠ some '-' ∧
      Expr.parse (canonical "\\ln\\sin^\x7b2\x7d\x7b1\x7d".toList) =
        .ok (((x.call .sin).call .ln).power n) := by
  obtain ⟨n, hn⟩ := Accepted.exists_of_isOk 900 ['2'] (by decide +kernel) (by decide +kernel)
  obtain ⟨x, hx⟩ := Accepted.exists_of_isOk 900 ['1'] (by decide +kernel) (by decide +kernel)
  have hminus : (canonical ['2']).head? ≠ some '-' := by decide +kernel
  have htext : (written .ln .sin ahead).text ['2'] ['1'] =
      "\\ln\\sin^\x7b2\x7d\x7b1\x7d".toList := by decide +kernel
  have hparse := parse_nested ahead (g := .ln) (f := .sin) (by decide) (by decide) hn hx hminus
    (by decide)
  rw [htext] at hparse
  exact ⟨n, x, hn, hx, hminus, hparse⟩

end NestedPower

end NumericAnswer
