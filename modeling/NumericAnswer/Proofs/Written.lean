/-
# Expressions as they are written

Every expression can be written down with brackets only where the grammar
demands them: a part stands in brackets if its level is lower than its slot.
A function of one argument may also stand before its argument without
brackets. What is written is read as tokens one by one.

Key definitions: `Level`, `Written`, `Written.render`, `Written.text`,
`Written.symbols`.
Key theorems: `Literal.read?_append_of_breaks`, `Written.exists_tokens_text`.
-/
import NumericAnswer.Proofs.Shapes

namespace NumericAnswer

/-- The levels of the grammar, from sums to single factors. -/
inductive Level where
  | sum | term | signed | raised | postfixed | factor
  deriving DecidableEq, Repr

def Level.rank : Level → Nat
  | sum => 0
  | term => 1
  | signed => 2
  | raised => 3
  | postfixed => 4
  | factor => 5

namespace BinaryOperator

/-- The level of the operator, and of its left operand. -/
def level : BinaryOperator → Level
  | add | subtract => .sum
  | multiply | divide => .term

/-- The level of the right operand. -/
def rightLevel : BinaryOperator → Level
  | add | subtract => .term
  | multiply | divide => .signed

def operator : BinaryOperator → Operator
  | add => .plus
  | subtract => .minus
  | multiply => .times
  | divide => .divide

end BinaryOperator

/-- An expression with the literals of its numbers, and a mark on each call of
one argument that may do without brackets. -/
inductive Written where
  | number (l : Literal) (h : Literal.read? l.text = some (l, []))
  | constant (c : Constant)
  | neg (x : Written)
  | abs (x : Written)
  | factorial (x : Written)
  | binary (o : BinaryOperator) (x y : Written)
  | fraction (x y : Written)
  | power (base exponent : Written)
  | call (f : UnaryFunction) (bare : Bool) (x : Written)
  | call₂ (f : BinaryFunction) (x y : Written)

namespace Written

/-- The expression that is written. -/
def toExpr : Written → Expr
  | number l _ => .number l.value
  | constant c => .constant c
  | neg x => .neg x.toExpr
  | abs x => .abs x.toExpr
  | factorial x => .factorial x.toExpr
  | binary o x y => .binary o x.toExpr y.toExpr
  | fraction x y => .fraction x.toExpr y.toExpr
  | power x y => .power x.toExpr y.toExpr
  | call f _ x => .call f x.toExpr
  | call₂ f x y => .call₂ f x.toExpr y.toExpr

/-! ### Text -/

/-- A text of a level in a slot, in brackets if the level is too low. -/
def fit (slot : Level) : Level × Text → Text
  | (level, s) => if level.rank < slot.rank then '(' :: (s ++ [')']) else s

def opensGroup (s : Text) : Bool :=
  s.head?.any fun c => (Bracket.ofOpening? c).isSome

/-- The level of what is written, and its text. -/
def render : Written → Level × Text
  | number l _ => (.factor, l.text)
  | constant c => (.factor, c.name.toList)
  | neg x => (.signed, '-' :: fit .signed x.render)
  | abs x => (.factor, "abs".toList ++ '(' :: (fit .sum x.render ++ [')']))
  | factorial x => (.postfixed, fit .postfixed x.render ++ ['!'])
  | binary o x y => (o.level, fit o.level x.render ++ o.sign :: fit o.rightLevel y.render)
  | fraction x y =>
    (.factor, "frac".toList ++ '\x7b' :: (fit .sum x.render ++ '\x7d' :: '\x7b' ::
      (fit .sum y.render ++ ['\x7d'])))
  | power x y => (.raised, fit .postfixed x.render ++ '^' :: fit .signed y.render)
  | call f bare x =>
    if bare && !opensGroup (fit .signed x.render) then
      (.raised, f.name.toList ++ ' ' :: fit .signed x.render)
    else (.factor, f.name.toList ++ '(' :: (fit .sum x.render ++ [')']))
  | call₂ f x y =>
    (.factor, f.name.toList ++ '[' :: (fit .sum x.render ++ ']' :: '\x7b' ::
      (fit .sum y.render ++ ['\x7d'])))

def level (x : Written) : Level :=
  x.render.1

/-- What stands in a slot. -/
def textAt (slot : Level) (x : Written) : Text :=
  fit slot x.render

def text (x : Written) : Text :=
  x.textAt .sum

/-- The call of a marked function stands without brackets: its argument does
not begin with one. -/
def isBare (bare : Bool) (x : Written) : Bool :=
  bare && !opensGroup (x.textAt .signed)

/-! ### Symbols -/

/-- Symbols of a level in a slot. -/
def fitSymbols (slot level : Level) (us : List Symbol) : List Symbol :=
  if level.rank < slot.rank then .opening .round :: (us ++ [.closing .round]) else us

/-- The symbols of what is written. -/
def symbols : Written → List Symbol
  | number l _ => [.number l]
  | constant c => [.word (.constant c)]
  | neg x => .operator .minus :: fitSymbols .signed x.level x.symbols
  | abs x =>
    .word .absolute :: .opening .round :: (fitSymbols .sum x.level x.symbols ++ [.closing .round])
  | factorial x => fitSymbols .postfixed x.level x.symbols ++ [.operator .bang]
  | binary o x y =>
    fitSymbols o.level x.level x.symbols ++
      .operator o.operator :: fitSymbols o.rightLevel y.level y.symbols
  | fraction x y =>
    .word .fraction :: .opening .curly :: (fitSymbols .sum x.level x.symbols ++
      .closing .curly :: .opening .curly :: (fitSymbols .sum y.level y.symbols ++
        [.closing .curly]))
  | power x y =>
    fitSymbols .postfixed x.level x.symbols ++
      .operator .caret :: fitSymbols .signed y.level y.symbols
  | call f bare x =>
    if isBare bare x then .word (.unary f) :: fitSymbols .signed x.level x.symbols
    else
      .word (.unary f) :: .opening .round ::
        (fitSymbols .sum x.level x.symbols ++ [.closing .round])
  | call₂ f x y =>
    .word (.binary f) :: .opening .square :: (fitSymbols .sum x.level x.symbols ++
      .closing .square :: .opening .curly :: (fitSymbols .sum y.level y.symbols ++
        [.closing .curly]))

/-- The symbols of what stands in a slot. -/
def symbolsAt (slot : Level) (x : Written) : List Symbol :=
  fitSymbols slot x.level x.symbols

@[simp] theorem fit_sum (r : Level × Text) : fit .sum r = r.2 := by
  simp [fit, Level.rank]

@[simp] theorem fitSymbols_sum (level : Level) (us : List Symbol) :
    fitSymbols .sum level us = us :=
  if_neg (Nat.not_lt_zero _)

theorem textAt_of_le {slot : Level} {x : Written} (h : slot.rank ≤ x.level.rank) :
    x.textAt slot = x.render.2 :=
  if_neg (Nat.not_lt_of_le h)

theorem render_call (f : UnaryFunction) (bare : Bool) (x : Written) :
    (call f bare x).render =
      if isBare bare x then (.raised, f.name.toList ++ ' ' :: x.textAt .signed)
      else (.factor, f.name.toList ++ '(' :: (x.textAt .sum ++ [')'])) :=
  rfl

end Written

/-! ### Literals in a text -/

/-- The text is empty or begins with what ends names and numbers. -/
def Breaks (s : Text) : Prop :=
  ∀ c ∈ s.head?, isAsciiLetter c = false ∧ isDecimalDigit c = false ∧ c ≠ '.'

theorem Breaks.nil : Breaks [] := by
  intro c hc
  cases hc

theorem Breaks.cons {c : Char} (hc : IsSign c) (s : Text) : Breaks (c :: s) := by
  intro d hd
  obtain rfl := Option.some.inj hd
  exact ⟨hc.2.1, hc.2.2.1, hc.2.2.2.1⟩

section Breaks

variable {v : Text} (hv : Breaks v)

include hv

theorem Breaks.head_isAsciiLetter : v.head?.any isAsciiLetter = false := by
  cases v with
  | nil => rfl
  | cons c v => exact (hv c rfl).1

theorem Breaks.head_isDecimalDigit : v.head?.any isDecimalDigit = false := by
  cases v with
  | nil => rfl
  | cons c v => exact (hv c rfl).2.1

namespace Literal

theorem spanDigits_append_of_breaks (s : Text) :
    spanDigits (s ++ v) = ((spanDigits s).1, (spanDigits s).2 ++ v) := by
  simp only [spanDigits, takeWhile_append_of_head hv.head_isDecimalDigit,
    dropWhile_append_of_head hv.head_isDecimalDigit]

/-- A power of ten, or none, that the text ends with. -/
theorem readPower?_append_of_breaks {s : Text} (h : (readPower? s).2 = []) :
    readPower? (s ++ v) = ((readPower? s).1, v) := by
  cases s with
  | nil =>
    cases v with
    | nil => rfl
    | cons c v =>
      have hc : c ≠ 'e' ∧ c ≠ 'E' := by
        constructor <;> (rintro rfl; exact absurd (hv _ rfl).1 (by decide))
      simp [readPower?, hc]
  | cons c s =>
    have hsign : s ≠ [] → spanSign (s ++ v) = ((spanSign s).1, (spanSign s).2 ++ v) := by
      intro hs
      obtain ⟨d, s, rfl⟩ := List.exists_cons_of_ne_nil hs
      unfold spanSign
      split <;> simp_all
    rw [List.cons_append]
    unfold readPower? at h ⊢
    by_cases hc : (decide (c = 'e') || decide (c = 'E')) = true
    · simp only [hc, if_true] at h ⊢
      cases s with
      | nil => cases h
      | cons d s =>
        rw [hsign (List.cons_ne_nil d s)]
        simp only [spanDigits_append_of_breaks hv]
        rcases hd : spanDigits (spanSign (d :: s)).2 with ⟨_ | ⟨e, digits⟩, rest⟩
        · rw [hd] at h
          cases h
        · rw [hd] at h
          obtain rfl : rest = [] := h
          rfl
    · simp only [hc] at h
      cases h

/-- A literal is read whole from a text that goes on with what ends it. -/
theorem read?_append_of_breaks {s : Text} {l : Literal} (h : read? s = some (l, [])) :
    read? (s ++ v) = some (l, v) := by
  have hpower := fun {r : Text} => @readPower?_append_of_breaks _ hv r
  unfold read? at h ⊢
  rw [spanDigits_append_of_breaks hv]
  rcases hs : spanDigits s with ⟨whole, rest⟩
  rw [hs] at h
  cases rest with
  | nil =>
    cases whole with
    | nil => cases h
    | cons d whole =>
      obtain ⟨rfl, _⟩ := Prod.mk.inj (Option.some.inj h)
      have hp := hpower (r := []) rfl
      cases v with
      | nil => rfl
      | cons c v =>
        have hc : c ≠ '.' := (hv c rfl).2.2
        simp_all
  | cons c rest =>
    by_cases hc : c = '.'
    · subst hc
      rcases hd : spanDigits rest with ⟨fraction, after⟩
      have hf := spanDigits_append_of_breaks hv rest
      rw [hd] at hf
      cases whole <;> cases fraction <;> simp_all
    · have hp := hpower (r := c :: rest)
      cases whole <;> simp_all

end Literal
end Breaks

/-! ### The symbols of a text -/

/-- The shapes of symbols none of which is a number right after another. -/
def plainShapes (us : List Symbol) : List (Symbol × Bool) :=
  us.map fun u => (u, false)

@[simp] theorem plainShapes_cons (u : Symbol) (us : List Symbol) :
    plainShapes (u :: us) = (u, false) :: plainShapes us :=
  rfl

@[simp] theorem plainShapes_append (us vs : List Symbol) :
    plainShapes (us ++ vs) = plainShapes us ++ plainShapes vs :=
  List.map_append

/-- The text is read as these symbols where no number goes before and nothing
follows that would belong to its last one. -/
def Spells (l : Text) (us : List Symbol) : Prop :=
  ∀ (s : Text) (vs : List (Symbol × Bool)), Breaks s → (∀ afterNumber, Lexes afterNumber s vs) →
    Lexes false (l ++ s) (plainShapes us ++ vs)

namespace Spells

variable {l l' : Text} {us us' : List Symbol} {c : Char}

theorem nil : Spells [] [] :=
  fun _ _ _ h => h false

theorem sign (hc : IsSign c) (h : Spells l us) : Spells (c :: l) (.ofSign c :: us) :=
  fun s vs hs hvs => .sign hc (h s vs hs hvs)

theorem blank (h : Spells l us) : Spells (' ' :: l) us :=
  fun s vs hs hvs => .blank isBlank_space (h s vs hs hvs)

/-- Two texts with a sign between them. -/
theorem between (h : Spells l us) (hc : IsSign c) (h' : Spells l' us') :
    Spells (l ++ c :: l') (us ++ .ofSign c :: us') := by
  intro s vs hs hvs
  have hsign : ∀ afterNumber, Lexes afterNumber (c :: (l' ++ s))
      ((.ofSign c, false) :: (plainShapes us' ++ vs)) := fun _ => .sign hc (h' s vs hs hvs)
  simpa using h _ _ (.cons hc (l' ++ s)) hsign

theorem group (b : Bracket) (h : Spells l us) (h' : Spells l' us') :
    Spells (b.opening :: (l ++ b.closing :: l')) (.opening b :: (us ++ .closing b :: us')) := by
  cases b with
  | round => exact .sign (by decide) (h.between (by decide) h')
  | square => exact .sign (by decide) (h.between (by decide) h')
  | curly => exact .sign (by decide) (h.between (by decide) h')

theorem word (w : Word) (hl : l.head?.any isAsciiLetter = false) (h : Spells l us) :
    Spells (w.text ++ l) (.word w :: us) := by
  intro s vs hs hvs
  rw [List.append_assoc]
  refine .word w ?_ (h s vs hs hvs)
  cases l with
  | nil => exact hs.head_isAsciiLetter
  | cons c l => exact hl

theorem number {l : Literal} (h : Literal.read? l.text = some (l, [])) :
    Spells l.text [.number l] := by
  intro s vs hs hvs
  obtain ⟨c, t, ht⟩ := List.exists_cons_of_ne_nil (Literal.text_ne_nil h)
  have hlexeme : lexeme c (t ++ s) = ([.number l], l.text.length - 1) := by
    have hread := Literal.read?_append_of_breaks hs h
    rw [ht, List.cons_append] at hread
    simp only [lexeme, hread]
  have hdrop : (t ++ s).drop (lexeme c (t ++ s)).2 = s := by
    rw [hlexeme, ht]
    exact List.drop_left
  have hblank : isBlank c = false := by
    refine isBlank_of_lexeme_char (Literal.mem_text_of_read? h c ?_)
    rw [ht]
    exact List.mem_cons_self ..
  have hpoint : repeatsPoint (lexeme c (t ++ s)).1 ((t ++ s).drop (lexeme c (t ++ s)).2) = false := by
    rw [hdrop, hlexeme]
    unfold repeatsPoint
    split
    · next r _ => exact absurd rfl (hs '.' rfl).2.2
    · rfl
  have hlexes := @Lexes.step _ _ vs false hblank hpoint (by rw [hdrop]; exact hvs _)
  rw [hlexeme] at hlexes
  rw [ht]
  exact hlexes

end Spells

namespace Written

theorem isSign_sign (o : BinaryOperator) : IsSign o.sign := by
  cases o <;> decide

theorem ofSign_sign (o : BinaryOperator) : Symbol.ofSign o.sign = .operator o.operator := by
  cases o <;> rfl

theorem spells_fit (slot : Level) {x : Written} (h : Spells x.render.2 x.symbols) :
    Spells (x.textAt slot) (x.symbolsAt slot) := by
  unfold textAt symbolsAt fit fitSymbols level
  by_cases hl : x.render.1.rank < slot.rank
  · rw [if_pos hl]
    simp only [if_pos hl]
    exact .group .round h .nil
  · rw [if_neg hl]
    simp only [if_neg hl]
    exact h

/-- What is written is read as its symbols. -/
theorem spells_render : ∀ x : Written, Spells x.render.2 x.symbols
  | number _ h => .number h
  | constant c => by
    simpa [render, symbols, Word.text, Word.name] using Spells.word (.constant c) rfl .nil
  | neg x => .sign (by decide) (spells_fit .signed (spells_render x))
  | abs x => .word .absolute rfl (.group .round (spells_fit .sum (spells_render x)) .nil)
  | factorial x => (spells_fit .postfixed (spells_render x)).between (by decide) .nil
  | binary o x y => by
    have h := (spells_fit o.level (spells_render x)).between (isSign_sign o)
      (spells_fit o.rightLevel (spells_render y))
    rwa [ofSign_sign] at h
  | fraction x y =>
    .word .fraction rfl (.group .curly (spells_fit .sum (spells_render x))
      (.group .curly (spells_fit .sum (spells_render y)) .nil))
  | power x y =>
    (spells_fit .postfixed (spells_render x)).between (by decide)
      (spells_fit .signed (spells_render y))
  | call f bare x => by
    rw [render_call, symbols]
    split
    · exact .word (.unary f) rfl (.blank (spells_fit .signed (spells_render x)))
    · exact .word (.unary f) rfl (.group .round (spells_fit .sum (spells_render x)) .nil)
  | call₂ f x y =>
    .word (.binary f) rfl (.group .square (spells_fit .sum (spells_render x))
      (.group .curly (spells_fit .sum (spells_render y)) .nil))

/-- The tokens of what is written. -/
theorem exists_tokens_text (x : Written) : ∃ ts, tokens x.text = .ok ts ∧
    ts.map Token.symbol = x.symbols := by
  have h := spells_fit .sum (spells_render x) [] [] .nil fun _ => .nil _
  rw [List.append_nil, List.append_nil] at h
  obtain ⟨ts, hts, hshape⟩ := h.exists_tokensFrom 0
  refine ⟨ts, hts, ?_⟩
  have := congrArg (List.map Prod.fst) hshape
  simpa [plainShapes, symbolsAt, Token.shape, Function.comp_def] using this

end Written
end NumericAnswer
