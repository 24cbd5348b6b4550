/-
# Every token is read

Read from left to right an expression says numbers, words and signs. The tokens that
the parser accepts say the same in the same order: brackets group, a plus before an
operand says nothing, and what follows an operand without a sign is multiplied. A
comma stands in the brackets of a plain logarithm only, and its arguments are said in
the other order.

Key definitions: `Item`, `Recites`, `transcript`, `commasFit`.
Key theorems: `Expr.tellsAll`, `Expr.recites_of_parse`.
-/
import NumericAnswer.Proofs.Acceptance
import NumericAnswer.Proofs.Written

namespace NumericAnswer

/-- What is said of a token, or of an operand that follows another one. -/
inductive Item where
  | number (x : Float)
  | word (w : Word)
  | sign (o : Operator)
  | comma

/-- The items are what the expression says from left to right. A logarithm to a base
may also be said as the plain logarithm with the base behind a comma. -/
inductive Recites : Expr → List Item → Prop where
  | number (x : Float) : Recites (.number x) [.number x]
  | constant (c : Constant) : Recites (.constant c) [.word (.constant c)]
  | neg {x : Expr} {us : List Item} (hx : Recites x us) : Recites x.neg (.sign .minus :: us)
  | abs {x : Expr} {us : List Item} (hx : Recites x us) : Recites x.abs (.word .absolute :: us)
  | factorial {x : Expr} {us : List Item} (hx : Recites x us) :
      Recites x.factorial (us ++ [.sign .bang])
  | binary {x y : Expr} {us vs : List Item} (o : BinaryOperator) (hx : Recites x us)
      (hy : Recites y vs) : Recites (.binary o x y) (us ++ .sign o.operator :: vs)
  | fraction {x y : Expr} {us vs : List Item} (hx : Recites x us) (hy : Recites y vs) :
      Recites (x.fraction y) (.word .fraction :: (us ++ vs))
  | power {x y : Expr} {us vs : List Item} (hx : Recites x us) (hy : Recites y vs) :
      Recites (x.power y) (us ++ .sign .caret :: vs)
  | call {x : Expr} {us : List Item} (f : UnaryFunction) (hx : Recites x us) :
      Recites (.call f x) (.word (.unary f) :: us)
  | call₂ {x y : Expr} {us vs : List Item} (f : BinaryFunction) (hx : Recites x us)
      (hy : Recites y vs) : Recites (.call₂ f x y) (.word (.binary f) :: (us ++ vs))
  | log {base x : Expr} {us vs : List Item} (hx : Recites x us) (hb : Recites base vs) :
      Recites (.call₂ .logBase base x) (.word (.unary .log) :: (us ++ .comma :: vs))

/-! ### What symbols say -/

/-- The arguments of the word stand in a group and after it. -/
def Word.takesTwo : Word → Bool
  | fraction | binary _ => true
  | _ => false

/-- The sign that is said between an operand that has ended and the next one. -/
def impliedSign (ended : Bool) : List Item :=
  if ended then [.sign .times] else []

/-- What a row of symbols says. An operand may have ended just before it; a group that
opens there may be the first of two arguments, as may each of the open groups: after
such a group no operand has ended. -/
def transcript (ended first : Bool) (groups : List Bool) : List Symbol → List Item
  | [] => []
  | symbol :: symbols =>
    match symbol with
    | .number literal =>
      impliedSign ended ++ .number literal.value :: transcript true false groups symbols
    | .word w =>
      impliedSign ended ++ .word w :: transcript (!w.takesArguments) w.takesTwo groups symbols
    | .operator .plus =>
      if ended then .sign .plus :: transcript false false groups symbols
      else transcript false false groups symbols
    | .operator .bang => .sign .bang :: transcript true false groups symbols
    | .operator o => .sign o :: transcript false false groups symbols
    | .opening _ => impliedSign ended ++ transcript false false (first :: groups) symbols
    | .closing _ => transcript (!groups.headD false) false groups.tail symbols
    | .comma => .comma :: transcript false false groups symbols
    | .letters _ | .bar | .command _ | .unknown _ => transcript ended first groups symbols

/-- Each comma stands directly in round brackets that follow the word of the plain
logarithm, and no other one does there. The word may stand just before the row; of
the open groups it is told which may still hold a comma. -/
def commasFit (afterLog : Bool) (groups : List Bool) : List Symbol → Bool
  | [] => true
  | symbol :: symbols =>
    match symbol with
    | .opening b => commasFit false ((afterLog && b = .round) :: groups) symbols
    | .closing _ => commasFit false groups.tail symbols
    | .comma => groups.headD false && commasFit false (false :: groups.tail) symbols
    | symbol => commasFit (symbol = .word (.unary .log)) groups symbols

/-- No bracket closes right after one that opens, which may also stand just before the
row. -/
def filled (afterOpening : Bool) : List Symbol → Bool
  | [] => true
  | symbol :: symbols =>
    match symbol with
    | .opening _ => filled true symbols
    | .closing _ => !afterOpening && filled false symbols
    | _ => filled false symbols

/-- The brackets among the symbols. -/
def bracketsOf (symbols : List Symbol) : Text :=
  symbols.flatMap fun
    | .opening b => [b.opening]
    | .closing b => [b.closing]
    | _ => []

/-- The symbol can be part of an expression. -/
def Symbol.isReadable : Symbol → Bool
  | letters _ | bar | command _ | unknown _ => false
  | _ => true

/-! ### Parts of rows of symbols -/

/-- The symbols say the items wherever an operand begins, and an operand has ended
after them. -/
structure Conveys (symbols : List Symbol) (items : List Item) : Prop where
  nonempty : symbols ≠ []
  readable : ∀ s ∈ symbols, s.isReadable = true
  spoken : ∀ groups rest, transcript false false groups (symbols ++ rest) =
    items ++ transcript true false groups rest
  commas : ∀ afterLog groups rest, commasFit afterLog groups (symbols ++ rest) =
    commasFit false groups rest
  filled : ∀ afterOpening rest, filled afterOpening (symbols ++ rest) = filled false rest

/-- The symbols of a group, which may be the first of two arguments. -/
structure ConveysGroup (symbols : List Symbol) (items : List Item) : Prop where
  nonempty : symbols ≠ []
  readable : ∀ s ∈ symbols, s.isReadable = true
  spoken : ∀ first groups rest, transcript false first groups (symbols ++ rest) =
    items ++ transcript (!first) false groups rest
  commas : ∀ afterLog groups rest, commasFit afterLog groups (symbols ++ rest) =
    commasFit false groups rest
  filled : ∀ afterOpening rest, filled afterOpening (symbols ++ rest) = filled false rest

/-- The symbols go on after an operand and say the items. -/
structure GoesOn (symbols : List Symbol) (items : List Item) : Prop where
  readable : ∀ s ∈ symbols, s.isReadable = true
  spoken : ∀ groups rest, transcript true false groups (symbols ++ rest) =
    items ++ transcript true false groups rest
  commas : ∀ groups rest, commasFit false groups (symbols ++ rest) = commasFit false groups rest
  filled : ∀ rest, filled false (symbols ++ rest) = filled false rest

section Parts

variable {us vs : List Symbol} {xs ys : List Item}

theorem ConveysGroup.conveys (h : ConveysGroup us xs) : Conveys us xs where
  nonempty := h.nonempty
  readable := h.readable
  spoken := h.spoken false
  commas := h.commas
  filled := h.filled

theorem GoesOn.nil : GoesOn [] [] where
  readable := by simp
  spoken _ _ := rfl
  commas _ _ := rfl
  filled _ := rfl

theorem GoesOn.append (hu : GoesOn us xs) (hv : GoesOn vs ys) : GoesOn (us ++ vs) (xs ++ ys) where
  readable := List.forall_mem_append.mpr ⟨hu.readable, hv.readable⟩
  spoken groups rest := by rw [List.append_assoc, hu.spoken, hv.spoken, List.append_assoc]
  commas groups rest := by rw [List.append_assoc, hu.commas, hv.commas]
  filled rest := by rw [List.append_assoc, hu.filled, hv.filled]

theorem Conveys.append (hu : Conveys us xs) (hv : GoesOn vs ys) : Conveys (us ++ vs) (xs ++ ys) where
  nonempty := by simp [hu.nonempty]
  readable := List.forall_mem_append.mpr ⟨hu.readable, hv.readable⟩
  spoken groups rest := by rw [List.append_assoc, hu.spoken, hv.spoken, List.append_assoc]
  commas afterLog groups rest := by rw [List.append_assoc, hu.commas, hv.commas]
  filled afterOpening rest := by rw [List.append_assoc, hu.filled, hv.filled]

theorem Conveys.number (literal : Literal) :
    Conveys [.number literal] [.number literal.value] where
  nonempty := List.cons_ne_nil _ _
  readable := List.forall_mem_singleton.mpr rfl
  spoken _ _ := rfl
  commas _ _ _ := rfl
  filled _ _ := rfl

theorem Conveys.constant (c : Constant) :
    Conveys [.word (.constant c)] [.word (.constant c)] where
  nonempty := List.cons_ne_nil _ _
  readable := List.forall_mem_singleton.mpr rfl
  spoken _ _ := rfl
  commas _ _ _ := rfl
  filled _ _ := rfl

/-- A plus before an operand says nothing. -/
theorem Conveys.plus (hu : Conveys us xs) : Conveys (.operator .plus :: us) xs where
  nonempty := List.cons_ne_nil _ _
  readable := List.forall_mem_cons.mpr ⟨rfl, hu.readable⟩
  spoken := hu.spoken
  commas _ := hu.commas false
  filled _ := hu.filled false

theorem Conveys.minus (hu : Conveys us xs) :
    Conveys (.operator .minus :: us) (.sign .minus :: xs) where
  nonempty := List.cons_ne_nil _ _
  readable := List.forall_mem_cons.mpr ⟨rfl, hu.readable⟩
  spoken groups rest := congrArg _ (hu.spoken groups rest)
  commas _ := hu.commas false
  filled _ := hu.filled false

/-- A group in brackets. -/
theorem Conveys.group (b : Bracket) (hu : Conveys us xs) :
    ConveysGroup (.opening b :: (us ++ [.closing b])) xs where
  nonempty := List.cons_ne_nil _ _
  readable := by
    have hr := hu.readable
    simp only [List.forall_mem_cons, List.forall_mem_append]
    exact ⟨rfl, hr, rfl, by simp⟩
  spoken first groups rest := by
    have hs := hu.spoken (first :: groups) (.closing b :: rest)
    simpa [transcript, impliedSign] using hs
  commas afterLog groups rest := by
    have hc := hu.commas false ((afterLog && b = .round) :: groups) (.closing b :: rest)
    simpa [commasFit] using hc
  filled _ rest := by
    have hf := hu.filled true (.closing b :: rest)
    simpa [NumericAnswer.filled] using hf

/-- A word with one argument. -/
theorem Conveys.apply {w : Word} (hw : w.takesArguments = true) (hw₂ : w.takesTwo = false)
    (hu : Conveys us xs) : Conveys (.word w :: us) (.word w :: xs) where
  nonempty := List.cons_ne_nil _ _
  readable := List.forall_mem_cons.mpr ⟨rfl, hu.readable⟩
  spoken groups rest := by
    have hs := hu.spoken groups rest
    simp [transcript, impliedSign, hw, hw₂, hs]
  commas _ := hu.commas _
  filled _ := hu.filled false

/-- A word with a group and another argument. -/
theorem Conveys.apply₂ {w : Word} (hw : w.takesArguments = true) (hw₂ : w.takesTwo = true)
    (hu : ConveysGroup us xs) (hv : Conveys vs ys) :
    Conveys (.word w :: (us ++ vs)) (.word w :: (xs ++ ys)) where
  nonempty := List.cons_ne_nil _ _
  readable := List.forall_mem_cons.mpr
    ⟨rfl, List.forall_mem_append.mpr ⟨hu.readable, hv.readable⟩⟩
  spoken groups rest := by
    have hs := hu.spoken true groups (vs ++ rest)
    have ht := hv.spoken groups rest
    simp [transcript, impliedSign, hw, hw₂, hs, ht]
  commas _ groups rest := by
    rw [List.cons_append, List.append_assoc]
    exact (hu.commas _ groups (vs ++ rest)).trans (hv.commas false groups rest)
  filled _ rest := by
    rw [List.cons_append, List.append_assoc]
    exact (hu.filled false (vs ++ rest)).trans (hv.filled false rest)

/-- The plain logarithm with its base behind a comma. -/
theorem Conveys.log (hu : Conveys us xs) (hv : Conveys vs ys) :
    Conveys (.word (.unary .log) :: .opening .round :: (us ++ .comma :: (vs ++ [.closing .round])))
      (.word (.unary .log) :: (xs ++ .comma :: ys)) where
  nonempty := List.cons_ne_nil _ _
  readable := by
    have hr := hu.readable
    have hr' := hv.readable
    simp only [List.forall_mem_cons, List.forall_mem_append]
    exact ⟨rfl, rfl, hr, rfl, hr', rfl, by simp⟩
  spoken groups rest := by
    have hs := hu.spoken (false :: groups) (.comma :: (vs ++ .closing .round :: rest))
    have ht := hv.spoken (false :: groups) (.closing .round :: rest)
    simp only [transcript] at hs ht
    simp [transcript, impliedSign, Word.takesArguments, Word.takesTwo, hs, ht]
  commas _ groups rest := by
    have hc := hu.commas false (true :: groups) (.comma :: (vs ++ .closing .round :: rest))
    have hd := hv.commas false (false :: groups) (.closing .round :: rest)
    simp only [commasFit] at hc hd
    simp [commasFit, hc, hd]
  filled _ rest := by
    have hf := hu.filled true (.comma :: (vs ++ .closing .round :: rest))
    have hg := hv.filled false (.closing .round :: rest)
    simp only [NumericAnswer.filled] at hf hg
    simp [NumericAnswer.filled, hf, hg]

/-- A sign between two operands. -/
theorem GoesOn.sign {o : Operator} (ho : o ≠ .bang) (hu : Conveys us xs) :
    GoesOn (.operator o :: us) (.sign o :: xs) where
  readable := List.forall_mem_cons.mpr ⟨rfl, hu.readable⟩
  spoken groups rest := by
    have hs := hu.spoken groups rest
    cases o with
    | bang => exact absurd rfl ho
    | _ => simp [transcript, hs]
  commas groups rest := hu.commas false groups rest
  filled rest := hu.filled false rest

theorem GoesOn.bang : GoesOn [.operator .bang] [.sign .bang] where
  readable := List.forall_mem_singleton.mpr rfl
  spoken _ _ := rfl
  commas _ _ := rfl
  filled _ := rfl

/-- An operand right after another one is multiplied. -/
theorem GoesOn.juxtaposed {s : Symbol} (hs : s.startsOperand = true) (hu : Conveys (s :: us) xs) :
    GoesOn (s :: us) (.sign .times :: xs) where
  readable := hu.readable
  spoken groups rest := by
    have hr := hu.readable s (List.mem_cons_self ..)
    have hsays : transcript true false groups (s :: (us ++ rest)) =
        .sign .times :: transcript false false groups (s :: (us ++ rest)) := by
      cases s with
      | number | word | opening => rfl
      | letters | bar | command | unknown => cases hr
      | operator | closing | comma => cases hs
    exact hsays.trans (congrArg _ (hu.spoken groups rest))
  commas groups rest := hu.commas false groups rest
  filled rest := hu.filled false rest

end Parts

/-! ### What the functions of the parser read -/

/-- The tokens up to the rest say what the expression does. -/
def Tells (ts : List Token) (x : Expr) (rest : List Token) : Prop :=
  ∃ used items, ts = used ++ rest ∧ Recites x items ∧ Conveys (symbolsOf used) items

/-- The tokens up to the rest are a group that says what the expression does. -/
def TellsGroup (ts : List Token) (x : Expr) (rest : List Token) : Prop :=
  ∃ used items, ts = used ++ rest ∧ Recites x items ∧ ConveysGroup (symbolsOf used) items

/-- The tokens up to the rest go on with what the first expression says and make it the
second one. -/
def Extends (x : Expr) (ts : List Token) (y : Expr) (rest : List Token) : Prop :=
  ∃ used more, ts = used ++ rest ∧ (∀ items, Recites x items → Recites y (items ++ more)) ∧
    GoesOn (symbolsOf used) more

section Results

variable {ts us rest : List Token} {x y : Expr}

theorem TellsGroup.tells (h : TellsGroup ts x rest) : Tells ts x rest := by
  obtain ⟨used, items, hts, hx, hu⟩ := h
  exact ⟨used, items, hts, hx, hu.conveys⟩

theorem Tells.extended (h : Tells ts x us) (h' : Extends x us y rest) : Tells ts y rest := by
  obtain ⟨used, items, rfl, hx, hu⟩ := h
  obtain ⟨used', more, rfl, hy, hv⟩ := h'
  refine ⟨used ++ used', items ++ more, (List.append_assoc ..).symm, hy _ hx, ?_⟩
  rw [symbolsOf, List.map_append]
  exact hu.append hv

theorem Extends.refl (x : Expr) (ts : List Token) : Extends x ts x ts :=
  ⟨[], [], rfl, fun items hx => by rwa [List.append_nil], .nil⟩

theorem Extends.trans {z : Expr} (h : Extends x ts y us) (h' : Extends y us z rest) :
    Extends x ts z rest := by
  obtain ⟨used, more, rfl, hy, hu⟩ := h
  obtain ⟨used', more', rfl, hz, hv⟩ := h'
  refine ⟨used ++ used', more ++ more', (List.append_assoc ..).symm, fun items hx => ?_, ?_⟩
  · rw [← List.append_assoc]
    exact hz _ (hy _ hx)
  · rw [symbolsOf, List.map_append]
    exact hu.append hv

/-- A sign after an operand, and what it is applied to. -/
theorem Tells.after {token : Token} {o : Operator} (hs : token.symbol = .operator o) (ho : o ≠ .bang)
    (h : Tells ts y rest) {z : Expr} (hz : ∀ {us vs : List Item}, Recites x us → Recites y vs →
      Recites z (us ++ .sign o :: vs)) : Extends x (token :: ts) z rest := by
  obtain ⟨used, items, rfl, hy, hu⟩ := h
  refine ⟨token :: used, .sign o :: items, rfl, fun us hx => hz hx hy, ?_⟩
  rw [symbolsOf, List.map_cons, hs]
  exact .sign ho hu

/-- What stands right after an operand, without a sign between the two. -/
theorem Tells.juxtaposed {token : Token} (hs : token.symbol.startsOperand = true)
    (h : Tells (token :: ts) y rest) :
    Extends x (token :: ts) (.binary .multiply x y) rest := by
  obtain ⟨used, items, hts, hy, hu⟩ := h
  cases used with
  | nil => exact absurd rfl hu.nonempty
  | cons token' used =>
    obtain ⟨rfl, rfl⟩ := List.cons.inj hts
    exact ⟨token :: used, .sign .times :: items, rfl, fun us hx => .binary .multiply hx hy,
      .juxtaposed hs hu⟩

/-- A word and its argument. -/
theorem Tells.apply {token : Token} {w : Word} (hs : token.symbol = .word w)
    (hw : w.takesArguments = true) (hw₂ : w.takesTwo = false) (h : Tells ts x rest)
    (hy : ∀ {us : List Item}, Recites x us → Recites y (.word w :: us)) :
    Tells (token :: ts) y rest := by
  obtain ⟨used, items, rfl, hx, hu⟩ := h
  refine ⟨token :: used, .word w :: items, rfl, hy hx, ?_⟩
  rw [symbolsOf, List.map_cons, hs]
  exact hu.apply hw hw₂

/-- A word, a group and another argument. -/
theorem Tells.apply₂ {token : Token} {w : Word} (hs : token.symbol = .word w)
    (hw : w.takesArguments = true) (hw₂ : w.takesTwo = true) {z : Expr} (h : TellsGroup ts x us)
    (h' : Tells us y rest) (hz : ∀ {us vs : List Item}, Recites x us → Recites y vs →
      Recites z (.word w :: (us ++ vs))) : Tells (token :: ts) z rest := by
  obtain ⟨used, items, rfl, hx, hu⟩ := h
  obtain ⟨used', items', rfl, hy, hv⟩ := h'
  refine ⟨token :: (used ++ used'), _, by simp, hz hx hy, ?_⟩
  rw [symbolsOf, List.map_cons, List.map_append, hs]
  exact .apply₂ hw hw₂ hu hv

end Results

namespace Expr

variable {stop : Nat}

/-- Behind a group stands its closing bracket. -/
theorem exists_closing {b : Bracket} {opened : Nat} {ts rest : List Token}
    (h : expectClosing stop b opened ts = .ok rest) :
    ∃ token, ts = token :: rest ∧ token.symbol = .closing b := by
  rcases expectClosing_cases stop b opened ts with ⟨token, rest', hts, hs, he⟩ | ⟨f, _, he⟩
  · rw [he] at h
    obtain rfl := Except.ok.inj h
    exact ⟨token, hts, hs⟩
  · rw [he] at h
    cases h

theorem extends_extend {step : Expr → List Token → Option (Except ReadFault (Expr × List Token))}
    (hstep : ∀ {x ts y rest}, step x ts = some (.ok (y, rest)) → Extends x ts y rest) :
    ∀ {bound : Nat} {x y : Expr} {ts rest : List Token},
      extend step bound x ts = .ok (y, rest) → Extends x ts y rest
  | 0, x, _, ts, _, h => by
    obtain ⟨rfl, rfl⟩ := Prod.mk.inj (Except.ok.inj h)
    exact .refl x ts
  | bound + 1, x, y, ts, rest, h => by
    unfold extend at h
    split at h
    · obtain ⟨rfl, rfl⟩ := Prod.mk.inj (Except.ok.inj h)
      exact .refl x ts
    · next r hs =>
      obtain ⟨⟨z, us⟩, rfl, h⟩ := exists_of_bind_ok h
      exact (hstep hs).trans (extends_extend hstep h)

section Steps

variable {read read' : List Token → Except ReadFault (Expr × List Token)}
  {x y : Expr} {ts rest : List Token}

theorem extends_sumStep (hr : ∀ {ts x rest}, read ts = .ok (x, rest) → Tells ts x rest)
    (h : sumStep read x ts = some (.ok (y, rest))) : Extends x ts y rest := by
  unfold sumStep at h
  split at h
  · obtain ⟨⟨z, us⟩, hz, h⟩ := exists_of_bind_ok (Option.some.inj h)
    obtain ⟨rfl, rfl⟩ := Prod.mk.inj (Except.ok.inj h)
    exact (hr hz).after rfl (by decide) (.binary .add)
  · obtain ⟨⟨z, us⟩, hz, h⟩ := exists_of_bind_ok (Option.some.inj h)
    obtain ⟨rfl, rfl⟩ := Prod.mk.inj (Except.ok.inj h)
    exact (hr hz).after rfl (by decide) (.binary .subtract)
  · cases h

theorem extends_termStep (hr : ∀ {ts x rest}, read ts = .ok (x, rest) → Tells ts x rest)
    (hr' : ∀ {ts x rest}, read' ts = .ok (x, rest) → Tells ts x rest)
    (h : termStep read read' x ts = some (.ok (y, rest))) : Extends x ts y rest := by
  unfold termStep at h
  split at h
  · cases h
  · next token ts =>
    split at h
    · next hs =>
      obtain ⟨⟨z, us⟩, hz, h⟩ := exists_of_bind_ok (Option.some.inj h)
      obtain ⟨rfl, rfl⟩ := Prod.mk.inj (Except.ok.inj h)
      exact (hr hz).after hs (by decide) (.binary .multiply)
    · next hs =>
      obtain ⟨⟨z, us⟩, hz, h⟩ := exists_of_bind_ok (Option.some.inj h)
      obtain ⟨rfl, rfl⟩ := Prod.mk.inj (Except.ok.inj h)
      exact (hr hz).after hs (by decide) (.binary .divide)
    · split at h
      · cases h
      · next hs =>
        split at h
        · cases h
        · obtain ⟨⟨z, us⟩, hz, h⟩ := exists_of_bind_ok (Option.some.inj h)
          obtain ⟨rfl, rfl⟩ := Prod.mk.inj (Except.ok.inj h)
          exact (hr' hz).juxtaposed (by simpa using hs)

theorem extends_postfixStep (h : postfixStep x ts = some (.ok (y, rest))) :
    Extends x ts y rest := by
  unfold postfixStep at h
  split at h
  · obtain ⟨rfl, rfl⟩ := Prod.mk.inj (Except.ok.inj (Option.some.inj h))
    exact ⟨[_], [.sign .bang], rfl, fun _ hx => .factorial hx, .bang⟩
  · cases h

end Steps

/-- What all functions of the parser read tells what they make of it, within a number of
calls. -/
structure TellsAll (stop calls : Nat) : Prop where
  sum {ts x rest} (h : sum stop calls ts = .ok (x, rest)) : Tells ts x rest
  term {ts x rest} (h : term stop calls ts = .ok (x, rest)) : Tells ts x rest
  signed {ts x rest} (h : signed stop calls ts = .ok (x, rest)) : Tells ts x rest
  raised {ts x rest} (h : raised stop calls ts = .ok (x, rest)) : Tells ts x rest
  postfixed {ts x rest} (h : postfixed stop calls ts = .ok (x, rest)) : Tells ts x rest
  factor {ts x rest} (h : factor stop calls ts = .ok (x, rest)) : Tells ts x rest
  worded {token : Token} {w ts x rest} (hw : token.symbol = .word w)
    (h : worded stop calls w ts = .ok (x, rest)) : Tells (token :: ts) x rest
  argument {w ts x rest} (h : argument stop calls w ts = .ok (x, rest)) : Tells ts x rest
  requiredGroup {b w ts x rest} (h : requiredGroup stop calls b w ts = .ok (x, rest)) :
    TellsGroup ts x rest
  group {ts x rest} (h : group stop calls ts = .ok (x, rest)) : TellsGroup ts x rest

section Step

variable {calls : Nat} (ih : TellsAll stop calls) {ts rest : List Token} {x : Expr}

include ih

theorem tells_sum (h : sum stop (calls + 1) ts = .ok (x, rest)) : Tells ts x rest := by
  unfold sum at h
  obtain ⟨⟨y, us⟩, hy, h⟩ := exists_of_bind_ok h
  exact (ih.term hy).extended (extends_extend (fun hs => extends_sumStep ih.term hs) h)

theorem tells_term (h : term stop (calls + 1) ts = .ok (x, rest)) : Tells ts x rest := by
  unfold term at h
  obtain ⟨⟨y, us⟩, hy, h⟩ := exists_of_bind_ok h
  exact (ih.signed hy).extended
    (extends_extend (fun hs => extends_termStep ih.signed ih.raised hs) h)

theorem tells_signed (h : signed stop (calls + 1) ts = .ok (x, rest)) : Tells ts x rest := by
  unfold signed at h
  split at h
  · obtain ⟨used, items, rfl, hx, hu⟩ := ih.signed h
    exact ⟨_ :: used, items, rfl, hx, hu.plus⟩
  · obtain ⟨⟨y, us⟩, hy, h⟩ := exists_of_bind_ok h
    obtain ⟨rfl, rfl⟩ := Prod.mk.inj (Except.ok.inj h)
    obtain ⟨used, items, rfl, hx, hu⟩ := ih.signed hy
    exact ⟨_ :: used, _, rfl, .neg hx, hu.minus⟩
  · exact ih.raised h

theorem tells_raised (h : raised stop (calls + 1) ts = .ok (x, rest)) : Tells ts x rest := by
  unfold raised at h
  obtain ⟨⟨y, us⟩, hy, h⟩ := exists_of_bind_ok h
  simp only at h
  split at h
  · obtain ⟨⟨z, vs⟩, hz, h⟩ := exists_of_bind_ok h
    obtain ⟨rfl, rfl⟩ := Prod.mk.inj (Except.ok.inj h)
    exact (ih.postfixed hy).extended ((ih.signed hz).after rfl (by decide) .power)
  · obtain ⟨rfl, rfl⟩ := Prod.mk.inj (Except.ok.inj h)
    exact ih.postfixed hy

theorem tells_postfixed (h : postfixed stop (calls + 1) ts = .ok (x, rest)) : Tells ts x rest := by
  unfold postfixed at h
  obtain ⟨⟨y, us⟩, hy, h⟩ := exists_of_bind_ok h
  exact (ih.factor hy).extended (extends_extend (fun hs => extends_postfixStep hs) h)

theorem tells_factor (h : factor stop (calls + 1) ts = .ok (x, rest)) : Tells ts x rest := by
  unfold factor at h
  split at h
  · cases h
  · next token us =>
    split at h
    · next literal hs =>
      obtain ⟨rfl, rfl⟩ := Prod.mk.inj (Except.ok.inj h)
      refine ⟨[token], _, rfl, .number _, ?_⟩
      rw [symbolsOf, List.map_singleton, hs]
      exact .number literal
    · exact (ih.group h).tells
    · next w hs => exact ih.worded hs h
    · cases h

theorem tells_group (h : group stop (calls + 1) ts = .ok (x, rest)) : TellsGroup ts x rest := by
  unfold group at h
  split at h
  · next b opened afterNumber us =>
    obtain ⟨⟨y, vs⟩, hy, h⟩ := exists_of_bind_ok h
    obtain ⟨ws, hclose, h⟩ := exists_of_bind_ok h
    obtain ⟨rfl, rfl⟩ := Prod.mk.inj (Except.ok.inj h)
    obtain ⟨token, rfl, hs⟩ := exists_closing hclose
    obtain ⟨used, items, rfl, hx, hu⟩ := ih.sum hy
    refine ⟨⟨.opening b, opened, afterNumber⟩ :: (used ++ [token]), items, by simp, hx, ?_⟩
    simpa [symbolsOf, hs] using hu.group b
  · cases h

theorem tells_requiredGroup {b : Bracket} {w : Word}
    (h : requiredGroup stop (calls + 1) b w ts = .ok (x, rest)) : TellsGroup ts x rest := by
  unfold requiredGroup at h
  simp only at h
  split at h
  · split at h
    · cases h
    · exact ih.group h
  · cases h

theorem tells_argument {w : Word} (h : argument stop (calls + 1) w ts = .ok (x, rest)) :
    Tells ts x rest := by
  unfold argument at h
  split at h
  · cases h
  · split at h
    · split at h <;> cases h
    · exact (ih.group h).tells
    · exact ih.signed h

/-- A word with one argument. -/
theorem tells_applied {token : Token} {w : Word} (hs : token.symbol = .word w)
    (hw : w.takesArguments = true) (hw₂ : w.takesTwo = false) {make : Expr → Expr}
    (hmake : ∀ {x us}, Recites x us → Recites (make x) (.word w :: us))
    (h : (do let (x, rest) ← argument stop calls w ts; .ok (make x, rest)) = .ok (x, rest)) :
    Tells (token :: ts) x rest := by
  obtain ⟨⟨y, us⟩, hy, h⟩ := exists_of_bind_ok h
  obtain ⟨rfl, rfl⟩ := Prod.mk.inj (Except.ok.inj h)
  exact (ih.argument hy).apply hs hw hw₂ hmake

/-- The plain logarithm, also with its base behind a comma. -/
theorem tells_log {token : Token} (hw : token.symbol = .word (.unary .log))
    (h : worded stop (calls + 1) (.unary .log) ts = .ok (x, rest)) : Tells (token :: ts) x rest := by
  unfold worded at h
  simp only at h
  split at h
  · next opened afterNumber us =>
    let bracket : Token := ⟨.opening .round, opened, afterNumber⟩
    obtain ⟨⟨y, vs⟩, hy, h⟩ := exists_of_bind_ok h
    simp only at h
    split at h
    · next position afterNumber' vs =>
      let comma : Token := ⟨.comma, position, afterNumber'⟩
      obtain ⟨⟨z, ws⟩, hz, h⟩ := exists_of_bind_ok h
      obtain ⟨ws', hclose, h⟩ := exists_of_bind_ok h
      obtain ⟨rfl, rfl⟩ := Prod.mk.inj (Except.ok.inj h)
      obtain ⟨last, rfl, hs⟩ := exists_closing hclose
      obtain ⟨used, items, rfl, hx, hu⟩ := ih.sum hy
      obtain ⟨used', items', rfl, hb, hv⟩ := ih.sum hz
      refine ⟨token :: bracket :: (used ++ comma :: (used' ++ [last])), _, by simp [bracket, comma],
        .log hx hb, ?_⟩
      simpa [symbolsOf, hs, hw, bracket, comma] using hu.log hv
    · obtain ⟨ws', hclose, h⟩ := exists_of_bind_ok h
      obtain ⟨rfl, rfl⟩ := Prod.mk.inj (Except.ok.inj h)
      obtain ⟨last, rfl, hs⟩ := exists_closing hclose
      obtain ⟨used, items, rfl, hx, hu⟩ := ih.sum hy
      refine ⟨token :: bracket :: (used ++ [last]), _, by simp [bracket], .call .log hx, ?_⟩
      have hgroup := (hu.group .round).conveys.apply (w := .unary .log) rfl rfl
      simpa [symbolsOf, hs, hw, bracket] using hgroup
  · exact tells_applied ih hw rfl rfl (.call .log) h

theorem tells_worded {token : Token} {w : Word} (hw : token.symbol = .word w)
    (h : worded stop (calls + 1) w ts = .ok (x, rest)) : Tells (token :: ts) x rest := by
  cases w with
  | constant c =>
    obtain ⟨rfl, rfl⟩ := Prod.mk.inj (Except.ok.inj h)
    refine ⟨[token], _, rfl, .constant c, ?_⟩
    rw [symbolsOf, List.map_singleton, hw]
    exact .constant c
  | fraction =>
    obtain ⟨⟨y, us⟩, hy, h⟩ := exists_of_bind_ok h
    obtain ⟨⟨z, vs⟩, hz, h⟩ := exists_of_bind_ok h
    obtain ⟨rfl, rfl⟩ := Prod.mk.inj (Except.ok.inj h)
    exact Tells.apply₂ hw rfl rfl (ih.requiredGroup hy) (ih.requiredGroup hz).tells .fraction
  | absolute => exact tells_applied ih hw rfl rfl .abs h
  | binary f =>
    obtain ⟨⟨y, us⟩, hy, h⟩ := exists_of_bind_ok h
    obtain ⟨⟨z, vs⟩, hz, h⟩ := exists_of_bind_ok h
    obtain ⟨rfl, rfl⟩ := Prod.mk.inj (Except.ok.inj h)
    exact Tells.apply₂ hw rfl rfl (ih.requiredGroup hy) (ih.argument hz) (.call₂ f)
  | unary f =>
    cases f with
    | log => exact tells_log ih hw h
    | _ => exact tells_applied ih hw rfl rfl (.call _) h

theorem TellsAll.succ : TellsAll stop (calls + 1) where
  sum := tells_sum ih
  term := tells_term ih
  signed := tells_signed ih
  raised := tells_raised ih
  postfixed := tells_postfixed ih
  factor := tells_factor ih
  worded := tells_worded ih
  argument := tells_argument ih
  requiredGroup := tells_requiredGroup ih
  group := tells_group ih

end Step

theorem tellsAll (stop : Nat) : ∀ calls, TellsAll stop calls
  | 0 => by constructor <;> intros <;> contradiction
  | calls + 1 => (tellsAll stop calls).succ

/-- No group that the parser reads is empty. -/
theorem filled_of_sum {calls : Nat} {ts : List Token} {x : Expr}
    (h : sum stop calls ts = .ok (x, [])) : filled false (symbolsOf ts) = true := by
  obtain ⟨used, items, hused, -, hu⟩ := (tellsAll stop calls).sum h
  obtain rfl : ts = used := by rw [hused, List.append_nil]
  simpa [filled] using hu.filled false []

end Expr

/-! ### Whole texts -/

/-- Brackets that nest as symbols are well nested as characters. -/
theorem nest_bracketsOf : ∀ {symbols : List Symbol} {n m : Nesting}, n.run symbols = some m →
    nest n.opened (bracketsOf symbols) = some m.opened
  | [], _, _, h => by
    obtain rfl := Option.some.inj h
    rfl
  | symbol :: symbols, n, m, h => by
    rw [Nesting.run_cons] at h
    obtain ⟨k, hk, h⟩ := Option.bind_eq_some_iff.mp h
    have hrest := nest_bracketsOf h
    have hother : bracketsOf [symbol] = [] → k.opened = n.opened →
        nest n.opened (bracketsOf (symbol :: symbols)) = some m.opened := by
      intro hs hk
      have happ : bracketsOf (symbol :: symbols) = bracketsOf [symbol] ++ bracketsOf symbols := by
        simp [bracketsOf]
      rw [happ, hs, List.nil_append, ← hk]
      exact hrest
    cases symbol with
    | opening b =>
      obtain rfl := Option.some.inj hk
      exact (nest_opening b _ _).trans hrest
    | closing b =>
      simp only [Nesting.read] at hk
      split at hk
      · next hb =>
        obtain rfl := Option.some.inj hk
        exact (nest_closing b _ _).trans (by rw [if_pos hb.1]; exact hrest)
      · cases hk
    | operator o =>
      refine hother rfl ?_
      cases o with
      | caret =>
        simp only [Nesting.read] at hk
        split at hk <;> cases hk
        rfl
      | _ => rw [← Option.some.inj hk]
    | number | word | comma => exact hother rfl (by rw [← Option.some.inj hk])
    | letters | bar | command | unknown => cases hk

/-- **Every token is read.** The tokens of a text that stands for an expression are
numbers, words, signs, brackets and commas; the brackets are well nested, each comma is
the only one directly in the brackets of a plain logarithm, and the other tokens say
what the expression does, each once and in order. -/
theorem Expr.recites_of_parse {text : Text} {x : Expr} (h : parse text = .ok x) :
    ∃ ts, tokens text = .ok ts ∧ (∀ s ∈ symbolsOf ts, s.isReadable = true) ∧
      Nested (bracketsOf (symbolsOf ts)) ∧ commasFit false [] (symbolsOf ts) = true ∧
      Recites x (transcript false false [] (symbolsOf ts)) := by
  obtain ⟨ts, hts, h⟩ := exists_of_bind_ok h
  obtain ⟨hoperand, hsum⟩ := operand_of_ofTokens h
  obtain ⟨used, items, hused, hx, hu⟩ := (tellsAll text.length callLimit).sum hsum
  obtain rfl : ts = used := by rw [hused, List.append_nil]
  have hspoken := hu.spoken [] []
  have hcommas := hu.commas false [] []
  simp only [List.append_nil, transcript, commasFit] at hspoken hcommas
  exact ⟨ts, hts, hu.readable, nest_bracketsOf (hoperand.2 [] false), hcommas, hspoken ▸ hx⟩

/-- With signs before operands, products without a sign and a logarithm to a base behind a
comma. -/
theorem Expr.recites_of_parse_log : ∃ x, parse "2log(-8,+pi)frac{1}[sin 3!]^e".toList = .ok x ∧
    ∃ ts, tokens "2log(-8,+pi)frac{1}[sin 3!]^e".toList = .ok ts ∧
      (∀ s ∈ symbolsOf ts, s.isReadable = true) ∧ Nested (bracketsOf (symbolsOf ts)) ∧
      commasFit false [] (symbolsOf ts) = true ∧
      Recites x (transcript false false [] (symbolsOf ts)) := by
  obtain ⟨x, hx⟩ := exists_of_isOk
    (r := parse "2log(-8,+pi)frac{1}[sin 3!]^e".toList) (by decide +kernel)
  exact ⟨x, hx, recites_of_parse hx⟩

end NumericAnswer
