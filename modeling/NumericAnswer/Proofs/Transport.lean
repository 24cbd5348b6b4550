/-
# Reading in another place

What the parser reads of tokens depends on their shapes only, and stays the
same if more calls may nest or if something else follows them: nothing, a
closing bracket or a comma.

Key definitions: `SameShapes`, `Ends`, `Carries`, `CarriesAll`.
Key theorem: `Expr.carriesAll`.
-/
import NumericAnswer.Proofs.Shapes

namespace NumericAnswer

/-- The tokens have the same shapes, in order. -/
def SameShapes (us ts : List Token) : Prop :=
  us.map Token.shape = ts.map Token.shape

/-- The tokens are none, or begin with a closing bracket or a comma. -/
def Ends (v : List Token) : Prop :=
  ∀ token ∈ v.head?, token.symbol = .comma ∨ ∃ b, token.symbol = .closing b

section SameShapes

variable {token : Token} {us ts : List Token}

theorem SameShapes.eq_nil (h : SameShapes us []) : us = [] :=
  List.map_eq_nil_iff.mp h

theorem SameShapes.exists_cons (h : SameShapes us (token :: ts)) :
    ∃ u us', us = u :: us' ∧ u.symbol = token.symbol ∧
      (token.symbol.isNumber && u.afterNumber) = (token.symbol.isNumber && token.afterNumber) ∧
      SameShapes us' ts := by
  obtain ⟨u, us', rfl, hu, hus⟩ := List.map_eq_cons_iff.mp h
  obtain ⟨hs, hn⟩ := Prod.mk.inj hu
  refine ⟨u, us', rfl, hs, ?_, hus⟩
  rw [← hn, hs]

/-- Tokens with the same shapes begin with the same symbol. -/
theorem SameShapes.exists_symbol {symbol : Symbol} {position : Nat} {afterNumber : Bool}
    (h : SameShapes us (⟨symbol, position, afterNumber⟩ :: ts)) :
    ∃ position' afterNumber' us', us = ⟨symbol, position', afterNumber'⟩ :: us' ∧
      SameShapes us' ts := by
  obtain ⟨⟨_, position', afterNumber'⟩, us', rfl, rfl, _, hus⟩ := h.exists_cons
  exact ⟨position', afterNumber', us', rfl, hus⟩

theorem SameShapes.length_eq (h : SameShapes us ts) : us.length = ts.length := by
  simpa using congrArg List.length h

end SameShapes

theorem Ends.symbol_ne {v : List Token} {token : Token} (hv : Ends (token :: v)) {symbol : Symbol}
    (hc : symbol ≠ .comma) (hb : ∀ b, symbol ≠ .closing b) : token.symbol ≠ symbol := by
  rintro rfl
  rcases hv token rfl with h | ⟨b, h⟩
  · exact hc h
  · exact hb b h

/-- What the first function reads before tokens that end it, the second one reads of
tokens with the same shapes, before others that end it. -/
def Carries (read read' : List Token → Except ReadFault (Expr × List Token)) : Prop :=
  ∀ {ts rest w : List Token} {x : Expr}, Ends w → read (ts ++ w) = .ok (x, rest ++ w) →
    ∀ {us v : List Token}, SameShapes us ts → Ends v →
      ∃ rest', SameShapes rest' rest ∧ read' (us ++ v) = .ok (x, rest' ++ v)

/-- The same for a step that goes on with an expression. -/
structure CarriesStep
    (step step' : Expr → List Token → Option (Except ReadFault (Expr × List Token))) : Prop where
  reads : ∃ stop, ∀ x ts r, step x ts = some r → Reads Operand stop ts r
  ends {w : List Token} (x : Expr) (hw : Ends w) : step x w = none
  ended {v : List Token} (x : Expr) (hv : Ends v) : step' x v = none
  none {ts us w v : List Token} {x : Expr} (h : step x (ts ++ w) = none) (hne : ts ≠ [])
    (hu : SameShapes us ts) : step' x (us ++ v) = none
  some {ts us w v rest : List Token} {x y : Expr} (hw : Ends w)
    (h : step x (ts ++ w) = some (.ok (y, rest ++ w))) (hu : SameShapes us ts) (hv : Ends v) :
    ∃ rest', SameShapes rest' rest ∧ step' x (us ++ v) = some (.ok (y, rest' ++ v))

/-- What is read before a suffix leaves the suffix to those that read before. -/
theorem Reads.exists_append {p : List Symbol → Prop} {stop : Nat} {after rest w : List Token}
    {x : Expr} (h : Reads p stop after (.ok (x, rest ++ w))) : ∃ after', after = after' ++ w := by
  cases h with
  | @ok used _ _ hts _ => exact ⟨used ++ rest, by rw [hts, List.append_assoc]⟩

/-- An operand has a token. -/
theorem Expr.length_lt_of_reads {stop : Nat} {ts rest : List Token} {x : Expr}
    (h : Reads Operand stop ts (.ok (x, rest))) : rest.length < ts.length := by
  cases h with
  | @ok used _ _ hts hp =>
    have := List.length_pos_iff.mpr hp.1
    rw [hts, List.length_append]
    simp only [symbolsOf, List.length_map] at this
    omega

theorem Reads.length_lt {stop : Nat} {ts rest w : List Token} {x : Expr}
    (h : Reads Operand stop (ts ++ w) (.ok (x, rest ++ w))) : rest.length < ts.length := by
  simpa using Expr.length_lt_of_reads h

namespace Expr

theorem extend_of_none
    {step : Expr → List Token → Option (Except ReadFault (Expr × List Token))} {x : Expr}
    {ts : List Token} (h : step x ts = none) : ∀ bound, extend step bound x ts = .ok (x, ts)
  | 0 => rfl
  | bound + 1 => by rw [extend, h]

theorem carries_extend
    {step step' : Expr → List Token → Option (Except ReadFault (Expr × List Token))}
    (hs : CarriesStep step step') : ∀ {bound bound' : Nat} {x y : Expr} {ts rest w : List Token},
      Ends w → ts.length ≤ bound → ts.length ≤ bound' →
      extend step bound x (ts ++ w) = .ok (y, rest ++ w) →
      ∀ {us v : List Token}, SameShapes us ts → Ends v →
        ∃ rest', SameShapes rest' rest ∧ extend step' bound' x (us ++ v) = .ok (y, rest' ++ v)
  | bound, bound', x, y, [], rest, w, hw, _, _, h, us, v, hu, hv => by
    obtain rfl := hu.eq_nil
    rw [List.nil_append, extend_of_none (hs.ends x hw)] at h
    obtain ⟨rfl, hrest⟩ := Prod.mk.inj (Except.ok.inj h)
    obtain rfl : rest = [] := by simpa using hrest
    exact ⟨[], rfl, extend_of_none (hs.ended x hv) bound'⟩
  | 0, bound', x, y, token :: ts, rest, w, _, hb, _, h, us, v, hu, hv => by
    simp at hb
  | bound + 1, 0, x, y, token :: ts, rest, w, _, _, hb, h, us, v, hu, hv => by
    simp at hb
  | bound + 1, bound' + 1, x, y, token :: ts, rest, w, hw, hb, hb', h, us, v, hu, hv => by
    unfold extend at h ⊢
    cases hstep : step x (token :: ts ++ w) with
    | none =>
      rw [hstep] at h
      obtain ⟨rfl, hrest⟩ := Prod.mk.inj (Except.ok.inj h)
      obtain rfl := List.append_cancel_right hrest
      rw [hs.none hstep (List.cons_ne_nil _ _) hu]
      exact ⟨us, hu, rfl⟩
    | some result =>
      rw [hstep] at h
      obtain ⟨⟨z, after⟩, rfl, h⟩ := exists_of_bind_ok h
      change extend step bound z after = _ at h
      obtain ⟨stop, hreads⟩ := hs.reads
      obtain ⟨after, rfl⟩ := (h ▸ reads_extend hreads bound z after).exists_append
      have hlt := (hreads _ _ _ hstep).length_lt
      obtain ⟨after', hafter, hstep'⟩ := hs.some hw hstep hu hv
      rw [hstep']
      simp only [List.length_cons] at hb hb' hlt
      exact carries_extend hs hw (by omega) (by omega) h hafter hv

/-! ### Steps -/

variable {stop stop' calls calls' : Nat}

theorem not_ok_of_nil {x : Expr} {rest : List Token}
    {r : Except ReadFault (Expr × List Token)} (h : Reads Operand stop [] r) :
    r ≠ .ok (x, rest) := by
  rintro rfl
  exact absurd (length_lt_of_reads h) (Nat.not_lt_zero _)

/-- A sign and what is read after it. -/
theorem carries_sign {read read' : List Token → Except ReadFault (Expr × List Token)}
    (hr : Carries read read') (f : Expr → Expr) {ts rest w : List Token} {y : Expr} (hw : Ends w)
    (h : (do let (x, rest) ← read (ts ++ w); .ok (f x, rest)) = .ok (y, rest ++ w))
    {us v : List Token} (hu : SameShapes us ts) (hv : Ends v) : ∃ rest', SameShapes rest' rest ∧
      (do let (x, rest) ← read' (us ++ v); .ok (f x, rest)) =
        (.ok (y, rest' ++ v) : Except ReadFault (Expr × List Token)) := by
  obtain ⟨⟨x, after⟩, hx, h⟩ := exists_of_bind_ok h
  obtain ⟨rfl, rfl⟩ := Prod.mk.inj (Except.ok.inj h)
  obtain ⟨rest', hrest, hx'⟩ := hr hw hx hu hv
  exact ⟨rest', hrest, by rw [hx']; rfl⟩

theorem sumStep_of_ends {v : List Token} (hv : Ends v)
    (read : List Token → Except ReadFault (Expr × List Token)) (x : Expr) :
    sumStep read x v = none := by
  unfold sumStep
  split
  · exact absurd rfl (hv.symbol_ne (by simp) (by simp))
  · exact absurd rfl (hv.symbol_ne (by simp) (by simp))
  · rfl

theorem carriesStep_sum {read read' : List Token → Except ReadFault (Expr × List Token)}
    (hreads : ∀ us, Reads Operand stop us (read us)) (hr : Carries read read') :
    CarriesStep (sumStep read) (sumStep read') where
  reads := ⟨stop, reads_sumStep hreads⟩
  ends x hw := sumStep_of_ends hw read x
  ended x hv := sumStep_of_ends hv read' x
  none {ts us w v x} h hne hu := by
    cases ts with
    | nil => exact absurd rfl hne
    | cons token ts =>
      obtain ⟨u, us', rfl, hs, _, _⟩ := hu.exists_cons
      obtain ⟨symbol, position, afterNumber⟩ := token
      obtain ⟨_, position', afterNumber'⟩ := u
      obtain rfl : _ = symbol := hs
      unfold sumStep at h ⊢
      split at h
      · cases h
      · cases h
      · next h₁ h₂ =>
        split
        · next heq => exact absurd (by simp_all) (h₁ position afterNumber (ts ++ w))
        · next heq => exact absurd (by simp_all) (h₂ position afterNumber (ts ++ w))
        · rfl
  some {ts us w v rest x y} hw h hu hv := by
    cases ts with
    | nil => rw [List.nil_append, sumStep_of_ends hw] at h; cases h
    | cons token ts =>
      rw [List.cons_append] at h
      unfold sumStep at h
      split at h
      · next heq =>
        obtain ⟨rfl, rfl⟩ := List.cons.inj heq
        obtain ⟨position', afterNumber', us', rfl, hus⟩ := hu.exists_symbol
        obtain ⟨rest', hrest, he⟩ := carries_sign hr (binary .add x) hw (Option.some.inj h) hus hv
        exact ⟨rest', hrest, congrArg _ he⟩
      · next heq =>
        obtain ⟨rfl, rfl⟩ := List.cons.inj heq
        obtain ⟨position', afterNumber', us', rfl, hus⟩ := hu.exists_symbol
        obtain ⟨rest', hrest, he⟩ :=
          carries_sign hr (binary .subtract x) hw (Option.some.inj h) hus hv
        exact ⟨rest', hrest, congrArg _ he⟩
      · cases h

theorem termStep_of_ends {v : List Token} (hv : Ends v)
    (signed power : List Token → Except ReadFault (Expr × List Token)) (x : Expr) :
    termStep signed power x v = none := by
  unfold termStep
  split
  · rfl
  · next token ts =>
    rcases hv token rfl with h | ⟨b, h⟩ <;> simp [h, Symbol.startsOperand]

theorem carriesStep_term {signed signed' power power' :
      List Token → Except ReadFault (Expr × List Token)}
    (hreads : ∀ us, Reads Operand stop us (signed us))
    (hreads' : ∀ us, Reads Operand stop us (power us)) (hs : Carries signed signed')
    (hp : Carries power power') :
    CarriesStep (termStep signed power) (termStep signed' power') where
  reads := ⟨stop, reads_termStep hreads hreads'⟩
  ends x hw := termStep_of_ends hw signed power x
  ended x hv := termStep_of_ends hv signed' power' x
  none {ts us w v x} h hne hu := by
    cases ts with
    | nil => exact absurd rfl hne
    | cons token ts =>
      obtain ⟨u, us', rfl, hsym, hn, _⟩ := hu.exists_cons
      simp only [List.cons_append, termStep, hsym] at h ⊢
      split at h
      · cases h
      · cases h
      · split at h
        · next hstart => rw [if_pos hstart]
        · split at h <;> cases h
  some {ts us w v rest x y} hw h hu hv := by
    cases ts with
    | nil => rw [List.nil_append, termStep_of_ends hw] at h; cases h
    | cons token ts =>
      have hall := hu
      obtain ⟨u, us', rfl, hsym, hn, hus⟩ := hu.exists_cons
      simp only [List.cons_append, termStep, hsym] at h ⊢
      split at h
      · obtain ⟨rest', hrest, he⟩ :=
          carries_sign hs (binary .multiply x) hw (Option.some.inj h) hus hv
        exact ⟨rest', hrest, congrArg _ he⟩
      · obtain ⟨rest', hrest, he⟩ :=
          carries_sign hs (binary .divide x) hw (Option.some.inj h) hus hv
        exact ⟨rest', hrest, congrArg _ he⟩
      · split at h
        · cases h
        · next hstart =>
          rw [if_neg hstart, hn]
          split at h
          · cases h
          · next hadjacent =>
            rw [if_neg hadjacent]
            obtain ⟨rest', hrest, he⟩ :=
              carries_sign hp (binary .multiply x) hw (Option.some.inj h) hall hv
            exact ⟨rest', hrest, congrArg _ he⟩

theorem postfixStep_of_ends {v : List Token} (hv : Ends v) (x : Expr) :
    postfixStep x v = none := by
  unfold postfixStep
  split
  · exact absurd rfl (hv.symbol_ne (by simp) (by simp))
  · rfl

theorem carriesStep_postfix : CarriesStep postfixStep postfixStep where
  reads := ⟨0, reads_postfixStep⟩
  ends x hw := postfixStep_of_ends hw x
  ended x hv := postfixStep_of_ends hv x
  none {ts us w v x} h hne hu := by
    cases ts with
    | nil => exact absurd rfl hne
    | cons token ts =>
      obtain ⟨⟨_, position', afterNumber'⟩, us', rfl, hs, _, _⟩ := hu.exists_cons
      obtain ⟨symbol, position, afterNumber⟩ := token
      obtain rfl : _ = symbol := hs
      unfold postfixStep at h ⊢
      split at h
      · cases h
      · next hbang =>
        split
        · next heq => exact absurd (by simp_all) (hbang position afterNumber (ts ++ w))
        · rfl
  some {ts us w v rest x y} hw h hu hv := by
    cases ts with
    | nil => rw [List.nil_append, postfixStep_of_ends hw] at h; cases h
    | cons token ts =>
      rw [List.cons_append] at h
      unfold postfixStep at h
      split at h
      · next heq =>
        obtain ⟨rfl, rfl⟩ := List.cons.inj heq
        obtain ⟨position', afterNumber', us', rfl, hus⟩ := hu.exists_symbol
        obtain ⟨rfl, hrest⟩ := Prod.mk.inj (Except.ok.inj (Option.some.inj h))
        obtain rfl := List.append_cancel_right hrest
        exact ⟨us', hus, rfl⟩
      · cases h

/-! ### The functions of the parser -/

/-- What all functions of the parser read within a number of calls, they read
within another one, of a text with another length. -/
structure CarriesAll (stop stop' calls calls' : Nat) : Prop where
  sum : Carries (sum stop calls) (sum stop' calls')
  term : Carries (term stop calls) (term stop' calls')
  signed : Carries (signed stop calls) (signed stop' calls')
  raised : Carries (raised stop calls) (raised stop' calls')
  postfixed : Carries (postfixed stop calls) (postfixed stop' calls')
  factor : Carries (factor stop calls) (factor stop' calls')
  worded (w) : Carries (worded stop calls w) (worded stop' calls' w)
  argument (w) : Carries (argument stop calls w) (argument stop' calls' w)
  requiredGroup (b w) : Carries (requiredGroup stop calls b w) (requiredGroup stop' calls' b w)
  group : Carries (group stop calls) (group stop' calls')

/-- A function that extends what it reads first. -/
theorem carries_extended {read read' : List Token → Except ReadFault (Expr × List Token)}
    {step step' : Expr → List Token → Option (Except ReadFault (Expr × List Token))}
    (hr : Carries read read') (hs : CarriesStep step step') :
    Carries (fun ts => do let (x, rest) ← read ts; extend step rest.length x rest)
      (fun ts => do let (x, rest) ← read' ts; extend step' rest.length x rest) := by
  intro ts rest w x hw h us v hu hv
  obtain ⟨⟨y, after⟩, hy, h⟩ := exists_of_bind_ok h
  change extend step after.length y after = _ at h
  obtain ⟨stop, hreads⟩ := hs.reads
  obtain ⟨after, rfl⟩ := (h ▸ reads_extend hreads after.length y after).exists_append
  obtain ⟨after', hafter, hy'⟩ := hr hw hy hu hv
  have hlen : after.length ≤ (after ++ w).length ∧ after.length ≤ (after' ++ v).length := by
    rw [List.length_append, List.length_append, hafter.length_eq]
    exact ⟨Nat.le_add_right _ _, Nat.le_add_right _ _⟩
  obtain ⟨rest', hrest, he⟩ := carries_extend hs hw hlen.1 hlen.2 h hafter hv
  refine ⟨rest', hrest, ?_⟩
  simp only [hy']
  exact he

/-- A closing bracket, and what stands before it is the result. -/
theorem carries_closing {b : Bracket} {opened opened' : Nat} {after rest w : List Token} {x y : Expr}
    (h : (do let rest ← expectClosing stop b opened after; .ok (x, rest)) =
      (.ok (y, rest ++ w) : Except ReadFault (Expr × List Token))) :
    ∃ ts, after = ts ++ w ∧ ts ≠ [] ∧ ∀ {us v : List Token}, SameShapes us ts →
      ∃ rest', SameShapes rest' rest ∧
        (do let rest ← expectClosing stop' b opened' (us ++ v); .ok (x, rest)) =
          (.ok (y, rest' ++ v) : Except ReadFault (Expr × List Token)) := by
  obtain ⟨after', ha, h⟩ := exists_of_bind_ok h
  obtain ⟨rfl, rfl⟩ := Prod.mk.inj (Except.ok.inj h)
  cases after with
  | nil => cases ha
  | cons token after =>
    unfold expectClosing at ha
    by_cases hb : token.symbol = .closing b
    · obtain rfl := Except.ok.inj ((if_pos hb).symm.trans ha)
      refine ⟨token :: rest, rfl, List.cons_ne_nil _ _, fun {us v} hu => ?_⟩
      obtain ⟨u, us', rfl, hs, -, hus⟩ := hu.exists_cons
      refine ⟨us', hus, ?_⟩
      simp only [expectClosing, List.cons_append, hs, hb, if_true]
      rfl
    · cases (if_neg hb).symm.trans ha

section Step

variable (ih : CarriesAll stop stop' calls calls')

include ih

theorem carries_sum : Carries (sum stop (calls + 1)) (sum stop' (calls' + 1)) := by
  intro ts rest w x hw h us v hu hv
  unfold sum at h ⊢
  exact carries_extended ih.term (carriesStep_sum (readsAll stop calls).term ih.term) hw h hu hv

theorem carries_term : Carries (term stop (calls + 1)) (term stop' (calls' + 1)) := by
  intro ts rest w x hw h us v hu hv
  unfold term at h ⊢
  have hreads := readsAll stop calls
  exact carries_extended ih.signed
    (carriesStep_term hreads.signed hreads.raised ih.signed ih.raised) hw h hu hv

theorem carries_postfixed :
    Carries (postfixed stop (calls + 1)) (postfixed stop' (calls' + 1)) := by
  intro ts rest w x hw h us v hu hv
  unfold postfixed at h ⊢
  exact carries_extended ih.factor carriesStep_postfix hw h hu hv

theorem carries_signed : Carries (signed stop (calls + 1)) (signed stop' (calls' + 1)) := by
  intro ts rest w x hw h us v hu hv
  cases ts with
  | nil => exact absurd (h ▸ (readsAll stop (calls + 1)).signed ([] ++ w)).length_lt (Nat.not_lt_zero _)
  | cons token ts =>
    have hall := hu
    obtain ⟨⟨symbol, position', afterNumber'⟩, us', rfl, hs, -, hus⟩ := hu.exists_cons
    obtain ⟨_, position, afterNumber⟩ := token
    obtain rfl : symbol = _ := hs
    rw [List.cons_append] at h
    unfold signed at h
    split at h
    · next heq =>
      obtain ⟨hs, rfl⟩ := List.cons.inj heq
      obtain rfl : symbol = _ := congrArg Token.symbol hs
      exact ih.signed hw h hus hv
    · next heq =>
      obtain ⟨hs, rfl⟩ := List.cons.inj heq
      obtain rfl : symbol = _ := congrArg Token.symbol hs
      exact carries_sign ih.signed neg hw h hus hv
    · next hplus hminus =>
      obtain ⟨rest', hrest, hx⟩ := ih.raised hw h hall hv
      refine ⟨rest', hrest, ?_⟩
      rw [← hx]
      unfold signed
      split
      · next heq =>
        obtain ⟨hs, -⟩ := List.cons.inj heq
        obtain rfl : symbol = _ := congrArg Token.symbol hs
        exact absurd rfl (hplus position afterNumber (ts ++ w))
      · next heq =>
        obtain ⟨hs, -⟩ := List.cons.inj heq
        obtain rfl : symbol = _ := congrArg Token.symbol hs
        exact absurd rfl (hminus position afterNumber (ts ++ w))
      · rfl

theorem carries_raised : Carries (raised stop (calls + 1)) (raised stop' (calls' + 1)) := by
  intro ts rest w x hw h us v hu hv
  unfold raised at h ⊢
  obtain ⟨⟨y, after⟩, hy, h⟩ := exists_of_bind_ok h
  simp only at h
  split at h
  · next position afterNumber after =>
    obtain ⟨⟨z, after'⟩, hz, he⟩ := exists_of_bind_ok h
    obtain ⟨rfl, rfl⟩ := Prod.mk.inj (Except.ok.inj he)
    obtain ⟨after, rfl⟩ := (hz ▸ (readsAll stop calls).signed after).exists_append
    obtain ⟨after', hafter, hy'⟩ := @ih.postfixed _ (⟨.operator .caret, position, afterNumber⟩ :: after)
      w _ hw hy _ _ hu hv
    obtain ⟨position', afterNumber', us', rfl, hus⟩ := hafter.exists_symbol
    simp only [hy', bind, Except.bind]
    exact carries_sign ih.signed (power y) hw h hus hv
  · next hcaret =>
    obtain ⟨rfl, rfl⟩ := Prod.mk.inj (Except.ok.inj h)
    obtain ⟨after', hafter, hy'⟩ := ih.postfixed hw hy hu hv
    refine ⟨after', hafter, ?_⟩
    simp only [hy', bind, Except.bind]
    cases rest with
    | nil =>
      obtain rfl := hafter.eq_nil
      split
      · next heq =>
        obtain rfl := heq
        exact absurd rfl (hv.symbol_ne (by simp) (by simp))
      · rfl
    | cons token after =>
      obtain ⟨⟨symbol, position', afterNumber'⟩, us', rfl, hs, -, -⟩ := hafter.exists_cons
      obtain ⟨_, position, afterNumber⟩ := token
      obtain rfl : symbol = _ := hs
      split
      · next heq =>
        obtain ⟨hs, -⟩ := List.cons.inj heq
        obtain rfl : symbol = _ := congrArg Token.symbol hs
        exact absurd rfl (hcaret position afterNumber (after ++ w))
      · rfl

theorem carries_factor : Carries (factor stop (calls + 1)) (factor stop' (calls' + 1)) := by
  intro ts rest w x hw h us v hu hv
  cases ts with
  | nil => exact absurd (h ▸ (readsAll stop (calls + 1)).factor ([] ++ w)).length_lt (Nat.not_lt_zero _)
  | cons token ts =>
    have hall := hu
    obtain ⟨u, us', rfl, hs, -, hus⟩ := hu.exists_cons
    simp only [factor, List.cons_append, hs] at h ⊢
    split at h
    · obtain ⟨rfl, hrest⟩ := Prod.mk.inj (Except.ok.inj h)
      obtain rfl := List.append_cancel_right hrest
      exact ⟨us', hus, rfl⟩
    · exact ih.group hw h hall hv
    · exact ih.worded _ hw h hus hv
    · cases h

theorem carries_argument (w : Word) :
    Carries (argument stop (calls + 1) w) (argument stop' (calls' + 1) w) := by
  intro ts rest w' x hw h us v hu hv
  cases ts with
  | nil =>
    exact absurd (h ▸ (readsAll stop (calls + 1)).argument w ([] ++ w')).length_lt (Nat.not_lt_zero _)
  | cons token ts =>
    have hall := hu
    obtain ⟨u, us', rfl, hs, -, hus⟩ := hu.exists_cons
    simp only [argument, List.cons_append, hs] at h ⊢
    split at h
    · split at h <;> cases h
    · exact ih.group hw h hall hv
    · exact ih.signed hw h hall hv

theorem carries_requiredGroup (b : Bracket) (w : Word) :
    Carries (requiredGroup stop (calls + 1) b w) (requiredGroup stop' (calls' + 1) b w) := by
  intro ts rest w' x hw h us v hu hv
  cases ts with
  | nil =>
    exact absurd (h ▸ (readsAll stop (calls + 1)).requiredGroup b w ([] ++ w')).length_lt
      (Nat.not_lt_zero _)
  | cons token ts =>
    rw [List.cons_append] at h
    unfold requiredGroup at h
    split at h
    · next heq =>
      obtain ⟨rfl, rfl⟩ := List.cons.inj heq
      obtain ⟨position', afterNumber', us', rfl, hus⟩ := hu.exists_symbol
      simp only [requiredGroup, List.cons_append]
      split at h
      · cases h
      · next hb =>
        rw [if_neg hb]
        exact ih.group hw h hu hv
    · cases h

theorem carries_group : Carries (group stop (calls + 1)) (group stop' (calls' + 1)) := by
  intro ts rest w x hw h us v hu hv
  cases ts with
  | nil => exact absurd (h ▸ (readsAll stop (calls + 1)).group ([] ++ w)).length_lt (Nat.not_lt_zero _)
  | cons token ts =>
    rw [List.cons_append] at h
    unfold group at h
    split at h
    · next heq =>
      obtain ⟨rfl, rfl⟩ := List.cons.inj heq
      obtain ⟨position', afterNumber', us', rfl, hus⟩ := hu.exists_symbol
      obtain ⟨⟨y, after⟩, hy, h⟩ := exists_of_bind_ok h
      obtain ⟨after, rfl, -, hclosing⟩ := @carries_closing stop stop' _ _ position' _ _ _ _ _ h
      obtain ⟨after', hafter, hy'⟩ := ih.sum hw hy hus hv
      obtain ⟨rest', hrest, he⟩ := hclosing hafter
      refine ⟨rest', hrest, ?_⟩
      simp only [List.cons_append, group, hy']
      exact he
    · cases h

/-- The logarithm, which takes a base after a comma. -/
theorem carries_log :
    Carries (worded stop (calls + 1) (.unary .log)) (worded stop' (calls' + 1) (.unary .log)) := by
  intro ts rest w x hw h us v hu hv
  simp only [worded] at h
  split at h
  · next position afterNumber after heq =>
    cases ts with
    | nil =>
      rw [List.nil_append] at heq
      exact absurd rfl ((heq ▸ hw).symbol_ne (by simp) (by simp))
    | cons token ts =>
      obtain ⟨rfl, rfl⟩ := List.cons.inj heq
      obtain ⟨position', afterNumber', us', rfl, hus⟩ := hu.exists_symbol
      obtain ⟨⟨y, after⟩, hy, h⟩ := exists_of_bind_ok h
      simp only [worded, List.cons_append]
      simp only at h
      split at h
      · next position₁ afterNumber₁ after =>
        obtain ⟨⟨z, after₁⟩, hz, h⟩ := exists_of_bind_ok h
        obtain ⟨after₁, rfl, -, hclosing⟩ := @carries_closing stop stop' _ _ position' _ _ _ _ _ h
        obtain ⟨after, rfl⟩ := (hz ▸ (readsAll stop calls).sum after).exists_append
        obtain ⟨after', hafter, hy'⟩ := @ih.sum _ (⟨.comma, position₁, afterNumber₁⟩ :: after)
          w _ hw hy _ _ hus hv
        obtain ⟨position'', afterNumber'', us'', rfl, hus''⟩ := hafter.exists_symbol
        obtain ⟨after₁', hafter₁, hz'⟩ := ih.sum hw hz hus'' hv
        simp only [hy', bind, Except.bind, List.cons_append, hz']
        exact hclosing hafter₁
      · next hcomma =>
        obtain ⟨after, rfl, hne, hclosing⟩ := @carries_closing stop stop' _ _ position' _ _ _ _ _ h
        obtain ⟨after', hafter, hy'⟩ := ih.sum hw hy hus hv
        obtain ⟨rest', hrest, he⟩ := hclosing hafter
        refine ⟨rest', hrest, ?_⟩
        rw [← he]
        simp only [hy', bind, Except.bind]
        cases after with
        | nil => exact absurd rfl hne
        | cons token after =>
          obtain ⟨⟨symbol, position₁, afterNumber₁⟩, us'', rfl, hs, -, -⟩ := hafter.exists_cons
          obtain ⟨_, position, afterNumber⟩ := token
          obtain rfl : symbol = _ := hs
          split
          · next heq =>
            obtain ⟨hs, -⟩ := List.cons.inj heq
            obtain rfl : symbol = _ := congrArg Token.symbol hs
            exact absurd rfl (hcomma position afterNumber (after ++ w))
          · rfl
  · next hround =>
    obtain ⟨rest', hrest, he⟩ := carries_sign (ih.argument _) (call .log) hw h hu hv
    refine ⟨rest', hrest, ?_⟩
    rw [← he]
    cases ts with
    | nil =>
      obtain ⟨⟨y, after⟩, hy, he⟩ := exists_of_bind_ok h
      obtain ⟨-, rfl⟩ := Prod.mk.inj (Except.ok.inj he)
      exact absurd (hy ▸ (readsAll stop calls).argument _ ([] ++ w)).length_lt (Nat.not_lt_zero _)
    | cons token ts =>
      obtain ⟨⟨symbol, position', afterNumber'⟩, us', rfl, hs, -, -⟩ := hu.exists_cons
      obtain ⟨_, position, afterNumber⟩ := token
      obtain rfl : symbol = _ := hs
      simp only [worded]
      split
      · next heq =>
        obtain ⟨hs, -⟩ := List.cons.inj heq
        obtain rfl : symbol = _ := congrArg Token.symbol hs
        exact absurd rfl (hround position afterNumber (ts ++ w))
      · rfl

theorem carries_worded (w : Word) :
    Carries (worded stop (calls + 1) w) (worded stop' (calls' + 1) w) := by
  intro ts rest w' x hw h us v hu hv
  have hreads := readsAll stop calls
  unfold worded at h
  split at h
  · obtain ⟨rfl, hrest⟩ := Prod.mk.inj (Except.ok.inj h)
    obtain rfl := List.append_cancel_right hrest
    exact ⟨us, hu, rfl⟩
  · obtain ⟨⟨y, after⟩, hy, h⟩ := exists_of_bind_ok h
    obtain ⟨⟨z, after'⟩, hz, he⟩ := exists_of_bind_ok h
    obtain ⟨-, rfl⟩ := Prod.mk.inj (Except.ok.inj he)
    obtain ⟨after, rfl⟩ := (hz ▸ hreads.requiredGroup _ _ _).exists_append
    obtain ⟨after', hafter, hy'⟩ := ih.requiredGroup _ _ hw hy hu hv
    simp only [worded, hy']
    exact carries_sign (ih.requiredGroup _ _) (fraction y) hw h hafter hv
  · exact carries_sign (ih.argument _) abs hw h hu hv
  · obtain ⟨⟨y, after⟩, hy, h⟩ := exists_of_bind_ok h
    obtain ⟨⟨z, after'⟩, hz, he⟩ := exists_of_bind_ok h
    obtain ⟨-, rfl⟩ := Prod.mk.inj (Except.ok.inj he)
    obtain ⟨after, rfl⟩ := (hz ▸ hreads.argument _ _).exists_append
    obtain ⟨after', hafter, hy'⟩ := ih.requiredGroup _ _ hw hy hu hv
    simp only [worded, hy']
    exact carries_sign (ih.argument _) (call₂ _ y) hw h hafter hv
  · exact carries_log ih hw h hu hv
  · next f hf =>
    have hworded : worded stop' (calls' + 1) (.unary f) (us ++ v) =
        (do let (x, rest) ← argument stop' calls' (.unary f) (us ++ v); .ok (call f x, rest)) := by
      unfold worded
      cases f <;> first | rfl | exact absurd rfl hf
    rw [hworded]
    exact carries_sign (ih.argument _) (call f) hw h hu hv

/-- One more call may nest on both sides. -/
theorem CarriesAll.succ : CarriesAll stop stop' (calls + 1) (calls' + 1) where
  sum := carries_sum ih
  term := carries_term ih
  signed := carries_signed ih
  raised := carries_raised ih
  postfixed := carries_postfixed ih
  factor := carries_factor ih
  worded := carries_worded ih
  argument := carries_argument ih
  requiredGroup := carries_requiredGroup ih
  group := carries_group ih

end Step

/-- What is read within a number of calls is read within any greater one, whatever
the length of the text. -/
theorem carriesAll (stop stop' : Nat) :
    ∀ {calls calls' : Nat}, calls ≤ calls' → CarriesAll stop stop' calls calls'
  | 0, calls', _ => by
    constructor <;> intros <;> intro ts rest w x _ h <;> cases h
  | calls + 1, calls' + 1, h => (carriesAll stop stop' (Nat.le_of_succ_le_succ h)).succ

end Expr

end NumericAnswer
