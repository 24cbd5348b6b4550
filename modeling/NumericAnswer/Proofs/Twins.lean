/-
# Reading tokens in other places

Tokens with the same shapes, wherever they stand, are read alike: as the same expression, or
with faults of the same code. Where the tokens stand, and how long the text is, shows in the
messages of faults only.

Key definitions: `Twins`, `Alike`, `AlikeAll`.
Key theorems: `Expr.alikeAll`, `Expr.sameReading_ofTokensWithin`.
-/
import NumericAnswer.Proofs.Transport

namespace NumericAnswer

/-- The same symbols one after the other, and the same numbers right after numbers. -/
inductive Twins : List Token → List Token → Prop
  | nil : Twins [] []
  | cons {symbol : Symbol} {p p' : Nat} {a a' : Bool} {ts ts' : List Token}
      (ha : (symbol.isNumber && a) = (symbol.isNumber && a')) (h : Twins ts ts') :
      Twins (⟨symbol, p, a⟩ :: ts) (⟨symbol, p', a'⟩ :: ts')

theorem SameShapes.twins : ∀ {ts us : List Token}, SameShapes us ts → Twins ts us
  | [], us, h => by
    obtain rfl := h.eq_nil
    exact .nil
  | ⟨symbol, p, a⟩ :: ts, us, h => by
    obtain ⟨⟨_, p', a'⟩, us', rfl, rfl, ha, h⟩ := h.exists_cons
    exact .cons ha.symm h.twins

theorem Twins.length_eq {ts us : List Token} (h : Twins ts us) : ts.length = us.length := by
  induction h with
  | nil => rfl
  | cons _ _ ih => rw [List.length_cons, List.length_cons, ih]

/-- The same expression with twins left, or faults with the same code. -/
inductive Alike : Except ReadFault (Expr × List Token) → Except ReadFault (Expr × List Token) → Prop
  | ok (x : Expr) {ts us : List Token} (h : Twins ts us) : Alike (.ok (x, ts)) (.ok (x, us))
  | error {f g : ReadFault} (h : f.code = g.code) : Alike (.error f) (.error g)

/-- Twins are read alike. -/
def ReadsAlike (read read' : List Token → Except ReadFault (Expr × List Token)) : Prop :=
  ∀ ⦃ts us : List Token⦄, Twins ts us → Alike (read ts) (read' us)

theorem Alike.bind {r r' : Except ReadFault (Expr × List Token)}
    {k k' : Expr × List Token → Except ReadFault (Expr × List Token)} (h : Alike r r')
    (hk : ∀ x {ts us}, Twins ts us → Alike (k (x, ts)) (k' (x, us))) :
    Alike (r >>= k) (r' >>= k') := by
  cases h with
  | ok x h => exact hk x h
  | error h => exact .error h

/-- What is made of an expression that was read is alike too. -/
theorem ReadsAlike.map {read read' : List Token → Except ReadFault (Expr × List Token)}
    (h : ReadsAlike read read') (f : Expr → Expr) :
    ReadsAlike (fun ts => read ts >>= fun r => .ok (f r.1, r.2))
      (fun us => read' us >>= fun r => .ok (f r.1, r.2)) :=
  fun _ _ h' => (h h').bind fun _ _ _ h => .ok _ h

/-- Steps that go on alike with an expression. -/
inductive AlikeStep : Option (Except ReadFault (Expr × List Token)) →
    Option (Except ReadFault (Expr × List Token)) → Prop
  | none : AlikeStep none none
  | some {r r' : Except ReadFault (Expr × List Token)} (h : Alike r r') : AlikeStep (some r) (some r')

/-- Twins are gone on with alike. -/
def StepsAlike (step step' : Expr → List Token → Option (Except ReadFault (Expr × List Token))) :
    Prop :=
  ∀ x ⦃ts us : List Token⦄, Twins ts us → AlikeStep (step x ts) (step' x us)

namespace Expr

/-! ### Steps -/

section Steps

variable {read read' power power' : List Token → Except ReadFault (Expr × List Token)}

theorem alike_extend {step step' : Expr → List Token → Option (Except ReadFault (Expr × List Token))}
    (hs : StepsAlike step step') :
    ∀ (bound : Nat) (x : Expr) {ts us : List Token}, Twins ts us →
      Alike (extend step bound x ts) (extend step' bound x us)
  | 0, x, _, _, h => .ok x h
  | bound + 1, x, ts, us, h => by
    have hstep := hs x h
    unfold extend
    generalize step x ts = s, step' x us = s' at hstep
    cases hstep with
    | none => exact .ok x h
    | some hr => exact hr.bind fun y _ _ h => alike_extend hs bound y h

theorem stepsAlike_sum (hr : ReadsAlike read read') :
    StepsAlike (sumStep read) (sumStep read') := by
  intro x ts us h
  cases h with
  | nil => exact .none
  | @cons symbol _ _ _ _ _ _ _ h =>
    cases symbol with
    | operator o =>
      cases o with
      | plus => exact .some ((hr h).bind fun y _ _ h => .ok _ h)
      | minus => exact .some ((hr h).bind fun y _ _ h => .ok _ h)
      | _ => exact .none
    | _ => exact .none

theorem stepsAlike_term (hr : ReadsAlike read read') (hp : ReadsAlike power power') :
    StepsAlike (termStep read power) (termStep read' power') := by
  intro x ts us h
  cases h with
  | nil => exact .none
  | @cons symbol p p' a a' _ _ ha h =>
    -- A number after a number is a fault in both rows, and before other factors both go on.
    have hpower := hp.map (binary .multiply x)
    cases symbol with
    | operator o =>
      cases o with
      | times => exact .some ((hr h).bind fun y _ _ h => .ok _ h)
      | divide => exact .some ((hr h).bind fun y _ _ h => .ok _ h)
      | _ => exact .none
    | number literal =>
      obtain rfl : a = a' := by simpa [Symbol.isNumber] using ha
      cases a with
      | true => exact .some (.error rfl)
      | false => exact .some (hpower (.cons ha h))
    | closing | comma | unknown => exact .none
    | _ => exact .some (hpower (.cons ha h))

theorem stepsAlike_postfix : StepsAlike postfixStep postfixStep := by
  intro x ts us h
  cases h with
  | nil => exact .none
  | @cons symbol _ _ _ _ _ _ _ h =>
    cases symbol with
    | operator o =>
      cases o with
      | bang => exact .some (.ok _ h)
      | _ => exact .none
    | _ => exact .none

end Steps

/-! ### Brackets -/

section Closing

variable {stop stop' : Nat} {ts us : List Token}

theorem code_blockedAt (h : Twins ts us) {obstacle obstacle' : Obstacle}
    (hc : obstacle.code = obstacle'.code) :
    (blockedAt stop obstacle ts).code = (blockedAt stop' obstacle' us).code := by
  cases h <;> exact hc

/-- A group is closed in both rows or in none. -/
theorem alike_expectClosing (b : Bracket) (opened opened' : Nat) (x : Expr) (h : Twins ts us) :
    Alike (do let rest ← expectClosing stop b opened ts; .ok (x, rest))
      (do let rest ← expectClosing stop' b opened' us; .ok (x, rest)) := by
  have hfault : (blockedAt stop (.missingClosing b opened) ts).code =
      (blockedAt stop' (.missingClosing b opened') us).code := code_blockedAt h rfl
  cases h with
  | nil => exact .error hfault
  | @cons symbol p p' a a' _ _ ha h =>
    unfold expectClosing
    by_cases hs : symbol = .closing b
    · simp only [hs, if_true]
      exact .ok x h
    · simp only [hs, if_false]
      exact .error hfault

end Closing

theorem isNegativeExponent_eq {ts us : List Token} (h : Twins ts us) :
    isNegativeExponent ts = isNegativeExponent us := by
  cases h with
  | nil => rfl
  | @cons _ _ _ _ _ _ _ _ h =>
    cases h with
    | nil => rfl
    | @cons symbol _ _ _ _ _ _ _ h =>
      cases h with
      | nil => cases symbol with
        | operator o => cases o <;> rfl
        | _ => rfl
      | @cons next _ _ _ _ _ _ _ _ =>
        cases symbol with
        | operator o => cases o <;> rfl
        | opening b => cases next with
          | operator o => cases o <;> rfl
          | _ => rfl
        | _ => rfl

/-! ### The functions of the parser -/

/-- All functions of the parser read alike, in texts of any two lengths. -/
structure AlikeAll (stop stop' calls : Nat) : Prop where
  sum : ReadsAlike (sum stop calls) (sum stop' calls)
  term : ReadsAlike (term stop calls) (term stop' calls)
  signed : ReadsAlike (signed stop calls) (signed stop' calls)
  raised : ReadsAlike (raised stop calls) (raised stop' calls)
  postfixed : ReadsAlike (postfixed stop calls) (postfixed stop' calls)
  factor : ReadsAlike (factor stop calls) (factor stop' calls)
  worded (w) : ReadsAlike (worded stop calls w) (worded stop' calls w)
  argument (w) : ReadsAlike (argument stop calls w) (argument stop' calls w)
  requiredGroup (b w) : ReadsAlike (requiredGroup stop calls b w) (requiredGroup stop' calls b w)
  group : ReadsAlike (group stop calls) (group stop' calls)

section Functions

variable {stop stop' calls : Nat}

theorem AlikeAll.zero : AlikeAll stop stop' 0 := by
  constructor
  all_goals intros
  all_goals exact fun _ _ _ => .error rfl

variable (ih : AlikeAll stop stop' calls) {ts us : List Token}

include ih

theorem AlikeAll.succ_sum : ReadsAlike (Expr.sum stop (calls + 1)) (Expr.sum stop' (calls + 1)) := by
  intro ts us h
  refine (ih.term h).bind fun x ts us h => ?_
  show Alike (extend _ ts.length x ts) (extend _ us.length x us)
  rw [h.length_eq]
  exact alike_extend (stepsAlike_sum ih.term) _ x h

theorem AlikeAll.succ_term :
    ReadsAlike (Expr.term stop (calls + 1)) (Expr.term stop' (calls + 1)) := by
  intro ts us h
  refine (ih.signed h).bind fun x ts us h => ?_
  show Alike (extend _ ts.length x ts) (extend _ us.length x us)
  rw [h.length_eq]
  exact alike_extend (stepsAlike_term ih.signed ih.raised) _ x h

theorem AlikeAll.succ_signed :
    ReadsAlike (Expr.signed stop (calls + 1)) (Expr.signed stop' (calls + 1)) := by
  intro ts us h
  cases h with
  | nil => exact ih.raised .nil
  | @cons symbol _ _ _ _ _ _ ha h =>
    cases symbol with
    | operator o =>
      cases o with
      | plus => exact ih.signed h
      | minus => exact (ih.signed h).bind fun x _ _ h => .ok _ h
      | _ => exact ih.raised (.cons ha h)
    | _ => exact ih.raised (.cons ha h)

theorem AlikeAll.succ_raised :
    ReadsAlike (Expr.raised stop (calls + 1)) (Expr.raised stop' (calls + 1)) := by
  intro ts us h
  refine (ih.postfixed h).bind fun x ts us h => ?_
  cases h with
  | nil => exact .ok x .nil
  | @cons symbol _ _ _ _ _ _ ha h =>
    cases symbol with
    | operator o =>
      cases o with
      | caret => exact (ih.signed h).bind fun y _ _ h => .ok _ h
      | _ => exact .ok x (.cons ha h)
    | _ => exact .ok x (.cons ha h)

theorem AlikeAll.succ_postfixed :
    ReadsAlike (Expr.postfixed stop (calls + 1)) (Expr.postfixed stop' (calls + 1)) := by
  intro ts us h
  refine (ih.factor h).bind fun x ts us h => ?_
  show Alike (extend _ ts.length x ts) (extend _ us.length x us)
  rw [h.length_eq]
  exact alike_extend stepsAlike_postfix _ x h

theorem AlikeAll.succ_factor :
    ReadsAlike (Expr.factor stop (calls + 1)) (Expr.factor stop' (calls + 1)) := by
  intro ts us h
  cases h with
  | nil => exact .error rfl
  | @cons symbol _ _ _ _ _ _ ha h =>
    cases symbol with
    | number literal => exact .ok _ h
    | opening b => exact ih.group (.cons ha h)
    | word w => exact ih.worded w h
    | _ => exact .error rfl

theorem AlikeAll.succ_argument (w : Word) :
    ReadsAlike (Expr.argument stop (calls + 1) w) (Expr.argument stop' (calls + 1) w) := by
  intro ts us h
  have hnegative := isNegativeExponent_eq h
  cases h with
  | nil => exact .error rfl
  | @cons symbol p p' a a' ts us ha h =>
    cases symbol with
    | operator o =>
      cases o with
      | caret =>
        simp only [Expr.argument, hnegative]
        split <;> exact .error rfl
      | _ => exact ih.signed (.cons ha h)
    | opening b => exact ih.group (.cons ha h)
    | _ => exact ih.signed (.cons ha h)

theorem AlikeAll.succ_requiredGroup (b : Bracket) (w : Word) :
    ReadsAlike (Expr.requiredGroup stop (calls + 1) b w)
      (Expr.requiredGroup stop' (calls + 1) b w) := by
  intro ts us h
  cases h with
  | nil => exact .error rfl
  | @cons symbol p p' a a' ts us ha h =>
    cases symbol with
    | opening b' =>
      simp only [Expr.requiredGroup]
      split
      · exact .error rfl
      · exact ih.group (.cons ha h)
    | _ => exact .error rfl

theorem AlikeAll.succ_group :
    ReadsAlike (Expr.group stop (calls + 1)) (Expr.group stop' (calls + 1)) := by
  intro ts us h
  cases h with
  | nil => exact .error rfl
  | @cons symbol p p' _ _ _ _ ha h =>
    cases symbol with
    | opening b => exact (ih.sum h).bind fun x _ _ h => alike_expectClosing b p p' x h
    | _ => exact .error rfl

/-- A logarithm may have its base behind a comma. -/
theorem AlikeAll.alike_log (h : Twins ts us) : Alike (Expr.worded stop (calls + 1) (.unary .log) ts)
    (Expr.worded stop' (calls + 1) (.unary .log) us) := by
  have hplain := (ih.argument (.unary .log)).map (call .log)
  cases h with
  | nil => exact hplain .nil
  | @cons symbol p p' a a' ts us ha h =>
    cases symbol with
    | opening b =>
      cases b with
      | round =>
        refine (ih.sum h).bind fun x ts us h => ?_
        cases h with
        | nil => exact alike_expectClosing .round p p' _ .nil
        | @cons symbol q q' _ _ _ _ ha h =>
          cases symbol with
          | comma =>
            exact (ih.sum h).bind fun base _ _ h => alike_expectClosing .round p p' _ h
          | _ => exact alike_expectClosing .round p p' _ (.cons ha h)
      | _ => exact hplain (.cons ha h)
    | _ => exact hplain (.cons ha h)

theorem AlikeAll.succ_worded (w : Word) :
    ReadsAlike (Expr.worded stop (calls + 1) w) (Expr.worded stop' (calls + 1) w) := by
  intro ts us h
  cases w with
  | constant c => exact .ok _ h
  | fraction =>
    exact (ih.requiredGroup _ _ h).bind fun x _ _ h =>
      (ih.requiredGroup _ _ h).bind fun y _ _ h => .ok _ h
  | absolute => exact (ih.argument _ h).bind fun x _ _ h => .ok _ h
  | binary f =>
    exact (ih.requiredGroup _ _ h).bind fun x _ _ h =>
      (ih.argument _ h).bind fun y _ _ h => .ok _ h
  | unary f =>
    cases f with
    | log => exact ih.alike_log h
    | _ => exact (ih.argument _ h).bind fun x _ _ h => .ok _ h

omit ih in
theorem alikeAll (stop stop' : Nat) : ∀ calls, AlikeAll stop stop' calls
  | 0 => .zero
  | calls + 1 =>
    have ih := alikeAll stop stop' calls
    ⟨ih.succ_sum, ih.succ_term, ih.succ_signed, ih.succ_raised, ih.succ_postfixed, ih.succ_factor,
      ih.succ_worded, ih.succ_argument, ih.succ_requiredGroup, ih.succ_group⟩

end Functions

/-- The same expression, or faults with the same code. -/
def SameReading (r r' : Except ReadFault Expr) : Prop :=
  (∃ x, r = .ok x ∧ r' = .ok x) ∨ ∃ f g, r = .error f ∧ r' = .error g ∧ f.code = g.code

/-- Tokens with the same shapes make up the same expression, or fail with the same code, in
whatever texts they stand. -/
theorem sameReading_ofTokensWithin (calls : Nat) (text text' : Text) {ts us : List Token}
    (h : Twins ts us) :
    SameReading (ofTokensWithin calls text ts) (ofTokensWithin calls text' us) := by
  have hsum := (alikeAll text.length text'.length calls).sum h
  unfold ofTokensWithin
  cases h with
  | nil => exact .inr ⟨_, _, rfl, rfl, rfl⟩
  | cons ha h =>
    simp only [List.isEmpty_cons, Bool.false_eq_true, if_false]
    generalize sum text.length calls _ = r, sum text'.length calls _ = r' at hsum
    cases hsum with
    | error h => exact .inr ⟨_, _, rfl, rfl, h⟩
    | ok x h =>
      cases h with
      | nil => exact .inl ⟨x, rfl, rfl⟩
      | cons => exact .inr ⟨_, _, rfl, rfl, rfl⟩

end Expr
end NumericAnswer
