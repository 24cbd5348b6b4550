/-
# How deep the parser goes

Each function of the parser calls functions of a lower rank on the same tokens,
or any of them on fewer tokens. So there is a number of calls, at most seven for
each token and seven more, from which on the parser gives one and the same
result: the fault that too many calls nest is gone. What is read is taken from
the front of the tokens, at least one of them, and has no more levels than it has
tokens.

Key definitions: `Expr.limited`, `Expr.Concludes`, `Expr.Advances`,
`Expr.Reader`, `Expr.Reader.measure`.
Key theorems: `Expr.Concludes.bind`, `Expr.concludes_extend`,
`Expr.ConcludesTo.fewer`, `Expr.ConcludesTo.lower`, `Expr.Reader.concludes`,
`Expr.Reader.progress`.
-/
import NumericAnswer.Proofs.Reading

namespace NumericAnswer
namespace Expr

/-! ### Results that need a number of calls -/

section Limited

variable {α β : Type}

/-- A result that takes `depth` nested calls, where `calls` may nest. -/
def limited (depth calls : Nat) (r : Except ReadFault α) : Except ReadFault α :=
  if calls < depth then .error .nestedTooDeeply else r

theorem limited_zero (calls : Nat) (r : Except ReadFault α) : limited 0 calls r = r :=
  if_neg (Nat.not_lt_zero calls)

theorem limited_succ (depth calls : Nat) (r : Except ReadFault α) :
    limited (depth + 1) (calls + 1) r = limited depth calls r := by
  simp only [limited, Nat.add_lt_add_iff_right]

theorem limited_bind (depth calls : Nat) (r : Except ReadFault α)
    (next : α → Except ReadFault β) :
    (limited depth calls r >>= next) = limited depth calls (r >>= next) := by
  unfold limited
  split <;> rfl

theorem limited_limited (depth depth' calls : Nat) (r : Except ReadFault α) :
    limited depth calls (limited depth' calls r) = limited (max depth depth') calls r := by
  by_cases h : calls < depth
  · rw [limited, if_pos h, limited, if_pos (by omega)]
  · by_cases h' : calls < depth'
    · rw [limited, if_neg h, limited, if_pos h', limited, if_pos (by omega)]
    · rw [limited, if_neg h, limited, if_neg h', limited, if_neg (by omega)]

/-- Within enough calls, and `bound` are enough, the function gives one and the
same result, which is no fault of nesting and has the property `P`. -/
def Concludes (bound : Nat) (P : α → Prop) (read : Nat → Except ReadFault α) : Prop :=
  ∃ depth ≤ bound, ∃ r, (∀ calls, read calls = limited depth calls r) ∧
    r ≠ .error .nestedTooDeeply ∧ ∀ x, r = .ok x → P x

end Limited

namespace Concludes

variable {α β : Type} {bound bound' : Nat} {P Q : α → Prop} {R : β → Prop}
  {read read' : Nat → Except ReadFault α} {next : Nat → α → Except ReadFault β}

theorem ok {x : α} (h : P x) : Concludes bound P fun _ => .ok x :=
  ⟨0, Nat.zero_le _, .ok x, fun calls => (limited_zero calls _).symm, by simp, fun _ hx =>
    Except.ok.inj hx ▸ h⟩

theorem error {f : ReadFault} (h : f ≠ .nestedTooDeeply) : Concludes bound P fun _ => .error f :=
  ⟨0, Nat.zero_le _, .error f, fun calls => (limited_zero calls _).symm, by simpa using h, fun _ hx =>
    by cases hx⟩

theorem mono (h : Concludes bound P read) (hle : bound ≤ bound') (hPQ : ∀ x, P x → Q x) :
    Concludes bound' Q read := by
  obtain ⟨depth, hdepth, r, hr, hne, hP⟩ := h
  exact ⟨depth, Nat.le_trans hdepth hle, r, hr, hne, fun x hx => hPQ x (hP x hx)⟩

theorem congr (h : Concludes bound P read') (heq : ∀ calls, read calls = read' calls) :
    Concludes bound P read := by
  obtain rfl : read = read' := funext heq
  exact h

/-- One more call around a function. -/
theorem call (h : Concludes bound P fun calls => read (calls + 1))
    (hzero : read 0 = .error .nestedTooDeeply) : Concludes (bound + 1) P read := by
  obtain ⟨depth, hdepth, r, hr, hne, hP⟩ := h
  refine ⟨depth + 1, Nat.succ_le_succ hdepth, r, fun calls => ?_, hne, hP⟩
  cases calls with
  | zero => rw [hzero, limited, if_pos (Nat.zero_lt_succ depth)]
  | succ calls => exact (hr calls).trans (limited_succ depth calls r).symm

/-- Of two functions, one after the other, the one that nests deeper counts. -/
theorem bind (h : Concludes bound P read)
    (hn : ∀ x, P x → Concludes bound R fun calls => next calls x) :
    Concludes bound R fun calls => read calls >>= next calls := by
  obtain ⟨depth, hdepth, r, hr, hne, hP⟩ := h
  cases r with
  | error f =>
    refine ⟨depth, hdepth, .error f, fun calls => ?_, by simpa using hne, fun _ hx => by cases hx⟩
    show (read calls >>= next calls) = _
    rw [hr, limited_bind]
    rfl
  | ok x =>
    obtain ⟨depth', hdepth', r', hr', hne', hR⟩ := hn x (hP x rfl)
    refine ⟨max depth depth', Nat.max_le.mpr ⟨hdepth, hdepth'⟩, r', fun calls => ?_, hne', hR⟩
    show (read calls >>= next calls) = _
    rw [hr, limited_bind, ← limited_limited, ← hr']
    rfl

theorem ne_nestedTooDeeply (h : Concludes bound P read) {calls : Nat} (hle : bound ≤ calls) :
    read calls ≠ .error .nestedTooDeeply := by
  obtain ⟨depth, hdepth, r, hr, hne, _⟩ := h
  rw [hr, limited, if_neg (by omega)]
  exact hne

end Concludes

/-! ### Tokens used up -/

/-- At least one of the tokens is used up, at the front of them, none is put
back, and the expression has no more levels than tokens are used up. -/
def Advances (ts : List Token) (result : Expr × List Token) : Prop :=
  ∃ used, used ≠ [] ∧ ts = used ++ result.2 ∧ result.1.depth ≤ used.length

namespace Advances

variable {token : Token} {ts us : List Token} {x y z : Expr} {rest rest' : List Token}

theorem length_lt (h : Advances ts (x, rest)) : rest.length < ts.length := by
  obtain ⟨used, hne, rfl, _⟩ := h
  have := List.length_pos_iff.mpr hne
  simp only [List.length_append]
  omega

theorem one (token : Token) (hx : x.depth ≤ 1) : Advances (token :: rest) (x, rest) :=
  ⟨[token], List.cons_ne_nil _ _, rfl, hx⟩

/-- A token in front of what is read, which adds a level at most. -/
theorem cons (h : Advances ts (x, rest)) (hy : y.depth ≤ x.depth + 1) :
    Advances (token :: ts) (y, rest) := by
  obtain ⟨used, _, rfl, hx⟩ := h
  refine ⟨token :: used, List.cons_ne_nil _ _, rfl, ?_⟩
  simp only [List.length_cons] at hx ⊢
  omega

/-- A token after what is read, which adds a level at most. -/
theorem snoc (h : Advances ts (x, token :: rest)) (hy : y.depth ≤ x.depth + 1) :
    Advances ts (y, rest) := by
  obtain ⟨used, _, rfl, hx⟩ := h
  refine ⟨used ++ [token], by simp, by simp, ?_⟩
  simp only [List.length_append, List.length_singleton] at hx ⊢
  omega

/-- Two parts, one level above the higher one of them. -/
theorem append (hx : Advances ts (x, us)) (hy : Advances us (y, rest))
    (hz : z.depth ≤ max x.depth y.depth + 1) : Advances ts (z, rest) := by
  obtain ⟨used, hne, rfl, hdepth⟩ := hx
  obtain ⟨used', hne', rfl, hdepth'⟩ := hy
  refine ⟨used ++ used', by simp [hne], by simp, ?_⟩
  have := List.length_pos_iff.mpr hne
  have := List.length_pos_iff.mpr hne'
  simp only [List.length_append] at hdepth hdepth' ⊢
  omega

/-- Two parts with a sign between them, one level above the higher one of them. -/
theorem joined (hx : Advances ts (x, token :: us)) (hy : Advances us (y, rest))
    (hz : z.depth ≤ max x.depth y.depth + 1) : Advances ts (z, rest) := by
  obtain ⟨used, hne, rfl, hdepth⟩ := hx
  obtain ⟨used', hne', rfl, hdepth'⟩ := hy
  refine ⟨used ++ token :: used', by simp, by simp, ?_⟩
  have := List.length_pos_iff.mpr hne
  simp only [List.length_append, List.length_cons] at hdepth hdepth' ⊢
  omega

end Advances

/-! ### Loops -/

/-- A step of a loop ends the loop or goes on to an expression with more tokens. -/
inductive StepConcludes (bound : Nat) (P : Expr × List Token → Prop) :
    (Nat → Option (Except ReadFault (Expr × List Token))) → Prop where
  | stop {step} (h : ∀ calls, step calls = none) : StepConcludes bound P step
  | go_on {step read} (h : ∀ calls, step calls = some (read calls)) (hr : Concludes bound P read) :
      StepConcludes bound P step

/-- A loop concludes if its steps do. -/
theorem concludes_extend {bound : Nat} {P : Expr × List Token → Prop}
    {step : Nat → Expr → List Token → Option (Except ReadFault (Expr × List Token))}
    (hstep : ∀ x ts, P (x, ts) → StepConcludes bound P fun calls => step calls x ts) :
    ∀ (rounds : Nat) (x : Expr) (ts : List Token), P (x, ts) →
      Concludes bound P fun calls => extend (step calls) rounds x ts
  | 0, _, _, h => .ok h
  | rounds + 1, x, ts, h => by
    simp only [extend]
    cases hstep x ts h with
    | stop hnone => exact (Concludes.ok h).congr fun calls => by rw [hnone]
    | go_on hsome hr =>
      refine (hr.bind fun p hp => ?_).congr fun calls => by rw [hsome]
      exact concludes_extend hstep rounds p.1 p.2 hp

section Steps

variable {bound : Nat} {ts : List Token} {x : Expr} {token : Token} {us : List Token}
  {read read' : Nat → List Token → Except ReadFault (Expr × List Token)}

/-- An operand after a sign. -/
theorem concludes_operand (o : BinaryOperator) (h : Advances ts (x, token :: us))
    (hr : Concludes bound (Advances us) fun calls => read calls us) :
    Concludes bound (Advances ts) fun calls =>
      (do let (y, rest) ← read calls us; .ok (binary o x y, rest)) :=
  hr.bind fun _ hy => .ok (h.joined hy (Nat.le_refl _))

theorem concludes_sumStep
    (hr : ∀ us, us.length < ts.length → Concludes bound (Advances us) fun calls => read calls us)
    (x : Expr) (us : List Token) (h : Advances ts (x, us)) :
    StepConcludes bound (Advances ts) fun calls => sumStep (read calls) x us := by
  by_cases hplus : ∃ position afterNumber vs, us = ⟨.operator .plus, position, afterNumber⟩ :: vs
  · obtain ⟨position, afterNumber, vs, rfl⟩ := hplus
    have hlt : vs.length < ts.length := Nat.lt_of_succ_lt h.length_lt
    exact .go_on (fun _ => rfl) (concludes_operand .add h (hr vs hlt))
  · by_cases hminus : ∃ position afterNumber vs, us = ⟨.operator .minus, position, afterNumber⟩ :: vs
    · obtain ⟨position, afterNumber, vs, rfl⟩ := hminus
      have hlt : vs.length < ts.length := Nat.lt_of_succ_lt h.length_lt
      exact .go_on (fun _ => rfl) (concludes_operand .subtract h (hr vs hlt))
    · refine .stop fun calls => ?_
      unfold sumStep
      split
      · exact absurd ⟨_, _, _, rfl⟩ hplus
      · exact absurd ⟨_, _, _, rfl⟩ hminus
      · rfl

theorem concludes_termStep
    (hr : ∀ us, us.length < ts.length → Concludes bound (Advances us) fun calls => read calls us)
    (hr' : ∀ us, us.length < ts.length → Concludes bound (Advances us) fun calls => read' calls us)
    (x : Expr) (us : List Token) (h : Advances ts (x, us)) :
    StepConcludes bound (Advances ts) fun calls => termStep (read calls) (read' calls) x us := by
  cases us with
  | nil => exact .stop fun _ => rfl
  | cons token vs =>
    have hlt : vs.length < ts.length := Nat.lt_of_succ_lt h.length_lt
    by_cases htimes : token.symbol = .operator .times
    · exact .go_on (fun _ => by simp only [termStep, htimes])
        (concludes_operand .multiply h (hr vs hlt))
    by_cases hdivide : token.symbol = .operator .divide
    · exact .go_on (fun _ => by simp only [termStep, hdivide])
        (concludes_operand .divide h (hr vs hlt))
    have hother : ∀ calls, termStep (read calls) (read' calls) x (token :: vs) =
        if !token.symbol.startsOperand then none
        else if token.symbol.isNumber && token.afterNumber then
          some (.error (.blocked .adjacentNumbers token.position))
        else some (do let (y, rest) ← read' calls (token :: vs); .ok (binary .multiply x y, rest)) := by
      intro calls
      simp only [termStep]
    simp only [hother]
    by_cases hstart : token.symbol.startsOperand = true
    · by_cases hadjacent : (token.symbol.isNumber && token.afterNumber) = true
      · exact .go_on (fun _ => by simp [hstart, hadjacent]; rfl) (.error (by simp))
      · refine .go_on (fun _ => by simp [hstart, hadjacent]; rfl)
          ((hr' (token :: vs) h.length_lt).bind fun _ hy => ?_)
        exact .ok (h.append hy (Nat.le_refl _))
    · exact .stop fun _ => by simp [hstart]

theorem concludes_postfixStep (x : Expr) (us : List Token) (h : Advances ts (x, us)) :
    StepConcludes bound (Advances ts) fun _ => postfixStep x us := by
  by_cases hbang : ∃ position afterNumber vs, us = ⟨.operator .bang, position, afterNumber⟩ :: vs
  · obtain ⟨position, afterNumber, vs, rfl⟩ := hbang
    exact .go_on (fun _ => rfl) (.ok (h.snoc (Nat.le_refl _)))
  · refine .stop fun _ => ?_
    unfold postfixStep
    split
    · exact absurd ⟨_, _, _, rfl⟩ hbang
    · rfl

end Steps

/-! ### The functions of the parser -/

/-- The functions of the parser. A word is read together with its name, the token
before the arguments. -/
inductive Reader where
  | sum | term | signed | raised | postfixed | factor
  | worded (name : Token) (w : Word)
  | argument (w : Word)
  | requiredGroup (bracket : Bracket) (w : Word)
  | group

namespace Reader

/-- What the function reads of tokens in a text of length `stop`. -/
def read (stop calls : Nat) : Reader → List Token → Except ReadFault (Expr × List Token)
  | sum, ts => Expr.sum stop calls ts
  | term, ts => Expr.term stop calls ts
  | signed, ts => Expr.signed stop calls ts
  | raised, ts => Expr.raised stop calls ts
  | postfixed, ts => Expr.postfixed stop calls ts
  | factor, ts => Expr.factor stop calls ts
  | worded _ w, ts => Expr.worded stop calls w ts
  | argument w, ts => Expr.argument stop calls w ts
  | requiredGroup bracket w, ts => Expr.requiredGroup stop calls bracket w ts
  | group, ts => Expr.group stop calls ts

/-- All the tokens that the function uses: those that it is given and, in front of
them, the name that it is called for. -/
def stream : Reader → List Token → List Token
  | worded name _, ts => name :: ts
  | _, ts => ts

/-- A function calls functions of a lower rank on the same tokens. -/
def rank : Reader → Nat
  | worded _ _ | group => 1
  | requiredGroup _ _ | factor => 2
  | postfixed => 3
  | raised => 4
  | signed => 5
  | term | argument _ => 6
  | sum => 7

/-- What gets smaller from a call to the calls inside it. -/
def measure (f : Reader) (ts : List Token) : Nat :=
  7 * (f.stream ts).length + f.rank

theorem rank_le (f : Reader) : f.rank ≤ 7 := by
  cases f <;> simp [rank]

theorem rank_pos (f : Reader) : 0 < f.rank := by
  cases f <;> simp [rank]

end Reader

theorem blockedAt_ne (stop : Nat) (obstacle : Obstacle) (ts : List Token) :
    blockedAt stop obstacle ts ≠ .nestedTooDeeply := by
  cases ts <;> simp [blockedAt]

/-- A closing bracket after what is read. -/
theorem concludes_closing {bound : Nat} {ts after : List Token} {x : Expr} (stop : Nat) (b : Bracket)
    (opened : Nat) (h : Advances ts (x, after)) : Concludes bound (Advances ts) fun _ =>
      (do let rest ← expectClosing stop b opened after; .ok (x, rest)) := by
  unfold expectClosing
  cases after with
  | nil => exact .error (blockedAt_ne _ _ _)
  | cons token after =>
    by_cases hs : token.symbol = .closing b
    · simp only [hs, if_true]
      exact .ok (h.snoc (Nat.le_succ _))
    · simp only [hs, if_false]
      exact .error (blockedAt_ne _ _ _)

/-- The functions whose measure is at most `bound` conclude within so many calls. -/
def ConcludesTo (stop bound : Nat) : Prop :=
  ∀ (f : Reader) (ts : List Token), f.measure ts ≤ bound →
    Concludes bound (Advances (f.stream ts)) fun calls => f.read stop calls ts

namespace ConcludesTo

variable {stop bound : Nat} {f g : Reader} {ts us : List Token} (ih : ConcludesTo stop bound)
include ih

/-- A call of any function on fewer tokens. -/
theorem fewer (h : f.measure ts ≤ bound + 1) (hlt : (g.stream us).length < (f.stream ts).length) :
    Concludes bound (Advances (g.stream us)) fun calls => g.read stop calls us := by
  have hrank := g.rank_le
  have hpos : 0 < f.rank := f.rank_pos
  simp only [Reader.measure] at h
  refine ih g us ?_
  simp only [Reader.measure]
  omega

/-- A call of a function of a lower rank on the same tokens. -/
theorem lower (h : f.measure ts ≤ bound + 1) (hle : (g.stream us).length ≤ (f.stream ts).length)
    (hrank : g.rank < f.rank) :
    Concludes bound (Advances (g.stream us)) fun calls => g.read stop calls us := by
  simp only [Reader.measure] at h
  refine ih g us ?_
  simp only [Reader.measure]
  omega

end ConcludesTo

section Functions

variable {stop bound : Nat} {ts : List Token} (ih : ConcludesTo stop bound)
include ih

theorem concludes_sum (h : Reader.sum.measure ts ≤ bound + 1) :
    Concludes (bound + 1) (Advances ts) fun calls => sum stop calls ts := by
  have hterm : ∀ us : List Token, us.length ≤ ts.length →
      Concludes bound (Advances us) fun calls => term stop calls us := fun us hus =>
    ih.lower (g := .term) h hus (by simp [Reader.rank])
  refine .call ?_ rfl
  simp only [sum]
  refine (hterm ts (Nat.le_refl _)).bind fun p hp => ?_
  exact concludes_extend (concludes_sumStep fun us hus => hterm us (Nat.le_of_lt hus)) _ _ _ hp

theorem concludes_term (h : Reader.term.measure ts ≤ bound + 1) :
    Concludes (bound + 1) (Advances ts) fun calls => term stop calls ts := by
  have hsigned : ∀ us : List Token, us.length ≤ ts.length →
      Concludes bound (Advances us) fun calls => signed stop calls us := fun us hus =>
    ih.lower (g := .signed) h hus (by simp [Reader.rank])
  have hraised : ∀ us : List Token, us.length < ts.length →
      Concludes bound (Advances us) fun calls => raised stop calls us := fun us hus =>
    ih.fewer (g := .raised) h hus
  refine .call ?_ rfl
  simp only [term]
  refine (hsigned ts (Nat.le_refl _)).bind fun p hp => ?_
  exact concludes_extend
    (concludes_termStep (fun us hus => hsigned us (Nat.le_of_lt hus)) hraised) _ _ _ hp

theorem concludes_signed (h : Reader.signed.measure ts ≤ bound + 1) :
    Concludes (bound + 1) (Advances ts) fun calls => signed stop calls ts := by
  refine .call ?_ rfl
  simp only [signed]
  have hsigned : ∀ us : List Token, us.length < ts.length →
      Concludes bound (Advances us) fun calls => signed stop calls us := fun us hus =>
    ih.fewer (g := .signed) h hus
  have hraised : Concludes bound (Advances ts) fun calls => raised stop calls ts :=
    ih.lower (g := .raised) h (Nat.le_refl _) (by simp [Reader.rank])
  by_cases hplus : ∃ position afterNumber us, ts = ⟨.operator .plus, position, afterNumber⟩ :: us
  · obtain ⟨position, afterNumber, us, rfl⟩ := hplus
    refine (hsigned us (Nat.lt_succ_self _)).mono (Nat.le_refl _) fun p hp => ?_
    exact hp.cons (Nat.le_succ _)
  · by_cases hminus : ∃ position afterNumber us, ts = ⟨.operator .minus, position, afterNumber⟩ :: us
    · obtain ⟨position, afterNumber, us, rfl⟩ := hminus
      exact (hsigned us (Nat.lt_succ_self _)).bind fun p hp => .ok (hp.cons (Nat.le_refl _))
    · refine hraised.congr fun calls => ?_
      split
      · exact absurd ⟨_, _, _, rfl⟩ hplus
      · exact absurd ⟨_, _, _, rfl⟩ hminus
      · rfl

theorem concludes_raised (h : Reader.raised.measure ts ≤ bound + 1) :
    Concludes (bound + 1) (Advances ts) fun calls => raised stop calls ts := by
  refine .call ?_ rfl
  simp only [raised]
  have hpostfixed : Concludes bound (Advances ts) fun calls => postfixed stop calls ts :=
    ih.lower (g := .postfixed) h (Nat.le_refl _) (by simp [Reader.rank])
  have hsigned : ∀ us : List Token, us.length < ts.length →
      Concludes bound (Advances us) fun calls => signed stop calls us := fun us hus =>
    ih.fewer (g := .signed) h hus
  refine hpostfixed.bind ?_
  rintro ⟨x, rest⟩ hx
  by_cases hcaret : ∃ position afterNumber us, rest = ⟨.operator .caret, position, afterNumber⟩ :: us
  · obtain ⟨position, afterNumber, us, rfl⟩ := hcaret
    have hlt : us.length < ts.length := Nat.lt_of_succ_lt hx.length_lt
    exact (hsigned us hlt).bind fun p hp => .ok (hx.joined hp (Nat.le_refl _))
  · refine (Concludes.ok hx).congr fun calls => ?_
    split
    · next heq => exact absurd ⟨_, _, _, heq⟩ hcaret
    · rfl

theorem concludes_postfixed (h : Reader.postfixed.measure ts ≤ bound + 1) :
    Concludes (bound + 1) (Advances ts) fun calls => postfixed stop calls ts := by
  refine .call ?_ rfl
  simp only [postfixed]
  have hfactor : Concludes bound (Advances ts) fun calls => factor stop calls ts :=
    ih.lower (g := .factor) h (Nat.le_refl _) (by simp [Reader.rank])
  exact hfactor.bind fun p hp => concludes_extend concludes_postfixStep _ _ _ hp

theorem concludes_factor (h : Reader.factor.measure ts ≤ bound + 1) :
    Concludes (bound + 1) (Advances ts) fun calls => factor stop calls ts := by
  refine .call ?_ rfl
  cases ts with
  | nil => exact .error (by simp)
  | cons token us =>
    have hgroup : Concludes bound (Advances (token :: us)) fun calls =>
        group stop calls (token :: us) :=
      ih.lower (g := .group) h (Nat.le_refl _) (by simp [Reader.rank])
    have hworded : ∀ w : Word, Concludes bound (Advances (token :: us)) fun calls =>
        worded stop calls w us := fun w =>
      ih.lower (g := .worded token w) h (Nat.le_refl _) (by simp [Reader.rank])
    cases hs : token.symbol with
    | number literal =>
      simp only [factor, hs]
      exact .ok (.one token (Nat.le_refl 1))
    | opening b =>
      simp only [factor, hs]
      exact hgroup
    | word w =>
      simp only [factor, hs]
      exact hworded w
    | _ =>
      simp only [factor, hs]
      exact .error (by simp)

theorem concludes_group (h : Reader.group.measure ts ≤ bound + 1) :
    Concludes (bound + 1) (Advances ts) fun calls => group stop calls ts := by
  refine .call ?_ rfl
  simp only [group]
  by_cases hopening : ∃ b opened afterNumber us, ts = ⟨.opening b, opened, afterNumber⟩ :: us
  · obtain ⟨b, opened, afterNumber, us, rfl⟩ := hopening
    have hsum : Concludes bound (Advances us) fun calls => sum stop calls us :=
      ih.fewer (g := .sum) h (Nat.lt_succ_self _)
    exact hsum.bind fun p hp => concludes_closing _ _ _ (hp.cons (Nat.le_succ _))
  · refine (Concludes.error (blockedAt_ne stop .missingOperand ts)).congr fun calls => ?_
    split
    · exact absurd ⟨_, _, _, _, rfl⟩ hopening
    · rfl

theorem concludes_requiredGroup {b : Bracket} {w : Word}
    (h : (Reader.requiredGroup b w).measure ts ≤ bound + 1) :
    Concludes (bound + 1) (Advances ts) fun calls => requiredGroup stop calls b w ts := by
  refine .call ?_ rfl
  simp only [requiredGroup]
  have hgroup : Concludes bound (Advances ts) fun calls => group stop calls ts :=
    ih.lower (g := .group) h (Nat.le_refl _) (by simp [Reader.rank])
  have hfault : Concludes bound (Advances ts) fun _ =>
      .error (blockedAt stop (.expectedGroup b w.name) ts) := .error (blockedAt_ne _ _ _)
  by_cases hopening : ∃ b' opened afterNumber us, ts = ⟨.opening b', opened, afterNumber⟩ :: us
  · obtain ⟨b', opened, afterNumber, us, rfl⟩ := hopening
    by_cases hsquare : (b = .square && b' ≠ .square) = true
    · exact hfault.congr fun calls => if_pos hsquare
    · exact hgroup.congr fun calls => if_neg hsquare
  · refine hfault.congr fun calls => ?_
    split
    · exact absurd ⟨_, _, _, _, rfl⟩ hopening
    · rfl

theorem concludes_argument {w : Word} (h : (Reader.argument w).measure ts ≤ bound + 1) :
    Concludes (bound + 1) (Advances ts) fun calls => argument stop calls w ts := by
  refine .call ?_ rfl
  have hgroup : Concludes bound (Advances ts) fun calls => group stop calls ts :=
    ih.lower (g := .group) h (Nat.le_refl _) (by simp [Reader.rank])
  have hsigned : Concludes bound (Advances ts) fun calls => signed stop calls ts :=
    ih.lower (g := .signed) h (Nat.le_refl _) (by simp [Reader.rank])
  cases ts with
  | nil => exact .error (by simp)
  | cons token us =>
    by_cases hcaret : token.symbol = .operator .caret
    · simp only [argument, hcaret]
      by_cases hnegative : isNegativeExponent (token :: us) = true
      · simp only [hnegative, if_true]
        exact .error (by simp)
      · simp only [hnegative]
        exact .error (by simp)
    · by_cases hopening : ∃ b, token.symbol = .opening b
      · obtain ⟨b, hb⟩ := hopening
        simp only [argument, hb]
        exact hgroup
      · refine hsigned.congr fun calls => ?_
        simp only [argument]
        split
        · next hs => exact absurd hs hcaret
        · next hs => exact absurd ⟨_, hs⟩ hopening
        · rfl

/-- A word with one argument. -/
theorem concludes_applied (name : Token) (w : Word) {f : Expr → Expr}
    (hf : ∀ x, (f x).depth = x.depth + 1) (h : (Reader.worded name w).measure ts ≤ bound + 1) :
    Concludes bound (Advances (name :: ts)) fun calls =>
      (do let (x, rest) ← argument stop calls w ts; .ok (f x, rest)) := by
  have hargument : Concludes bound (Advances ts) fun calls => argument stop calls w ts :=
    ih.fewer (g := .argument w) h (Nat.lt_succ_self _)
  exact hargument.bind fun p hp => .ok (hp.cons (Nat.le_of_eq (hf p.1)))

/-- The logarithm, which takes a base after a comma. -/
theorem concludes_log (name : Token)
    (h : (Reader.worded name (.unary .log)).measure ts ≤ bound + 1) :
    Concludes bound (Advances (name :: ts)) fun calls => worded stop (calls + 1) (.unary .log) ts := by
  simp only [worded]
  by_cases hround : ∃ opened afterNumber us, ts = ⟨.opening .round, opened, afterNumber⟩ :: us
  · obtain ⟨opened, afterNumber, us, rfl⟩ := hround
    have hsum : ∀ vs : List Token, vs.length ≤ us.length →
        Concludes bound (Advances vs) fun calls => sum stop calls vs := fun vs hvs =>
      ih.fewer (g := .sum) h (Nat.lt_succ_of_le (Nat.le_succ_of_le hvs))
    refine (hsum us (Nat.le_refl _)).bind ?_
    rintro ⟨x, rest⟩ hx
    by_cases hcomma : ∃ position afterNumber vs, rest = ⟨.comma, position, afterNumber⟩ :: vs
    · obtain ⟨position, afterNumber, vs, rfl⟩ := hcomma
      have hlt : vs.length < us.length := Nat.lt_of_succ_lt hx.length_lt
      refine (hsum vs (Nat.le_of_lt hlt)).bind ?_
      rintro ⟨base, after⟩ hbase
      have hboth : Advances us (call₂ .logBase base x, after) :=
        hx.joined hbase (Nat.le_of_eq (by rw [depth, Nat.max_comm]))
      exact concludes_closing _ _ _ ((hboth.cons (Nat.le_succ _)).cons (Nat.le_succ _))
    · have hlog : Advances (name :: ⟨.opening .round, opened, afterNumber⟩ :: us) (call .log x, rest) :=
        (hx.cons (Nat.le_refl _)).cons (Nat.le_succ _)
      refine (concludes_closing stop .round opened hlog).congr fun calls => ?_
      split
      · next heq => exact absurd ⟨_, _, _, heq⟩ hcomma
      · rfl
  · refine (concludes_applied ih name (.unary .log) (f := call .log) (fun _ => rfl) h).congr
      fun calls => ?_
    split
    · exact absurd ⟨_, _, _, rfl⟩ hround
    · rfl

theorem concludes_worded {name : Token} {w : Word} (h : (Reader.worded name w).measure ts ≤ bound + 1) :
    Concludes (bound + 1) (Advances (name :: ts)) fun calls => worded stop calls w ts := by
  have hgroup : ∀ (b : Bracket) (us : List Token), us.length ≤ ts.length →
      Concludes bound (Advances us) fun calls => requiredGroup stop calls b w us := fun b us hus =>
    ih.fewer (g := .requiredGroup b w) h (Nat.lt_succ_of_le hus)
  have hargument : ∀ us : List Token, us.length ≤ ts.length →
      Concludes bound (Advances us) fun calls => argument stop calls w us := fun us hus =>
    ih.fewer (g := .argument w) h (Nat.lt_succ_of_le hus)
  refine .call ?_ rfl
  cases w with
  | constant c => exact .ok (.one name (Nat.le_refl 1))
  | fraction =>
    simp only [worded]
    refine (hgroup .curly ts (Nat.le_refl _)).bind ?_
    rintro ⟨x, rest⟩ hx
    refine (hgroup .curly rest (Nat.le_of_lt hx.length_lt)).bind ?_
    rintro ⟨y, after⟩ hy
    exact .ok ((hx.append hy (Nat.le_refl _)).cons (y := fraction x y) (Nat.le_succ _))
  | absolute => exact concludes_applied ih name .absolute (fun _ => rfl) h
  | binary f =>
    simp only [worded]
    refine (hgroup .square ts (Nat.le_refl _)).bind ?_
    rintro ⟨x, rest⟩ hx
    refine (hargument rest (Nat.le_of_lt hx.length_lt)).bind ?_
    rintro ⟨y, after⟩ hy
    exact .ok ((hx.append hy (Nat.le_refl _)).cons (y := call₂ f x y) (Nat.le_succ _))
  | unary f =>
    cases f with
    | log => exact concludes_log ih name h
    | _ => exact concludes_applied ih name _ (fun _ => rfl) h

/-- One more call may nest. -/
theorem ConcludesTo.succ : ConcludesTo stop (bound + 1) := by
  intro f ts h
  cases f with
  | sum => exact concludes_sum ih h
  | term => exact concludes_term ih h
  | signed => exact concludes_signed ih h
  | raised => exact concludes_raised ih h
  | postfixed => exact concludes_postfixed ih h
  | factor => exact concludes_factor ih h
  | worded name w => exact concludes_worded ih h
  | argument w => exact concludes_argument ih h
  | requiredGroup b w => exact concludes_requiredGroup ih h
  | group => exact concludes_group ih h

end Functions

theorem concludesTo (stop : Nat) : ∀ bound, ConcludesTo stop bound
  | 0 => by
    intro f ts h
    have hrank := f.rank_pos
    simp only [Reader.measure] at h
    omega
  | bound + 1 => (concludesTo stop bound).succ

/-! ### Whole texts -/

theorem Reader.concludes (stop : Nat) (f : Reader) (ts : List Token) :
    Concludes (7 * ((f.stream ts).length + 1)) (Advances (f.stream ts)) fun calls =>
      f.read stop calls ts := by
  refine (concludesTo stop (f.measure ts) f ts (Nat.le_refl _)).mono ?_ fun _ hp => hp
  have hrank := f.rank_le
  simp only [Reader.measure]
  omega

theorem concludes_ofTokensWithin (text : Text) (ts : List Token) :
    Concludes (7 * (ts.length + 1)) (fun x => x.depth ≤ ts.length) fun calls =>
      ofTokensWithin calls text ts := by
  unfold ofTokensWithin
  by_cases hnil : ts.isEmpty = true
  · exact (Concludes.error (f := .emptyExpression) (by simp)).congr fun _ => if_pos hnil
  · refine Concludes.congr ?_ fun _ => if_neg hnil
    refine (Reader.concludes text.length .sum ts).bind ?_
    rintro ⟨x, rest⟩ hx
    cases rest with
    | nil =>
      obtain ⟨used, _, hts, hdepth⟩ := hx
      obtain rfl : ts = used := hts.trans (List.append_nil used)
      exact .ok hdepth
    | cons token rest => exact .error (by simp)

/-- Each function of the parser takes at least one token from the front of those
it is given and puts none back. Whatever the tokens are, it comes to a result,
with no more nested calls than seven for each token and seven more, and so does
the parser; the tree has no more levels than tokens are taken. -/
theorem Reader.progress :
    (∀ (stop : Nat) (f : Reader) (ts : List Token),
      Concludes (7 * ((f.stream ts).length + 1)) (Advances (f.stream ts)) fun calls =>
        f.read stop calls ts) ∧
    ∀ (text : Text) (ts : List Token),
      Concludes (7 * (ts.length + 1)) (fun x => x.depth ≤ ts.length) fun calls =>
        ofTokensWithin calls text ts :=
  ⟨Reader.concludes, concludes_ofTokensWithin⟩

/-- Texts of at most 141 tokens do not nest too deeply. -/
theorem parse_ne_nestedTooDeeply {text : Text} {ts : List Token} (h : tokens text = .ok ts)
    (hlength : ts.length ≤ 141) : parse text ≠ .error .nestedTooDeeply := by
  have hparse : parse text = ofTokensWithin callLimit text ts := by
    unfold parse parseWithin
    rw [h]
    rfl
  rw [hparse]
  refine (concludes_ofTokensWithin text ts).ne_nestedTooDeeply ?_
  unfold callLimit
  omega

end Expr
end NumericAnswer
