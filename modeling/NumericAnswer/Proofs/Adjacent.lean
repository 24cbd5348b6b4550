/-
# Adjacent numbers

No reading of the parser takes up two numbers in a row. Its functions reach a
number from many places, but all of them stand behind a sign, a bracket, a comma
or a word, except where a factor multiplies with what stands before it, and there
a number behind a number is refused. So two adjacent numbers anywhere in the
tokens are a fault.

Key definitions: `Consecutive`, `Spaced`, `Initial`, `Resuming`, `Takes`, `TakesAll`.
Key theorems: `Expr.takesAll`, `Expr.spaced_of_parseWithin`, `Expr.parse_adjacent_numbers`.
-/
import Mathlib.Data.List.Chain
import NumericAnswer.Proofs.Partition
import NumericAnswer.Proofs.Reading

namespace NumericAnswer

/-! ### Rows of tokens -/

/-- Each token but the first one knows whether the one before it is a number. -/
def Consecutive (ts : List Token) : Prop :=
  ts.IsChain fun a b => b.afterNumber = a.symbol.isNumber

/-- No two numbers are adjacent. -/
def Spaced (ts : List Token) : Prop :=
  ts.IsChain fun a b => ¬ (a.symbol.isNumber = true ∧ b.symbol.isNumber = true)

/-- Tokens that are read from a first one on have no two adjacent numbers, if
they stand in a row. -/
def Initial (used : List Token) : Prop :=
  Consecutive used → Spaced used

/-- Tokens that may also follow others: they do not begin with a number behind a
number. -/
def Resuming (used : List Token) : Prop :=
  Initial used ∧ ∀ token ∈ used.head?, ¬ (token.symbol.isNumber = true ∧ token.afterNumber = true)

section Rows

variable {ts us : List Token} {token : Token}

theorem Consecutive.of_append (h : Consecutive (ts ++ us)) : Consecutive ts ∧ Consecutive us :=
  ⟨(List.isChain_append.mp h).1, (List.isChain_append.mp h).2.1⟩

theorem Initial.nil : Initial [] := fun _ => .nil

theorem Resuming.nil : Resuming [] := ⟨.nil, by simp⟩

/-- One token alone. -/
theorem Initial.singleton (token : Token) : Initial [token] := fun _ => .singleton token

/-- A number behind a number would begin the second part. -/
theorem Initial.append (ht : Initial ts) (hu : Resuming us) : Initial (ts ++ us) := by
  intro h
  obtain ⟨hts, hus, hjoin⟩ := List.isChain_append.mp h
  refine List.isChain_append.mpr ⟨ht hts, hu.1 hus, fun a ha b hb hnumbers => ?_⟩
  exact hu.2 b hb ⟨hnumbers.2, (hjoin a ha b hb).trans hnumbers.1⟩

theorem Resuming.append (ht : Resuming ts) (hu : Resuming us) : Resuming (ts ++ us) := by
  refine ⟨ht.1.append hu, fun token hm => ?_⟩
  cases ts with
  | nil => exact hu.2 token hm
  | cons => exact ht.2 token hm

/-- What follows a token that is no number. -/
theorem Resuming.cons (hn : token.symbol.isNumber = false) (hu : Initial us) :
    Resuming (token :: us) := by
  refine ⟨fun h => ?_, fun token' hm hnumber => ?_⟩
  · refine List.isChain_cons.mpr ⟨fun b _ hnumbers => ?_, hu (List.isChain_cons.mp h).2⟩
    exact absurd (hn.symm.trans hnumbers.1) (by decide)
  · obtain rfl := Option.some.inj hm
    exact absurd (hn.symm.trans hnumber.1) (by decide)

/-- Tokens that end before any number may follow. -/
theorem Initial.append_of_last (ht : Initial ts) (hlast : ∀ a ∈ ts.getLast?, a.symbol.isNumber = false)
    (hu : Initial us) : Initial (ts ++ us) := by
  intro h
  obtain ⟨hts, hus, _⟩ := List.isChain_append.mp h
  refine List.isChain_append.mpr ⟨ht hts, hu hus, fun a ha b _ hnumbers => ?_⟩
  exact absurd ((hlast a ha).symm.trans hnumbers.1) (by decide)

end Rows

/-- A group with its brackets, which ends before any number may follow. -/
def Enclosed (used : List Token) : Prop :=
  Initial used ∧ ∀ token ∈ used.getLast?, token.symbol.isNumber = false

theorem isNumber_of_eq {token : Token} {symbol : Symbol} (h : token.symbol = symbol)
    (hs : symbol.isNumber = false) : token.symbol.isNumber = false := by
  rw [h]
  exact hs

/-! ### What is taken up -/

/-- A reading that gives a result takes up tokens with the property `p`. -/
def Takes (p : List Token → Prop) (ts : List Token)
    (r : Except ReadFault (Expr × List Token)) : Prop :=
  ∀ x rest, r = .ok (x, rest) → ∃ used, ts = used ++ rest ∧ p used

namespace Takes

variable {p q : List Token → Prop} {ts us rest : List Token} {f : ReadFault}
  {r : Except ReadFault (Expr × List Token)}
  {next : Expr × List Token → Except ReadFault (Expr × List Token)}

theorem error (f : ReadFault) : Takes p ts (.error f) := by
  rintro x rest ⟨⟩

theorem ok (x : Expr) {used : List Token} (hts : ts = used ++ rest) (hp : p used) :
    Takes p ts (.ok (x, rest)) := by
  rintro y rest' ⟨⟩
  exact ⟨used, hts, hp⟩

theorem bind (hr : Takes q us r)
    (hn : ∀ x used rest, us = used ++ rest → q used → Takes p ts (next (x, rest))) :
    Takes p ts (r >>= next) := by
  intro x rest h
  obtain ⟨⟨y, after⟩, hy, h⟩ := exists_of_bind_ok h
  obtain ⟨used, hus, hq⟩ := hr y after hy
  exact hn y used after hus hq x rest h

/-- What is read behind tokens already read, with those. -/
theorem prepend {pre : List Token} (hts : ts = pre ++ us) (hr : Takes q us r)
    (hqp : ∀ used, q used → p (pre ++ used)) : Takes p ts r := by
  intro x rest h
  obtain ⟨used, hus, hq⟩ := hr x rest h
  exact ⟨pre ++ used, by rw [hts, hus, List.append_assoc], hqp used hq⟩

end Takes

namespace Expr

variable {stop : Nat}

theorem takes_extend {step : Expr → List Token → Option (Except ReadFault (Expr × List Token))}
    (hstep : ∀ x ts r, step x ts = some r → Takes Resuming ts r) :
    ∀ (bound : Nat) (x : Expr) (ts : List Token), Takes Resuming ts (extend step bound x ts)
  | 0, x, ts => .ok x (List.nil_append ts).symm .nil
  | bound + 1, x, ts => by
    unfold extend
    cases hs : step x ts with
    | none => exact .ok x (List.nil_append ts).symm .nil
    | some r =>
      refine (hstep x ts r hs).bind fun y used rest hts hu => ?_
      exact (takes_extend hstep bound y rest).prepend hts fun used' hu' => hu.append hu'

/-- What all functions of the parser take up, within a number of calls. -/
structure TakesAll (stop calls : Nat) : Prop where
  sum (ts) : Takes Initial ts (sum stop calls ts)
  term (ts) : Takes Initial ts (term stop calls ts)
  signed (ts) : Takes Initial ts (signed stop calls ts)
  raised (ts) : Takes Initial ts (raised stop calls ts)
  postfixed (ts) : Takes Initial ts (postfixed stop calls ts)
  factor (ts) : Takes Initial ts (factor stop calls ts)
  worded (token : Token) (w ts) (h : token.symbol = .word w) :
    Takes Initial (token :: ts) (worded stop calls w ts)
  argument (w ts) : Takes Initial ts (argument stop calls w ts)
  requiredGroup (b w ts) : Takes Enclosed ts (requiredGroup stop calls b w ts)
  group (ts) : Takes Enclosed ts (group stop calls ts)

section Steps

variable {read read' : List Token → Except ReadFault (Expr × List Token)}

/-- A token that is no number and what is read behind it. -/
theorem takes_sign {token : Token} {us : List Token} (hn : token.symbol.isNumber = false)
    (hr : Takes Initial us (read us)) (f : Expr → Expr) :
    Takes Resuming (token :: us) (do let (y, rest) ← read us; .ok (f y, rest)) := by
  refine hr.bind fun y used rest hus hu => ?_
  exact .ok _ (show _ = (token :: used) ++ rest by rw [hus]; rfl) (.cons hn hu)

theorem takes_sumStep (hr : ∀ us, Takes Initial us (read us)) (x : Expr) (ts : List Token)
    (r) (h : sumStep read x ts = some r) : Takes Resuming ts r := by
  unfold sumStep at h
  split at h
  · obtain rfl := Option.some.inj h
    exact takes_sign rfl (hr _) _
  · obtain rfl := Option.some.inj h
    exact takes_sign rfl (hr _) _
  · cases h

/-- The one place where a factor follows an operand. A number behind a number
does not get beyond it. -/
theorem takes_termStep (hr : ∀ us, Takes Initial us (read us))
    (hr' : ∀ us, Takes Initial us (read' us)) (x : Expr) (ts : List Token)
    (r) (h : termStep read read' x ts = some r) : Takes Resuming ts r := by
  unfold termStep at h
  split at h
  · cases h
  · next token ts =>
    split at h
    · next hsym =>
      obtain rfl := Option.some.inj h
      exact takes_sign (isNumber_of_eq hsym rfl) (hr _) _
    · next hsym =>
      obtain rfl := Option.some.inj h
      exact takes_sign (isNumber_of_eq hsym rfl) (hr _) _
    · split at h
      · cases h
      · split at h
        · obtain rfl := Option.some.inj h
          exact .error _
        · next hfree =>
          obtain rfl := Option.some.inj h
          refine (hr' _).bind fun y used rest hus hu => ?_
          refine .ok _ hus ⟨hu, fun token' hm => ?_⟩
          cases used with
          | nil => cases hm
          | cons token'' used =>
            obtain rfl := Option.some.inj hm
            obtain ⟨rfl, _⟩ := List.cons.inj hus
            simpa using hfree

theorem takes_postfixStep (x : Expr) (ts : List Token) (r) (h : postfixStep x ts = some r) :
    Takes Resuming ts r := by
  unfold postfixStep at h
  split at h
  · obtain rfl := Option.some.inj h
    exact .ok _ (show _ = [_] ++ _ from rfl) (.cons rfl .nil)
  · cases h

end Steps

/-- A closing bracket behind a group whose opening one and content are read. -/
theorem takes_closing {b : Bracket} {opened : Nat} {ts after pre : List Token} (x : Expr)
    (hts : ts = pre ++ after) (hp : Initial pre) :
    Takes Enclosed ts (do let rest ← expectClosing stop b opened after; .ok (x, rest)) := by
  rcases expectClosing_cases stop b opened after with ⟨token, after', ha, hs, he⟩ | ⟨f, _, he⟩
  · have hn := isNumber_of_eq hs rfl
    rw [he]
    refine .ok x (show ts = (pre ++ [token]) ++ after' by rw [hts, ha]; simp) ⟨?_, ?_⟩
    · exact hp.append (.cons hn .nil)
    · simpa using hn
  · rw [he]
    exact .error f

section Step

variable {calls : Nat} (ih : TakesAll stop calls)

include ih

theorem takes_sum (ts : List Token) : Takes Initial ts (sum stop (calls + 1) ts) := by
  unfold sum
  refine (ih.term ts).bind fun x used rest hts hu => ?_
  exact (takes_extend (takes_sumStep ih.term) _ _ _).prepend hts fun _ hv => hu.append hv

theorem takes_term (ts : List Token) : Takes Initial ts (term stop (calls + 1) ts) := by
  unfold term
  refine (ih.signed ts).bind fun x used rest hts hu => ?_
  exact (takes_extend (takes_termStep ih.signed ih.raised) _ _ _).prepend hts fun _ hv =>
    hu.append hv

theorem takes_signed (ts : List Token) : Takes Initial ts (signed stop (calls + 1) ts) := by
  unfold signed
  split
  · exact (ih.signed _).prepend (show _ = [_] ++ _ from rfl) fun _ hv => (Resuming.cons rfl hv).1
  · refine (ih.signed _).bind fun x used rest hts hu => ?_
    exact .ok _ (show _ = (_ :: used) ++ rest by rw [hts]; rfl) (Resuming.cons rfl hu).1
  · exact ih.raised _

theorem takes_raised (ts : List Token) : Takes Initial ts (raised stop (calls + 1) ts) := by
  unfold raised
  refine (ih.postfixed ts).bind fun x used rest hts hu => ?_
  simp only
  split
  · next position afterNumber rest' =>
    refine (ih.signed rest').bind fun y used' rest'' hr hv => ?_
    refine .ok _ (show ts = (used ++ ⟨.operator .caret, position, afterNumber⟩ :: used') ++ rest'' by
      rw [hts, hr, List.append_assoc]; rfl) ?_
    exact hu.append (.cons rfl hv)
  · exact .ok _ hts hu

theorem takes_postfixed (ts : List Token) : Takes Initial ts (postfixed stop (calls + 1) ts) := by
  unfold postfixed
  refine (ih.factor ts).bind fun x used rest hts hu => ?_
  exact (takes_extend takes_postfixStep _ _ _).prepend hts fun _ hv => hu.append hv

omit ih in
theorem takes_enclosed {ts : List Token} {r : Except ReadFault (Expr × List Token)}
    (h : Takes Enclosed ts r) : Takes Initial ts r := by
  intro x rest hx
  obtain ⟨used, hts, hu⟩ := h x rest hx
  exact ⟨used, hts, hu.1⟩

theorem takes_factor (ts : List Token) : Takes Initial ts (factor stop (calls + 1) ts) := by
  unfold factor
  split
  · exact .error _
  · next token rest =>
    split
    · exact .ok _ (show _ = [token] ++ rest from rfl) (.singleton token)
    · exact takes_enclosed (ih.group _)
    · next w hs => exact ih.worded token w rest hs
    · exact .error _

theorem takes_group (ts : List Token) : Takes Enclosed ts (group stop (calls + 1) ts) := by
  unfold group
  split
  · next b opened afterNumber rest =>
    refine (ih.sum rest).bind fun x used after hr hu => ?_
    exact takes_closing x (show _ = (⟨.opening b, opened, afterNumber⟩ :: used) ++ after by
      rw [hr]; rfl) (Resuming.cons rfl hu).1
  · exact .error _

theorem takes_requiredGroup (b : Bracket) (w : Word) (ts : List Token) :
    Takes Enclosed ts (requiredGroup stop (calls + 1) b w ts) := by
  unfold requiredGroup
  simp only
  split
  · split
    · exact .error _
    · exact ih.group _
  · exact .error _

theorem takes_argument (w : Word) (ts : List Token) :
    Takes Initial ts (argument stop (calls + 1) w ts) := by
  unfold argument
  split
  · exact .error _
  · split
    · split <;> exact .error _
    · exact takes_enclosed (ih.group _)
    · exact ih.signed _

/-- A word with one argument. -/
theorem takes_applied {token : Token} {w : Word} (hw : token.symbol = .word w) (ts : List Token)
    (f : Expr → Expr) : Takes Initial (token :: ts)
      (do let (x, rest) ← argument stop calls w ts; .ok (f x, rest)) := by
  intro x rest h
  obtain ⟨used, hts, hu⟩ := takes_sign (isNumber_of_eq hw rfl) (ih.argument w ts) f x rest h
  exact ⟨used, hts, hu.1⟩

omit ih in
/-- A word with two arguments, the first of them in brackets. -/
theorem takes_applied₂ {token : Token} {w : Word} (hw : token.symbol = .word w) (ts : List Token)
    {read read' : List Token → Except ReadFault (Expr × List Token)}
    (hr : ∀ us, Takes Enclosed us (read us)) (hr' : ∀ us, Takes Initial us (read' us))
    (f : Expr → Expr → Expr) : Takes Initial (token :: ts)
      (do let (x, rest) ← read ts; let (y, rest) ← read' rest; .ok (f x y, rest)) := by
  refine (hr ts).bind fun x used rest hts hu => ?_
  refine (hr' rest).bind fun y used' rest' hrest hv => ?_
  refine .ok _ (show _ = (token :: (used ++ used')) ++ rest' by rw [hts, hrest]; simp) ?_
  exact (Resuming.cons (isNumber_of_eq hw rfl) (hu.1.append_of_last hu.2 hv)).1

/-- The logarithm to the base 10 or, with a second argument, to that base. -/
theorem takes_log {token : Token} (hw : token.symbol = .word (.unary .log)) (ts : List Token) :
    Takes Initial (token :: ts) (worded stop (calls + 1) (.unary .log) ts) := by
  have hn : token.symbol.isNumber = false := isNumber_of_eq hw rfl
  unfold worded
  simp only
  split
  · next opened afterNumber rest =>
    let bracket : Token := ⟨.opening .round, opened, afterNumber⟩
    refine (ih.sum rest).bind fun x used after hr hu => ?_
    have hpre : Initial (token :: bracket :: used) :=
      (Resuming.cons hn (Resuming.cons rfl hu).1).1
    simp only
    split
    · next position afterNumber' rest' =>
      let comma : Token := ⟨.comma, position, afterNumber'⟩
      refine (ih.sum rest').bind fun y used' after' hr' hv => ?_
      refine takes_enclosed (takes_closing _
        (show _ = (token :: bracket :: used ++ comma :: used') ++ after' by
          rw [hr, hr']; simp [bracket, comma]) ?_)
      exact hpre.append (.cons rfl hv)
    · exact takes_enclosed (takes_closing _
        (show _ = (token :: bracket :: used) ++ after by rw [hr]; rfl) hpre)
  · exact takes_applied ih hw ts (call .log)

theorem takes_worded (token : Token) (w : Word) (ts : List Token) (hw : token.symbol = .word w) :
    Takes Initial (token :: ts) (worded stop (calls + 1) w ts) := by
  cases w with
  | constant c => exact .ok _ (show _ = [token] ++ ts from rfl) (.singleton token)
  | fraction =>
    exact takes_applied₂ hw ts (ih.requiredGroup .curly .fraction)
      (fun us => takes_enclosed (ih.requiredGroup .curly .fraction us)) fraction
  | absolute => exact takes_applied ih hw ts abs
  | binary f =>
    exact takes_applied₂ hw ts (ih.requiredGroup .square (.binary f)) (ih.argument (.binary f))
      (call₂ f)
  | unary f =>
    cases f with
    | log => exact takes_log ih hw ts
    | _ => exact takes_applied ih hw ts _

theorem TakesAll.succ : TakesAll stop (calls + 1) where
  sum := takes_sum ih
  term := takes_term ih
  signed := takes_signed ih
  raised := takes_raised ih
  postfixed := takes_postfixed ih
  factor := takes_factor ih
  worded := takes_worded ih
  argument := takes_argument ih
  requiredGroup := takes_requiredGroup ih
  group := takes_group ih

end Step

theorem takesAll (stop : Nat) : ∀ calls, TakesAll stop calls
  | 0 => by constructor <;> intros <;> exact .error _
  | calls + 1 => (takesAll stop calls).succ

end Expr

/-! ### Whole texts -/

theorem Tiles.consecutive {position : Nat} {afterNumber : Bool} {s : Text} {ts : List Token}
    (h : Tiles position afterNumber s ts) :
    Consecutive ts ∧ ∀ token ∈ ts.head?, token.afterNumber = afterNumber := by
  induction h with
  | nil => exact ⟨.nil, by simp⟩
  | blank _ _ ih => exact ih
  | token afterNumber _ _ ih =>
    refine ⟨List.isChain_cons.mpr ⟨ih.2, ih.1⟩, fun token hm => ?_⟩
    obtain rfl := Option.some.inj hm
    rfl

namespace Expr

/-- If a text is an expression, no two numbers in it are adjacent. -/
theorem spaced_of_parseWithin {calls : Nat} {text : Text} {ts : List Token} {x : Expr}
    (hts : tokens text = .ok ts) (h : parseWithin calls text = .ok x) : Spaced ts := by
  obtain ⟨ts', hts', h⟩ := exists_of_bind_ok h
  obtain rfl := Except.ok.inj (hts.symm.trans hts')
  obtain ⟨used, hused, hu⟩ := (takesAll text.length calls).sum ts x []
    (operand_of_ofTokens h).2
  rw [List.append_nil] at hused
  subst hused
  exact hu (tiles_of_tokensFrom hts).consecutive.1

/-- **Adjacent numbers do not multiply.** If two tokens of a text that follow one
another are numbers, wherever they stand, the text is no expression. -/
theorem parse_adjacent_numbers {text : Text} {ts : List Token} (hts : tokens text = .ok ts)
    {k : Nat} {l m : Literal} (hl : (symbolsOf ts)[k]? = some (.number l))
    (hm : (symbolsOf ts)[k + 1]? = some (.number m)) : ∃ f, parse text = .error f := by
  cases h : parse text with
  | error f => exact ⟨f, rfl⟩
  | ok x =>
    have hspaced := spaced_of_parseWithin hts h
    rw [symbolsOf, List.getElem?_map, Option.map_eq_some_iff] at hl hm
    obtain ⟨a, ha, hla⟩ := hl
    obtain ⟨b, hb, hmb⟩ := hm
    obtain ⟨hk, rfl⟩ := List.getElem?_eq_some_iff.mp ha
    obtain ⟨hk', rfl⟩ := List.getElem?_eq_some_iff.mp hb
    refine absurd ⟨?_, ?_⟩ (List.isChain_iff_getElem.mp hspaced k hk')
    · rw [hla]
      rfl
    · rw [hmb]
      rfl

/-- In the base of a logarithm, behind a sign. -/
theorem parse_adjacent_numbers_base : ∃ ts, tokens "2^logBase[-3 .5](8)".toList = .ok ts ∧
    (symbolsOf ts)[5]? = some (.number ⟨['3'], false, [], none⟩) ∧
    (symbolsOf ts)[6]? = some (.number ⟨[], true, ['5'], none⟩) ∧
    ∃ f, parse "2^logBase[-3 .5](8)".toList = .error f := by
  have hts : tokens "2^logBase[-3 .5](8)".toList =
      .ok ((tokens "2^logBase[-3 .5](8)".toList).toOption.getD []) := by decide +kernel
  have hl : (symbolsOf ((tokens "2^logBase[-3 .5](8)".toList).toOption.getD []))[5]? =
      some (.number ⟨['3'], false, [], none⟩) := by decide +kernel
  have hm : (symbolsOf ((tokens "2^logBase[-3 .5](8)".toList).toOption.getD []))[6]? =
      some (.number ⟨[], true, ['5'], none⟩) := by decide +kernel
  exact ⟨_, hts, hl, hm, parse_adjacent_numbers hts hl hm⟩

end Expr
end NumericAnswer
