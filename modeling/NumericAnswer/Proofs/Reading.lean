/-
# What the parser reads

Each function of the parser either reads a part of the tokens that makes an
operand, with every bracket closed by its own kind, and leaves the rest as it
is, or fails at one of the tokens or at the end of the text.

Key definitions: `Nesting`, `Nesting.read`, `Operand`, `Reads`, `ReadsAll`.
Key theorems: `Expr.readsAll`, `Expr.operand_of_ofTokens`, `Expr.parse_error_cases`.
-/
import NumericAnswer.Expr.Parser
import NumericAnswer.Proofs.Lexing

namespace NumericAnswer

/-! ### Nesting -/

/-- What a row of symbols leaves open. -/
structure Nesting where
  /-- The brackets that are open, the last one first. -/
  opened : List Bracket
  /-- The last symbol is a word that takes arguments, or the sign of a power. -/
  called : Bool
  deriving DecidableEq, Repr

/-- The word takes arguments. -/
def Word.takesArguments : Word → Bool
  | constant _ => false
  | _ => true

namespace Nesting

/-- Reads a symbol, if it can be part of an expression there. -/
def read (n : Nesting) : Symbol → Option Nesting
  | .number _ => some ⟨n.opened, false⟩
  | .word w => some ⟨n.opened, w.takesArguments⟩
  | .operator .caret => if n.called then none else some ⟨n.opened, true⟩
  | .operator _ | .comma => some ⟨n.opened, false⟩
  | .opening b => some ⟨b :: n.opened, false⟩
  | .closing b =>
    if n.opened.head? = some b ∧ n.called = false then some ⟨n.opened.tail, false⟩ else none
  | .letters _ | .bar | .command _ | .unknown _ => none

/-- Reads a row of symbols. -/
def run (n : Nesting) (symbols : List Symbol) : Option Nesting :=
  symbols.foldlM read n

theorem run_append (n : Nesting) (u v : List Symbol) :
    n.run (u ++ v) = (n.run u).bind fun m => m.run v :=
  List.foldlM_append

theorem run_cons (n : Nesting) (s : Symbol) (v : List Symbol) :
    n.run (s :: v) = (n.read s).bind fun m => m.run v := rfl

end Nesting

/-- The symbols go on with an expression after an operand and end in one. -/
def Continuation (symbols : List Symbol) : Prop :=
  ∀ opened, Nesting.run ⟨opened, false⟩ symbols = some ⟨opened, false⟩

/-- The symbols make up an operand, also after a word that takes arguments or the
sign of a power. -/
def Operand (symbols : List Symbol) : Prop :=
  symbols ≠ [] ∧ ∀ opened called, Nesting.run ⟨opened, called⟩ symbols = some ⟨opened, false⟩

/-- A sign or a comma, but not the sign of a power. -/
def Symbol.separates : Symbol → Bool
  | .operator .caret => false
  | .operator _ | .comma => true
  | _ => false

section Operands

variable {u v : List Symbol} {s : Symbol}

theorem Continuation.nil : Continuation [] := fun _ => rfl

theorem Operand.continuation (h : Operand u) : Continuation u := fun opened => h.2 opened false

theorem Continuation.append (hu : Continuation u) (hv : Continuation v) : Continuation (u ++ v) := by
  intro opened
  rw [Nesting.run_append, hu opened]
  exact hv opened

theorem Operand.append (hu : Operand u) (hv : Continuation v) : Operand (u ++ v) := by
  refine ⟨by simp [hu.1], fun opened called => ?_⟩
  rw [Nesting.run_append, hu.2 opened called]
  exact hv opened

theorem Nesting.read_of_separates (n : Nesting) (h : s.separates = true) :
    n.read s = some ⟨n.opened, false⟩ := by
  cases s with
  | operator o => cases o <;> first | rfl | cases h
  | comma => rfl
  | _ => cases h

/-- An operand with a sign before it. -/
theorem Operand.cons (hs : s.separates = true) (hu : Continuation u) : Operand (s :: u) := by
  refine ⟨List.cons_ne_nil _ _, fun opened called => ?_⟩
  rw [Nesting.run_cons, Nesting.read_of_separates _ hs]
  exact hu opened

theorem Continuation.caret (hu : Operand u) : Continuation (.operator .caret :: u) :=
  fun opened => hu.2 opened true

theorem Operand.number (literal : Literal) : Operand [.number literal] :=
  ⟨List.cons_ne_nil _ _, fun _ _ => rfl⟩

theorem Operand.constant (c : Constant) : Operand [.word (.constant c)] :=
  ⟨List.cons_ne_nil _ _, fun _ _ => rfl⟩

/-- A word and its arguments. -/
theorem Operand.word (w : Word) (hu : Operand u) : Operand (.word w :: u) :=
  ⟨List.cons_ne_nil _ _, fun opened _ => hu.2 opened w.takesArguments⟩

/-- A group in brackets. -/
theorem Operand.group (b : Bracket) (hu : Continuation u) :
    Operand (.opening b :: (u ++ [.closing b])) := by
  refine ⟨List.cons_ne_nil _ _, fun opened called => ?_⟩
  rw [Nesting.run_cons]
  show Nesting.run ⟨b :: opened, false⟩ (u ++ [.closing b]) = _
  rw [Nesting.run_append, hu (b :: opened)]
  simp [Nesting.run, Nesting.read]

end Operands

/-! ### Results -/

/-- The symbols of tokens. -/
def symbolsOf (ts : List Token) : List Symbol :=
  ts.map Token.symbol

/-- The fault stands at the end of the text or at one of the tokens. -/
def FailsAt (stop : Nat) (ts : List Token) (f : ReadFault) : Prop :=
  f = .nestedTooDeeply ∨
    ∃ obstacle position, f = .blocked obstacle position ∧
      (position = stop ∨ ∃ token ∈ ts, token.position = position)

theorem FailsAt.mono {stop : Nat} {ts us : List Token} {f : ReadFault} (h : FailsAt stop us f)
    (hs : us ⊆ ts) : FailsAt stop ts f := by
  rcases h with h | ⟨obstacle, position, hf, hp⟩
  · exact .inl h
  · refine .inr ⟨obstacle, position, hf, ?_⟩
    rcases hp with hp | ⟨token, ht, hp⟩
    · exact .inl hp
    · exact .inr ⟨token, hs ht, hp⟩

theorem FailsAt.blocked {stop : Nat} {ts : List Token} {token : Token} (obstacle : Obstacle)
    (h : token ∈ ts) : FailsAt stop ts (.blocked obstacle token.position) :=
  .inr ⟨_, _, rfl, .inr ⟨token, h, rfl⟩⟩

theorem FailsAt.stop (stop : Nat) (ts : List Token) (obstacle : Obstacle) :
    FailsAt stop ts (.blocked obstacle stop) :=
  .inr ⟨_, _, rfl, .inl rfl⟩

/-- A result of reading `ts` is an operand, whose symbols have the property
`p`, and the rest, or a fault in its place. -/
inductive Reads (p : List Symbol → Prop) (stop : Nat) (ts : List Token) :
    Except ReadFault (Expr × List Token) → Prop where
  | ok {used rest : List Token} (x : Expr) (hts : ts = used ++ rest)
      (hp : p (symbolsOf used)) : Reads p stop ts (.ok (x, rest))
  | error {f : ReadFault} (h : FailsAt stop ts f) : Reads p stop ts (.error f)

namespace Reads

variable {p q : List Symbol → Prop} {stop : Nat} {ts us : List Token}
  {r : Except ReadFault (Expr × List Token)}
  {next : Expr × List Token → Except ReadFault (Expr × List Token)}

/-- A step after tokens already read, and what follows it. -/
theorem bind_after (pre : List Token) (hts : ts = pre ++ us) (hr : Reads q stop us r)
    (hn : ∀ x used rest, us = used ++ rest → q (symbolsOf used) → Reads p stop ts (next (x, rest))) :
    Reads p stop ts (r >>= next) := by
  cases hr with
  | ok x hus hq => exact hn x _ _ hus hq
  | error h =>
    refine .error (h.mono ?_)
    rw [hts]
    exact List.subset_append_right _ _

theorem bind (hr : Reads q stop ts r)
    (hn : ∀ x used rest, ts = used ++ rest → q (symbolsOf used) → Reads p stop ts (next (x, rest))) :
    Reads p stop ts (r >>= next) :=
  bind_after [] (List.nil_append ts).symm hr hn

/-- What is read after tokens already read, with those. -/
theorem prepend {pre : List Token} (hts : ts = pre ++ us) (hr : Reads q stop us r)
    (hqp : ∀ u, q u → p (symbolsOf pre ++ u)) : Reads p stop ts r := by
  cases hr with
  | @ok used rest x hus hq =>
    refine .ok x (show ts = (pre ++ used) ++ rest by rw [hts, hus, List.append_assoc]) ?_
    rw [symbolsOf, List.map_append]
    exact hqp _ hq
  | error h =>
    refine .error (h.mono ?_)
    rw [hts]
    exact List.subset_append_right _ _

end Reads

/-! ### The functions of the parser -/

namespace Expr

variable {stop : Nat}

theorem failsAt_blockedAt (stop : Nat) (obstacle : Obstacle) (ts : List Token) :
    FailsAt stop ts (blockedAt stop obstacle ts) := by
  cases ts with
  | nil => exact .stop _ _ _
  | cons token ts => exact .blocked _ (List.mem_cons_self ..)

/-- The closing bracket of a group is there, or the fault is at the next token. -/
theorem expectClosing_cases (stop : Nat) (b : Bracket) (opened : Nat) (ts : List Token) :
    (∃ token rest, ts = token :: rest ∧ token.symbol = .closing b ∧
      expectClosing stop b opened ts = .ok rest) ∨
    ∃ f, FailsAt stop ts f ∧ expectClosing stop b opened ts = .error f := by
  unfold expectClosing
  cases ts with
  | nil => exact .inr ⟨_, failsAt_blockedAt _ _ _, rfl⟩
  | cons token rest =>
    by_cases h : token.symbol = .closing b
    · exact .inl ⟨token, rest, rfl, h, by simp [h]⟩
    · exact .inr ⟨_, failsAt_blockedAt _ _ _, by simp [h]; rfl⟩

theorem reads_extend {step : Expr → List Token → Option (Except ReadFault (Expr × List Token))}
    (hstep : ∀ x ts r, step x ts = some r → Reads Operand stop ts r) :
    ∀ (bound : Nat) (x : Expr) (ts : List Token), Reads Continuation stop ts (extend step bound x ts)
  | 0, x, ts => .ok x (List.nil_append ts).symm .nil
  | bound + 1, x, ts => by
    unfold extend
    cases hs : step x ts with
    | none => exact .ok x (List.nil_append ts).symm .nil
    | some r =>
      refine (hstep x ts r hs).bind fun y used rest hts hu => ?_
      exact (reads_extend hstep bound y rest).prepend hts fun v hv => (hu.append hv).continuation

/-- What all functions of the parser do, within a number of calls. -/
structure ReadsAll (stop calls : Nat) : Prop where
  sum (ts) : Reads Operand stop ts (sum stop calls ts)
  term (ts) : Reads Operand stop ts (term stop calls ts)
  signed (ts) : Reads Operand stop ts (signed stop calls ts)
  raised (ts) : Reads Operand stop ts (raised stop calls ts)
  postfixed (ts) : Reads Operand stop ts (postfixed stop calls ts)
  factor (ts) : Reads Operand stop ts (factor stop calls ts)
  worded (token : Token) (w ts) (h : token.symbol = .word w) :
    Reads Operand stop (token :: ts) (worded stop calls w ts)
  argument (w ts) : Reads Operand stop ts (argument stop calls w ts)
  requiredGroup (b w ts) : Reads Operand stop ts (requiredGroup stop calls b w ts)
  group (ts) : Reads Operand stop ts (group stop calls ts)

section Steps

variable {read read' : List Token → Except ReadFault (Expr × List Token)}

/-- A sign and what is read after it. -/
theorem reads_sign {token : Token} {us : List Token} (hs : token.symbol.separates = true)
    (hr : Reads Operand stop us (read us)) (f : Expr → Expr) :
    Reads Operand stop (token :: us) (do let (y, rest) ← read us; .ok (f y, rest)) := by
  refine hr.bind_after [token] rfl fun y used rest hus hu => ?_
  subst hus
  exact .ok _ (show _ = (token :: used) ++ rest from rfl) (.cons hs hu.continuation)

theorem reads_sumStep (hr : ∀ us, Reads Operand stop us (read us)) (x : Expr) (ts : List Token)
    (r) (h : sumStep read x ts = some r) : Reads Operand stop ts r := by
  unfold sumStep at h
  split at h
  · obtain rfl := Option.some.inj h
    exact reads_sign rfl (hr _) _
  · obtain rfl := Option.some.inj h
    exact reads_sign rfl (hr _) _
  · cases h

theorem reads_termStep (hr : ∀ us, Reads Operand stop us (read us))
    (hr' : ∀ us, Reads Operand stop us (read' us)) (x : Expr) (ts : List Token)
    (r) (h : termStep read read' x ts = some r) : Reads Operand stop ts r := by
  unfold termStep at h
  split at h
  · cases h
  · next token ts =>
    split at h
    · next hsym =>
      obtain rfl := Option.some.inj h
      exact reads_sign (by rw [hsym]; rfl) (hr _) _
    · next hsym =>
      obtain rfl := Option.some.inj h
      exact reads_sign (by rw [hsym]; rfl) (hr _) _
    · split at h
      · cases h
      · split at h
        · obtain rfl := Option.some.inj h
          exact .error (.blocked _ (List.mem_cons_self ..))
        · obtain rfl := Option.some.inj h
          refine (hr' _).bind fun y used rest hus hu => ?_
          exact .ok _ hus hu

theorem reads_postfixStep (x : Expr) (ts : List Token) (r) (h : postfixStep x ts = some r) :
    Reads Operand stop ts r := by
  unfold postfixStep at h
  split at h
  · obtain rfl := Option.some.inj h
    exact .ok _ (show _ = [_] ++ _ from rfl) (.cons rfl .nil)
  · cases h

end Steps

theorem nestedTooDeeply_reads {p : List Symbol → Prop} (ts : List Token) :
    Reads p stop ts (.error .nestedTooDeeply) :=
  .error (.inl rfl)

/-- A closing bracket after a group whose opening one and content are read. -/
theorem reads_closing {b : Bracket} {opened : Nat} {ts after : List Token} (x : Expr)
    (pre : List Token) (hts : ts = pre ++ after) (hp : ∀ u, u = [.closing b] → Operand (symbolsOf pre ++ u)) :
    Reads Operand stop ts (do let rest ← expectClosing stop b opened after; .ok (x, rest)) := by
  rcases expectClosing_cases stop b opened after with ⟨token, after', ha, hs, he⟩ | ⟨f, hf, he⟩
  · rw [he]
    refine .ok x (show ts = (pre ++ [token]) ++ after' by rw [hts, ha]; simp) ?_
    rw [symbolsOf, List.map_append]
    exact hp _ (by simp [hs])
  · rw [he]
    refine .error (hf.mono ?_)
    rw [hts]
    exact List.subset_append_right _ _

section Step

variable {calls : Nat} (ih : ReadsAll stop calls)

include ih

theorem reads_sum (ts : List Token) : Reads Operand stop ts (sum stop (calls + 1) ts) := by
  unfold sum
  refine (ih.term ts).bind fun x used rest hts hu => ?_
  exact (reads_extend (reads_sumStep ih.term) _ _ _).prepend hts fun v hv => hu.append hv

theorem reads_term (ts : List Token) : Reads Operand stop ts (term stop (calls + 1) ts) := by
  unfold term
  refine (ih.signed ts).bind fun x used rest hts hu => ?_
  exact (reads_extend (reads_termStep ih.signed ih.raised) _ _ _).prepend hts fun v hv =>
    hu.append hv

theorem reads_signed (ts : List Token) : Reads Operand stop ts (signed stop (calls + 1) ts) := by
  unfold signed
  split
  · exact (ih.signed _).prepend (show _ = [_] ++ _ from rfl) fun v hv => .cons rfl hv.continuation
  · exact reads_sign rfl (ih.signed _) neg
  · exact ih.raised _

theorem reads_raised (ts : List Token) : Reads Operand stop ts (raised stop (calls + 1) ts) := by
  unfold raised
  refine (ih.postfixed ts).bind fun x used rest hts hu => ?_
  simp only
  split
  · next position afterNumber rest' =>
    refine (ih.signed rest').bind_after (used ++ [⟨.operator .caret, position, afterNumber⟩])
      (by rw [hts, List.append_assoc]; rfl) fun y used' rest'' hr hv => ?_
    refine .ok _ (show ts = (used ++ ⟨.operator .caret, position, afterNumber⟩ :: used') ++ rest'' by
      rw [hts, hr, List.append_assoc]; rfl) ?_
    rw [symbolsOf, List.map_append]
    exact hu.append (.caret hv)
  · exact .ok _ hts hu

theorem reads_postfixed (ts : List Token) :
    Reads Operand stop ts (postfixed stop (calls + 1) ts) := by
  unfold postfixed
  refine (ih.factor ts).bind fun x used rest hts hu => ?_
  exact (reads_extend reads_postfixStep _ _ _).prepend hts fun v hv => hu.append hv

theorem reads_factor (ts : List Token) : Reads Operand stop ts (factor stop (calls + 1) ts) := by
  unfold factor
  split
  · exact .error (.stop _ _ _)
  · next token rest =>
    split
    · next literal hs =>
      refine .ok _ (show _ = [token] ++ rest from rfl) ?_
      show Operand [token.symbol]
      rw [hs]
      exact .number literal
    · exact ih.group _
    · next w hs => exact ih.worded token w rest hs
    · exact .error (.blocked _ (List.mem_cons_self ..))

theorem reads_group (ts : List Token) : Reads Operand stop ts (group stop (calls + 1) ts) := by
  unfold group
  split
  · next b opened afterNumber rest =>
    let token : Token := ⟨.opening b, opened, afterNumber⟩
    refine (ih.sum rest).bind_after [token] rfl fun x used after hr hu => ?_
    refine reads_closing x (token :: used) (by rw [hr]; rfl) ?_
    rintro u rfl
    exact .group b hu.continuation
  · exact .error (failsAt_blockedAt _ _ _)

theorem reads_requiredGroup (b : Bracket) (w : Word) (ts : List Token) :
    Reads Operand stop ts (requiredGroup stop (calls + 1) b w ts) := by
  unfold requiredGroup
  simp only
  split
  · split
    · exact .error (failsAt_blockedAt _ _ _)
    · exact ih.group _
  · exact .error (failsAt_blockedAt _ _ _)

theorem reads_argument (w : Word) (ts : List Token) :
    Reads Operand stop ts (argument stop (calls + 1) w ts) := by
  unfold argument
  split
  · exact .error (.stop _ _ _)
  · split
    · split <;> exact .error (.blocked _ (List.mem_cons_self ..))
    · exact ih.group _
    · exact ih.signed _

/-- A word with one argument. -/
theorem reads_applied {token : Token} {w : Word} (hw : token.symbol = .word w) (ts : List Token)
    (f : Expr → Expr) : Reads Operand stop (token :: ts)
      (do let (x, rest) ← argument stop calls w ts; .ok (f x, rest)) := by
  refine (ih.argument w ts).bind_after [token] rfl fun x used rest hts hu => ?_
  refine .ok _ (show _ = (token :: used) ++ rest by rw [hts]; rfl) ?_
  show Operand (token.symbol :: symbolsOf used)
  rw [hw]
  exact .word w hu

omit ih in
/-- A word with two arguments. -/
theorem reads_applied₂ {token : Token} {w : Word} (hw : token.symbol = .word w) (ts : List Token)
    {read read' : List Token → Except ReadFault (Expr × List Token)}
    (hr : ∀ us, Reads Operand stop us (read us)) (hr' : ∀ us, Reads Operand stop us (read' us))
    (f : Expr → Expr → Expr) : Reads Operand stop (token :: ts)
      (do let (x, rest) ← read ts; let (y, rest) ← read' rest; .ok (f x y, rest)) := by
  refine (hr ts).bind_after [token] rfl fun x used rest hts hu => ?_
  refine (hr' rest).bind_after (token :: used) (by rw [hts]; rfl) fun y used' rest' hrest hv => ?_
  refine .ok _ (show _ = (token :: (used ++ used')) ++ rest' by rw [hts, hrest]; simp) ?_
  show Operand (token.symbol :: symbolsOf (used ++ used'))
  rw [hw, symbolsOf, List.map_append]
  exact .word w (hu.append hv.continuation)

/-- The logarithm to the base 10 or, with a second argument, to that base. -/
theorem reads_log {token : Token} (hw : token.symbol = .word (.unary .log)) (ts : List Token) :
    Reads Operand stop (token :: ts) (worded stop (calls + 1) (.unary .log) ts) := by
  have hlog : ∀ u, Operand (symbolsOf [token] ++ u) ↔ Operand (.word (.unary .log) :: u) := by
    intro u
    rw [← hw]
    exact Iff.rfl
  unfold worded
  simp only
  split
  · next opened afterNumber rest =>
    let bracket : Token := ⟨.opening .round, opened, afterNumber⟩
    refine (ih.sum rest).bind_after [token, bracket] rfl fun x used after hr hu => ?_
    simp only
    split
    · next position afterNumber' rest' =>
      let comma : Token := ⟨.comma, position, afterNumber'⟩
      refine (ih.sum rest').bind_after ([token, bracket] ++ used ++ [comma])
        (by rw [hr]; simp [bracket, comma]) fun y used' after' hr' hv => ?_
      refine reads_closing _ ([token] ++ (bracket :: (used ++ comma :: used')))
        (by rw [hr, hr']; simp [bracket, comma]) ?_
      rintro u rfl
      rw [symbolsOf, List.map_append, List.append_assoc]
      refine (hlog _).mpr (.word _ ?_)
      have hcomma : Operand (.comma :: symbolsOf used') := .cons rfl hv.continuation
      have := Operand.group .round (hu.continuation.append hcomma.continuation)
      simpa [symbolsOf, bracket, comma] using this
    · refine reads_closing _ ([token] ++ (bracket :: used)) (by rw [hr]; simp [bracket]) ?_
      rintro u rfl
      rw [symbolsOf, List.map_append, List.append_assoc]
      exact (hlog _).mpr (.word _ (.group .round hu.continuation))
  · exact reads_applied ih hw ts (call .log)

theorem reads_worded (token : Token) (w : Word) (ts : List Token) (hw : token.symbol = .word w) :
    Reads Operand stop (token :: ts) (worded stop (calls + 1) w ts) := by
  cases w with
  | constant c =>
    refine .ok _ (show _ = [token] ++ ts from rfl) ?_
    show Operand [token.symbol]
    rw [hw]
    exact .constant c
  | fraction =>
    exact reads_applied₂ hw ts (ih.requiredGroup .curly .fraction) (ih.requiredGroup .curly .fraction)
      fraction
  | absolute => exact reads_applied ih hw ts abs
  | binary f =>
    exact reads_applied₂ hw ts (ih.requiredGroup .square (.binary f)) (ih.argument (.binary f))
      (call₂ f)
  | unary f =>
    cases f with
    | log => exact reads_log ih hw ts
    | _ => exact reads_applied ih hw ts _

theorem ReadsAll.succ : ReadsAll stop (calls + 1) where
  sum := reads_sum ih
  term := reads_term ih
  signed := reads_signed ih
  raised := reads_raised ih
  postfixed := reads_postfixed ih
  factor := reads_factor ih
  worded := reads_worded ih
  argument := reads_argument ih
  requiredGroup := reads_requiredGroup ih
  group := reads_group ih

end Step

theorem readsAll (stop : Nat) : ∀ calls, ReadsAll stop calls
  | 0 => by constructor <;> intros <;> exact nestedTooDeeply_reads _
  | calls + 1 => (readsAll stop calls).succ

/-! ### Whole texts -/

/-- The tokens of an expression make up an operand. -/
theorem operand_of_ofTokens {calls : Nat} {text : Text} {ts : List Token} {x : Expr}
    (h : ofTokensWithin calls text ts = .ok x) :
    Operand (symbolsOf ts) ∧ sum text.length calls ts = .ok (x, []) := by
  unfold ofTokensWithin at h
  split at h
  · cases h
  · obtain ⟨⟨y, rest⟩, hs, h⟩ := exists_of_bind_ok h
    have hr := (readsAll text.length calls).sum ts
    rw [hs] at hr
    cases hr with
    | ok _ hts hu =>
      cases rest with
      | nil =>
        obtain rfl := Except.ok.inj h
        rw [List.append_nil] at hts
        rw [hts]
        exact ⟨hu, hts ▸ hs⟩
      | cons token rest => cases h

/-- A fault of parsing stands at the end of the text, at the start of a token,
or at a number with two points; only two faults stand nowhere. -/
theorem parse_error_cases {text : Text} {f : ReadFault} (h : parse text = .error f) :
    f = .emptyExpression ∨ f = .nestedTooDeeply ∨
      (∃ position, f = .repeatedPoint position ∧ position < text.length ∧
        IsRepeatedPoint text position) ∨
      ∃ obstacle position, f = .blocked obstacle position ∧
        (position = text.length ∨ IsTokenStart text position) := by
  unfold parse parseWithin at h
  cases ht : tokens text with
  | error g =>
    rw [ht] at h
    obtain rfl : g = f := by simpa [bind, Except.bind] using h
    exact .inr (.inr (.inl (repeatedPoint_of_tokens_error ht)))
  | ok ts =>
    rw [ht] at h
    have hstart : ∀ {p}, (∃ token ∈ ts, token.position = p) → IsTokenStart text p :=
      fun hp => ⟨ts, ht, hp⟩
    simp only [bind, Except.bind] at h
    unfold ofTokensWithin at h
    split at h
    · exact .inl (Except.error.inj h).symm
    · have hr := (readsAll text.length callLimit).sum ts
      cases hs : sum text.length callLimit ts with
      | error g =>
        rw [hs] at h hr
        obtain rfl : g = f := by simpa [bind, Except.bind] using h
        cases hr with
        | error hf =>
          rcases hf with hf | ⟨obstacle, position, hf, hp⟩
          · exact .inr (.inl hf)
          · refine .inr (.inr (.inr ⟨obstacle, position, hf, ?_⟩))
            exact hp.imp id hstart
      | ok result =>
        rw [hs] at h hr
        obtain ⟨x, rest⟩ := result
        cases hr with
        | ok _ hts _ =>
          cases rest with
          | nil => cases h
          | cons token rest =>
            obtain rfl := Except.error.inj h
            refine .inr (.inr (.inr ⟨_, _, rfl, .inr (hstart ⟨token, ?_, rfl⟩)⟩))
            rw [hts]
            exact List.mem_append_right _ (List.mem_cons_self ..)

end Expr
end NumericAnswer
