/-
# The first token that does not fit

The parser decides by what it has read and by the next token. So a fault at a
token stays the same whatever follows that token, and it is found before
anything that follows is read. One fault looks further: at a `^` where the
argument of a function is due, the two tokens behind it tell an ambiguous
exponent from a missing argument.

Two texts whose tokens part behind a common one are read side by side. As long
as that token is ahead both readings are at the same place; once it is behind
there is no fault at it any more, and the second reading does not matter.

Key definitions: `ArgumentDue`, `Fork`, `Fork.Meets`, `Fork.Foretold`,
`Expr.ForetellsAll`.
Key theorems: `Expr.foretellsAll`, `Expr.parse_first_fault`.
-/
import NumericAnswer.Proofs.Partition
import NumericAnswer.Proofs.Transcript

namespace NumericAnswer

/-- The symbols end where the argument of a function is due: with the name of a
function, or with the group in square brackets that `nthroot` and `logBase` take
first. -/
inductive ArgumentDue : List Symbol → Prop where
  | absolute (before : List Symbol) : ArgumentDue (before ++ [.word .absolute])
  | unary (before : List Symbol) (f : UnaryFunction) : ArgumentDue (before ++ [.word (.unary f)])
  | binary (before : List Symbol) (f : BinaryFunction) {content : List Symbol}
      (h : Nested (bracketsOf content)) :
      ArgumentDue (before ++
        .word (.binary f) :: .opening .square :: (content ++ [.closing .square]))

/-- Two rows of tokens that are the same up to a token, the first one in a text
of the length `stop`. -/
structure Fork where
  before : List Token
  token : Token
  after : List Token
  after' : List Token
  stop : Nat
  apart_before : ∀ t ∈ before, t.position ≠ token.position
  apart_after : ∀ t ∈ after, t.position ≠ token.position
  stop_ne : stop ≠ token.position
  /-- A `^` in the place of an argument is followed by the same two symbols. -/
  alike : token.symbol = .operator .caret → ArgumentDue (symbolsOf before) →
    (symbolsOf after).take 2 = (symbolsOf after').take 2

namespace Fork

variable {F : Fork} {done ts ts' us us' : List Token} {t : Token}

/-- When `done` is read, the token is still ahead in both rows. -/
def Meets (F : Fork) (done ts ts' : List Token) : Prop :=
  ∃ ahead, F.before = done ++ ahead ∧ ts = ahead ++ F.token :: F.after ∧
    ts' = ahead ++ F.token :: F.after'

/-- The token is behind. -/
def Passed (F : Fork) (ts : List Token) : Prop :=
  ∀ t ∈ ts, t.position ≠ F.token.position

/-- The next token is the common one, or another one that both rows have. -/
theorem Meets.cases_cons (h : F.Meets done ts ts') :
    (ts = F.token :: F.after ∧ ts' = F.token :: F.after' ∧ done = F.before) ∨
      ∃ t us us', ts = t :: us ∧ ts' = t :: us' ∧ t ∈ F.before ∧ F.Meets (done ++ [t]) us us' := by
  obtain ⟨ahead, hbefore, rfl, rfl⟩ := h
  cases ahead with
  | nil => exact .inl ⟨rfl, rfl, by rw [hbefore, List.append_nil]⟩
  | cons t ahead =>
    refine .inr ⟨t, _, _, rfl, rfl, ?_, ahead, ?_, rfl, rfl⟩
    · rw [hbefore]
      exact List.mem_append_right _ (List.mem_cons_self ..)
    · rw [hbefore, List.append_assoc]
      rfl

theorem passed_after (F : Fork) : F.Passed F.after := F.apart_after

/-- Behind the next token the common one is still ahead, or it is behind. -/
theorem Meets.exists_cons (h : F.Meets done ts ts') :
    ∃ t us us', ts = t :: us ∧ ts' = t :: us' ∧ (F.Meets (done ++ [t]) us us' ∨ F.Passed us) := by
  obtain ⟨rfl, rfl, -⟩ | ⟨t, us, us', rfl, rfl, -, hus⟩ := h.cases_cons
  · exact ⟨_, _, _, rfl, rfl, .inr F.passed_after⟩
  · exact ⟨t, us, us', rfl, rfl, .inl hus⟩

/-- What is read of the first row before the common token is read of the second
row too. -/
theorem Meets.of_append {used ahead : List Token} (h : F.Meets done ts ts')
    (hts : ts = used ++ (ahead ++ F.token :: F.after)) :
    ts' = used ++ (ahead ++ F.token :: F.after') ∧
      F.Meets (done ++ used) (ahead ++ F.token :: F.after) (ahead ++ F.token :: F.after') := by
  obtain ⟨all, hbefore, rfl, rfl⟩ := h
  rw [← List.append_assoc] at hts
  obtain rfl := List.append_cancel_right hts
  exact ⟨List.append_assoc .., ahead, by rw [hbefore, List.append_assoc], rfl, rfl⟩

/-! ### Results -/

/-- A result with the token behind it, or a fault that is not at the token. -/
inductive Clear (F : Fork) : Except ReadFault (Expr × List Token) → Prop where
  | ok (x : Expr) {rest : List Token} (h : F.Passed rest) : Clear F (.ok (x, rest))
  | error {f : ReadFault} (h : f.position? ≠ some F.token.position) : Clear F (.error f)

/-- The second result is as the first one foretells: the same before the token, or
a fault of the same code at the same place. A clear result foretells nothing. -/
inductive Foretold (F : Fork) : Except ReadFault (Expr × List Token) →
    Except ReadFault (Expr × List Token) → Prop where
  | ok (x : Expr) (ahead : List Token) :
      Foretold F (.ok (x, ahead ++ F.token :: F.after)) (.ok (x, ahead ++ F.token :: F.after'))
  | fault {f f' : ReadFault} (hcode : f.code = f'.code) (hposition : f.position? = f'.position?) :
      Foretold F (.error f) (.error f')
  | clear {r : Except ReadFault (Expr × List Token)} (h : F.Clear r)
      (r' : Except ReadFault (Expr × List Token)) : Foretold F r r'

/-- One function reads as the other one foretells, as long as the token is ahead. -/
def Foretells (F : Fork) (read read' : List Token → Except ReadFault (Expr × List Token)) : Prop :=
  ∀ ⦃done ts ts' : List Token⦄, F.Meets done ts ts' → F.Foretold (read ts) (read' ts')

variable {p : List Symbol → Prop} {r r' : Except ReadFault (Expr × List Token)}
  {k k' : Expr × List Token → Except ReadFault (Expr × List Token)}
  {read read' : List Token → Except ReadFault (Expr × List Token)}

theorem Meets.ok (h : F.Meets done ts ts') (x : Expr) : F.Foretold (.ok (x, ts)) (.ok (x, ts')) := by
  obtain ⟨ahead, -, rfl, rfl⟩ := h
  exact .ok x ahead

/-- What is read behind the token does not come back to it. -/
theorem Clear.of_reads (hr : Reads p F.stop ts r) (h : F.Passed ts) : F.Clear r := by
  cases hr with
  | @ok used rest x hts _ =>
    refine .ok x fun t ht => h t ?_
    rw [hts]
    exact List.mem_append_right _ ht
  | error hf =>
    refine .error ?_
    rcases hf with rfl | ⟨obstacle, position, rfl, rfl | ⟨t, ht, rfl⟩⟩
    · simp [ReadFault.position?]
    · exact fun heq => F.stop_ne (Option.some.inj heq)
    · exact fun heq => h t ht (Option.some.inj heq)

theorem Clear.bind (hr : F.Clear r) (hk : ∀ x {rest}, F.Passed rest → F.Clear (k (x, rest))) :
    F.Clear (r >>= k) := by
  cases hr with
  | ok x h => exact hk x h
  | error h => exact .error h

theorem Clear.map (hr : F.Clear r) (g : Expr → Expr) :
    F.Clear (do let (x, rest) ← r; .ok (g x, rest)) :=
  hr.bind fun _ _ h => .ok _ h

/-- A reading and what follows it. -/
theorem Foretold.bind (hr : F.Foretold r r') (h : F.Meets done ts ts')
    (hread : Reads p F.stop ts r)
    (hpassed : ∀ x {rest}, F.Passed rest → F.Clear (k (x, rest)))
    (hk : ∀ x {used rest rest'}, p (symbolsOf used) → ts = used ++ rest → ts' = used ++ rest' →
      F.Meets (done ++ used) rest rest' → F.Foretold (k (x, rest)) (k' (x, rest'))) :
    F.Foretold (r >>= k) (r' >>= k') := by
  cases hr with
  | ok x ahead =>
    cases hread with
    | ok _ hts hp =>
      obtain ⟨hts', hmeets⟩ := h.of_append hts
      exact hk x hp hts hts' hmeets
  | fault hcode hposition => exact .fault hcode hposition
  | clear hr => exact .clear (hr.bind hpassed) _

theorem Foretold.map (hr : F.Foretold r r') (g : Expr → Expr) :
    F.Foretold (do let (x, rest) ← r; .ok (g x, rest)) (do let (x, rest) ← r'; .ok (g x, rest)) := by
  cases hr with
  | ok x ahead => exact .ok _ ahead
  | fault hcode hposition => exact .fault hcode hposition
  | clear hr => exact .clear (hr.map g) _

/-- What is read behind a token that is ahead or the common one. -/
theorem Foretells.go_on (hr : F.Foretells read read') (hread : ∀ ts, Reads p F.stop ts (read ts))
    (h : F.Meets done us us' ∨ F.Passed us) : F.Foretold (read us) (read' us') := by
  rcases h with h | h
  · exact hr h
  · exact .clear (.of_reads (hread us) h) _

end Fork

namespace Expr

open Fork

variable {F : Fork} {done ts ts' us us' : List Token} {stop stop' calls : Nat}
  {read read' readPower readPower' : List Token → Except ReadFault (Expr × List Token)}

/-! ### Steps -/

/-- Both rows are gone on with, or none. -/
inductive ForetoldStep (F : Fork) : Option (Except ReadFault (Expr × List Token)) →
    Option (Except ReadFault (Expr × List Token)) → Prop where
  | none : ForetoldStep F none none
  | some {r r' : Except ReadFault (Expr × List Token)} (h : F.Foretold r r') :
      ForetoldStep F (some r) (some r')

/-- A step that goes on with an expression does so in both rows. -/
structure ForetellsStep (F : Fork)
    (step step' : Expr → List Token → Option (Except ReadFault (Expr × List Token))) : Prop where
  reads : ∀ x ts r, step x ts = some r → Reads Operand F.stop ts r
  steps : ∀ x {done ts ts'}, F.Meets done ts ts' → ForetoldStep F (step x ts) (step' x ts')

/-- Each step takes a token, so that the bounds on their number do not matter. -/
theorem foretold_extend {step step' : Expr → List Token → Option (Except ReadFault (Expr × List Token))}
    (hs : ForetellsStep F step step') : ∀ (bound bound' : Nat) (x : Expr) {done ts ts' : List Token},
      F.Meets done ts ts' → ts.length ≤ bound → ts'.length ≤ bound' →
      F.Foretold (extend step bound x ts) (extend step' bound' x ts')
  | 0, _, x, done, ts, ts', h, hb, _ => by
    obtain ⟨t, us, us', rfl, rfl, -⟩ := h.exists_cons
    cases hb
  | _ + 1, 0, x, done, ts, ts', h, _, hb => by
    obtain ⟨t, us, us', rfl, rfl, -⟩ := h.exists_cons
    cases hb
  | bound + 1, bound' + 1, x, done, ts, ts', h, hb, hb' => by
    have hstep := hs.steps x h
    have hread := hs.reads x ts
    unfold extend
    generalize step x ts = s, step' x ts' = s' at hstep hread
    cases hstep with
    | none => exact h.ok x
    | some hr =>
      refine hr.bind h (hread _ rfl) (fun y rest hrest => ?_) fun y used rest rest' hp hts hts' h => ?_
      · exact .of_reads (reads_extend hs.reads bound y rest) hrest
      · have hused : 0 < used.length := by
          simpa [symbolsOf] using List.length_pos_iff.mpr hp.1
        rw [hts, List.length_append] at hb
        rw [hts', List.length_append] at hb'
        exact foretold_extend hs bound bound' y h (by omega) (by omega)

theorem foretellsStep_sum (hread : ∀ ts, Reads Operand F.stop ts (read ts))
    (hr : F.Foretells read read') : ForetellsStep F (sumStep read) (sumStep read') where
  reads := reads_sumStep hread
  steps x done ts ts' h := by
    obtain ⟨⟨symbol, p, a⟩, us, us', rfl, rfl, hus⟩ := h.exists_cons
    have hon := hr.go_on hread hus
    cases symbol with
    | operator o =>
      cases o with
      | plus => exact .some (hon.map (binary .add x))
      | minus => exact .some (hon.map (binary .subtract x))
      | _ => exact .none
    | _ => exact .none

theorem foretellsStep_term (hread : ∀ ts, Reads Operand F.stop ts (read ts))
    (hpower : ∀ ts, Reads Operand F.stop ts (readPower ts)) (hr : F.Foretells read read')
    (hp : F.Foretells readPower readPower') :
    ForetellsStep F (termStep read readPower) (termStep read' readPower') where
  reads := reads_termStep hread hpower
  steps x done ts ts' h := by
    have hfactor := (hp h).map (binary .multiply x)
    obtain ⟨⟨symbol, p, a⟩, us, us', rfl, rfl, hus⟩ := h.exists_cons
    have hon := hr.go_on hread hus
    cases symbol with
    | operator o =>
      cases o with
      | times => exact .some (hon.map (binary .multiply x))
      | divide => exact .some (hon.map (binary .divide x))
      | _ => exact .none
    | number literal =>
      cases a with
      | true => exact .some (.fault rfl rfl)
      | false => exact .some hfactor
    | closing | comma | unknown => exact .none
    | _ => exact .some hfactor

theorem foretellsStep_postfix : ForetellsStep F postfixStep postfixStep where
  reads := reads_postfixStep
  steps x done ts ts' h := by
    obtain ⟨⟨symbol, p, a⟩, us, us', rfl, rfl, hus⟩ := h.exists_cons
    cases symbol with
    | operator o =>
      cases o with
      | bang =>
        rcases hus with hus | hus
        · exact .some (hus.ok _)
        · exact .some (.clear (.ok _ hus) _)
      | _ => exact .none
    | _ => exact .none

/-! ### Brackets -/

theorem foretold_blockedAt (stop' : Nat) (h : F.Meets done ts ts') (obstacle : Obstacle) :
    F.Foretold (.error (blockedAt F.stop obstacle ts)) (.error (blockedAt stop' obstacle ts')) := by
  obtain ⟨t, us, us', rfl, rfl, -⟩ := h.exists_cons
  exact .fault rfl rfl

theorem clear_closing (b : Bracket) (opened : Nat) (x : Expr) (h : F.Passed ts) :
    F.Clear (do let rest ← expectClosing F.stop b opened ts; .ok (x, rest)) := by
  rcases expectClosing_cases F.stop b opened ts with ⟨t, rest, rfl, -, he⟩ | ⟨f, hf, he⟩
  · rw [he]
    exact .ok x fun u hu => h u (List.mem_cons_of_mem _ hu)
  · rw [he]
    exact .of_reads (p := Operand) (.error hf) h

/-- A group is closed in both rows or in none. -/
theorem foretold_closing (stop' : Nat) (b : Bracket) (opened : Nat) (x : Expr)
    (h : F.Meets done ts ts') :
    F.Foretold (do let rest ← expectClosing F.stop b opened ts; .ok (x, rest))
      (do let rest ← expectClosing stop' b opened ts'; .ok (x, rest)) := by
  have hfault := foretold_blockedAt stop' h (.missingClosing b opened)
  obtain ⟨t, us, us', rfl, rfl, hus⟩ := h.exists_cons
  unfold expectClosing
  by_cases hs : t.symbol = .closing b
  · simp only [hs, if_true]
    rcases hus with hus | hus
    · exact hus.ok x
    · exact .clear (.ok x hus) _
  · simp only [hs, if_false]
    exact hfault

/-- The symbols are a group in brackets of a type. -/
def BracketGroup (b : Bracket) (symbols : List Symbol) : Prop :=
  ∃ content, Nested (bracketsOf content) ∧ symbols = .opening b :: (content ++ [.closing b])

theorem reads_bracketGroup (stop : Nat) : ∀ (calls : Nat) (b : Bracket) (opened : Nat)
    (afterNumber : Bool) (rest : List Token),
    Reads (BracketGroup b) stop (⟨.opening b, opened, afterNumber⟩ :: rest)
      (group stop calls (⟨.opening b, opened, afterNumber⟩ :: rest))
  | 0, _, _, _, _ => nestedTooDeeply_reads _
  | calls + 1, b, opened, afterNumber, rest => by
    let bracket : Token := ⟨.opening b, opened, afterNumber⟩
    refine ((readsAll stop calls).sum rest).bind_after [bracket] rfl fun x used after hr hu => ?_
    rcases expectClosing_cases stop b opened after with ⟨t, after', rfl, hs, he⟩ | ⟨f, hf, he⟩
    · simp only [he]
      refine .ok x (show _ = (bracket :: used ++ [t]) ++ after' by rw [hr]; simp [bracket]) ?_
      exact ⟨symbolsOf used, nest_bracketsOf (hu.2 [] false), by simp [symbolsOf, hs, bracket]⟩
    · simp only [he]
      refine .error (hf.mono ?_)
      rw [hr]
      exact fun t ht => List.mem_cons_of_mem _ (List.mem_append_right _ ht)

/-- The group that a degree or a base stands in. -/
theorem reads_squareGroup (stop calls : Nat) (w : Word) (ts : List Token) :
    Reads (BracketGroup .square) stop ts (requiredGroup stop calls .square w ts) := by
  cases calls with
  | zero => exact nestedTooDeeply_reads _
  | succ calls =>
    unfold requiredGroup
    simp only
    split
    · next b opened afterNumber rest =>
      by_cases hb : b = .square
      · subst hb
        exact reads_bracketGroup stop calls .square opened afterNumber rest
      · rw [if_pos (by simp [hb])]
        exact .error (failsAt_blockedAt _ _ _)
    · exact .error (failsAt_blockedAt _ _ _)

/-! ### The functions of the parser -/

/-- All functions of the parser foretell, in texts of any two lengths, what they
read of the second row. -/
structure ForetellsAll (F : Fork) (stop' calls : Nat) : Prop where
  sum : F.Foretells (sum F.stop calls) (sum stop' calls)
  term : F.Foretells (term F.stop calls) (term stop' calls)
  signed : F.Foretells (signed F.stop calls) (signed stop' calls)
  raised : F.Foretells (raised F.stop calls) (raised stop' calls)
  postfixed : F.Foretells (postfixed F.stop calls) (postfixed stop' calls)
  factor : F.Foretells (factor F.stop calls) (factor stop' calls)
  worded (w : Word) {done ts ts' : List Token} (h : F.Meets done ts ts')
    (hw : ∃ before, symbolsOf done = before ++ [.word w]) :
    F.Foretold (worded F.stop calls w ts) (worded stop' calls w ts')
  argument (w : Word) {done ts ts' : List Token} (h : F.Meets done ts ts')
    (hdue : ArgumentDue (symbolsOf done)) :
    F.Foretold (argument F.stop calls w ts) (argument stop' calls w ts')
  requiredGroup (b : Bracket) (w : Word) :
    F.Foretells (requiredGroup F.stop calls b w) (requiredGroup stop' calls b w)
  group : F.Foretells (group F.stop calls) (group stop' calls)

section Functions

theorem ForetellsAll.zero : ForetellsAll F stop' 0 where
  sum _ _ _ _ := .fault rfl rfl
  term _ _ _ _ := .fault rfl rfl
  signed _ _ _ _ := .fault rfl rfl
  raised _ _ _ _ := .fault rfl rfl
  postfixed _ _ _ _ := .fault rfl rfl
  factor _ _ _ _ := .fault rfl rfl
  worded _ _ _ _ _ _ := .fault rfl rfl
  argument _ _ _ _ _ _ := .fault rfl rfl
  requiredGroup _ _ _ _ _ _ := .fault rfl rfl
  group _ _ _ _ := .fault rfl rfl

variable (ih : ForetellsAll F stop' calls)

include ih

theorem ForetellsAll.succ_sum :
    F.Foretells (Expr.sum F.stop (calls + 1)) (Expr.sum stop' (calls + 1)) := by
  intro done ts ts' h
  have hread := readsAll F.stop calls
  have hstep := foretellsStep_sum hread.term ih.term
  refine (ih.term h).bind h (hread.term ts) (fun x rest hrest => ?_) fun x _ _ _ _ _ _ h => ?_
  · exact .of_reads (reads_extend hstep.reads rest.length x rest) hrest
  · exact foretold_extend hstep _ _ x h le_rfl le_rfl

theorem ForetellsAll.succ_term :
    F.Foretells (Expr.term F.stop (calls + 1)) (Expr.term stop' (calls + 1)) := by
  intro done ts ts' h
  have hread := readsAll F.stop calls
  have hstep := foretellsStep_term hread.signed hread.raised ih.signed ih.raised
  refine (ih.signed h).bind h (hread.signed ts) (fun x rest hrest => ?_) fun x _ _ _ _ _ _ h => ?_
  · exact .of_reads (reads_extend hstep.reads rest.length x rest) hrest
  · exact foretold_extend hstep _ _ x h le_rfl le_rfl

theorem ForetellsAll.succ_signed :
    F.Foretells (Expr.signed F.stop (calls + 1)) (Expr.signed stop' (calls + 1)) := by
  intro done ts ts' h
  have hraised := ih.raised h
  obtain ⟨⟨symbol, p, a⟩, us, us', rfl, rfl, hus⟩ := h.exists_cons
  have hon := ih.signed.go_on (readsAll F.stop calls).signed hus
  cases symbol with
  | operator o =>
    cases o with
    | plus => exact hon
    | minus => exact hon.map neg
    | _ => exact hraised
  | _ => exact hraised

omit ih in
/-- The exponent behind a factor, if there is one. -/
theorem clear_exponent (calls : Nat) (x : Expr) : ∀ {rest : List Token}, F.Passed rest →
    F.Clear (match rest with
      | ⟨.operator .caret, _, _⟩ :: rest => do
        let (y, rest) ← signed F.stop calls rest
        .ok (power x y, rest)
      | rest => .ok (x, rest)) := by
  intro rest h
  split
  · next after =>
    have hafter : F.Passed after := fun t ht => h t (List.mem_cons_of_mem _ ht)
    exact (Clear.of_reads ((readsAll F.stop calls).signed after) hafter).map (power x)
  · exact .ok x h

theorem ForetellsAll.succ_raised :
    F.Foretells (Expr.raised F.stop (calls + 1)) (Expr.raised stop' (calls + 1)) := by
  intro done ts ts' h
  have hread := readsAll F.stop calls
  refine (ih.postfixed h).bind h (hread.postfixed ts)
    (fun x rest hrest => clear_exponent calls x hrest) fun x _ rest rest' _ _ _ h => ?_
  have hok := h.ok x
  obtain ⟨⟨symbol, p, a⟩, us, us', rfl, rfl, hus⟩ := h.exists_cons
  cases symbol with
  | operator o =>
    cases o with
    | caret => exact (ih.signed.go_on hread.signed hus).map (power x)
    | _ => exact hok
  | _ => exact hok

theorem ForetellsAll.succ_postfixed :
    F.Foretells (Expr.postfixed F.stop (calls + 1)) (Expr.postfixed stop' (calls + 1)) := by
  intro done ts ts' h
  have hread := readsAll F.stop calls
  refine (ih.factor h).bind h (hread.factor ts) (fun x rest hrest => ?_) fun x _ _ _ _ _ _ h => ?_
  · exact .of_reads (reads_extend reads_postfixStep rest.length x rest) hrest
  · exact foretold_extend foretellsStep_postfix _ _ x h le_rfl le_rfl

omit ih in
/-- What follows a word behind the token. The word itself is no matter. -/
theorem clear_worded (calls : Nat) (w : Word) (h : F.Passed us) :
    F.Clear (worded F.stop calls w us) := by
  refine .of_reads ((readsAll F.stop calls).worded ⟨.word w, F.stop, false⟩ w us rfl) ?_
  exact List.forall_mem_cons.mpr ⟨F.stop_ne, h⟩

theorem ForetellsAll.succ_factor :
    F.Foretells (Expr.factor F.stop (calls + 1)) (Expr.factor stop' (calls + 1)) := by
  intro done ts ts' h
  have hgroup := ih.group h
  obtain ⟨⟨symbol, p, a⟩, us, us', rfl, rfl, hus⟩ := h.exists_cons
  cases symbol with
  | number literal =>
    rcases hus with hus | hus
    · exact hus.ok _
    · exact .clear (.ok _ hus) _
  | opening b => exact hgroup
  | word w =>
    rcases hus with hus | hus
    · exact ih.worded w hus ⟨symbolsOf done, by simp [symbolsOf]⟩
    · exact .clear (clear_worded calls w hus) _
  | _ => exact .fault rfl rfl

omit ih in
/-- A negative exponent is told by the two symbols behind the `^`. -/
theorem isNegativeExponent_iff {t : Token} : isNegativeExponent (t :: us) ↔
    (symbolsOf us).take 1 = [.operator .minus] ∨
      ∃ b, (symbolsOf us).take 2 = [.opening b, .operator .minus] := by
  rcases us with _ | ⟨⟨s, _, _⟩, us⟩
  · simp [isNegativeExponent, symbolsOf]
  · cases s with
    | operator o => cases o <;> simp [isNegativeExponent, symbolsOf]
    | opening b =>
      rcases us with _ | ⟨⟨s, _, _⟩, us⟩
      · simp [isNegativeExponent, symbolsOf]
      · cases s with
        | operator o => cases o <;> simp [isNegativeExponent, symbolsOf]
        | _ => simp [isNegativeExponent, symbolsOf]
    | _ => simp [isNegativeExponent, symbolsOf]

omit ih in
theorem isNegativeExponent_congr {t : Token}
    (h : (symbolsOf us).take 2 = (symbolsOf us').take 2) :
    isNegativeExponent (t :: us) = isNegativeExponent (t :: us') := by
  have hone : (symbolsOf us).take 1 = (symbolsOf us').take 1 := by
    simpa [List.take_take] using congrArg (List.take 1) h
  rw [Bool.eq_iff_iff, isNegativeExponent_iff, isNegativeExponent_iff, hone, h]

omit ih in
/-- A `^` in the place of an argument is a fault. If it is the common token, it is
the same one in both rows. -/
theorem foretold_caret (w : Word) {t : Token} (h : F.Meets done (t :: us) (t :: us'))
    (hs : t.symbol = .operator .caret) (hdue : ArgumentDue (symbolsOf done)) :
    F.Foretold (argument F.stop (calls + 1) w (t :: us)) (argument stop' (calls + 1) w (t :: us')) := by
  rcases h.cases_cons with ⟨hts, hts', rfl⟩ | ⟨t', _, _, hts, -, ht, -⟩
  · obtain ⟨rfl, rfl⟩ := List.cons.inj hts
    obtain ⟨-, rfl⟩ := List.cons.inj hts'
    simp only [argument, hs, isNegativeExponent_congr (F.alike hs hdue)]
    split <;> exact .fault rfl rfl
  · obtain ⟨rfl, -⟩ := List.cons.inj hts
    have hposition : some t.position ≠ some F.token.position := fun heq =>
      F.apart_before t ht (Option.some.inj heq)
    refine .clear ?_ _
    simp only [argument, hs]
    split <;> exact .error hposition

theorem ForetellsAll.succ_argument (w : Word) (h : F.Meets done ts ts')
    (hdue : ArgumentDue (symbolsOf done)) :
    F.Foretold (Expr.argument F.stop (calls + 1) w ts) (Expr.argument stop' (calls + 1) w ts') := by
  have hgroup := ih.group h
  have hsigned := ih.signed h
  obtain ⟨t, us, us', rfl, rfl, -⟩ := h.exists_cons
  by_cases hs : t.symbol = .operator .caret
  · exact foretold_caret w h hs hdue
  · obtain ⟨symbol, p, a⟩ := t
    cases symbol with
    | operator o =>
      cases o with
      | caret => exact absurd rfl hs
      | _ => exact hsigned
    | opening b => exact hgroup
    | _ => exact hsigned

theorem ForetellsAll.succ_requiredGroup (b : Bracket) (w : Word) :
    F.Foretells (Expr.requiredGroup F.stop (calls + 1) b w)
      (Expr.requiredGroup stop' (calls + 1) b w) := by
  intro done ts ts' h
  have hgroup := ih.group h
  have hfault := foretold_blockedAt stop' h (.expectedGroup b w.name)
  obtain ⟨⟨symbol, p, a⟩, us, us', rfl, rfl, -⟩ := h.exists_cons
  cases symbol with
  | opening b' =>
    simp only [Expr.requiredGroup]
    split
    · exact hfault
    · exact hgroup
  | _ => exact hfault

theorem ForetellsAll.succ_group :
    F.Foretells (Expr.group F.stop (calls + 1)) (Expr.group stop' (calls + 1)) := by
  intro done ts ts' h
  have hread := readsAll F.stop calls
  have hfault := foretold_blockedAt stop' h .missingOperand
  obtain ⟨⟨symbol, p, a⟩, us, us', rfl, rfl, hus⟩ := h.exists_cons
  cases symbol with
  | opening b =>
    have hclosing : ∀ x {rest}, F.Passed rest →
        F.Clear (do let rest ← expectClosing F.stop b p rest; .ok (x, rest)) :=
      fun x _ => clear_closing b p x
    rcases hus with hus | hus
    · exact (ih.sum hus).bind hus (hread.sum us) hclosing fun x _ _ _ _ _ _ h =>
        foretold_closing stop' b p x h
    · exact .clear ((Clear.of_reads (hread.sum us) hus).bind hclosing) _
  | _ => exact hfault

/-! #### Words -/

omit ih in
/-- The rest of a logarithm behind its first argument. -/
theorem clear_logEnd (calls opened : Nat) (x : Expr) : ∀ {rest : List Token}, F.Passed rest →
    F.Clear (match rest with
      | ⟨.comma, _, _⟩ :: rest => do
        let (base, rest) ← sum F.stop calls rest
        let rest ← expectClosing F.stop .round opened rest
        .ok (call₂ .logBase base x, rest)
      | rest => do
        let rest ← expectClosing F.stop .round opened rest
        .ok (call .log x, rest)) := by
  intro rest h
  split
  · next after =>
    have hafter : F.Passed after := fun t ht => h t (List.mem_cons_of_mem _ ht)
    exact (Clear.of_reads ((readsAll F.stop calls).sum after) hafter).bind fun base _ =>
      clear_closing .round opened (call₂ .logBase base x)
  · exact clear_closing .round opened (call .log x) h

/-- A logarithm may have its base behind a comma. -/
theorem ForetellsAll.foretold_log (h : F.Meets done ts ts')
    (hdue : ArgumentDue (symbolsOf done)) :
    F.Foretold (Expr.worded F.stop (calls + 1) (.unary .log) ts)
      (Expr.worded stop' (calls + 1) (.unary .log) ts') := by
  have hread := readsAll F.stop calls
  have hplain := (ih.argument (.unary .log) h hdue).map (call .log)
  obtain ⟨⟨symbol, p, a⟩, us, us', rfl, rfl, hus⟩ := h.exists_cons
  cases symbol with
  | opening b =>
    cases b with
    | round =>
      rcases hus with hus | hus
      · refine (ih.sum hus).bind hus (hread.sum us) (fun x _ => clear_logEnd calls p x)
          fun x _ _ _ _ _ _ h => ?_
        have hclosing := foretold_closing stop' .round p (call .log x) h
        obtain ⟨⟨symbol, q, b⟩, vs, vs', rfl, rfl, hvs⟩ := h.exists_cons
        cases symbol with
        | comma =>
          rcases hvs with hvs | hvs
          · exact (ih.sum hvs).bind hvs (hread.sum vs)
              (fun base _ => clear_closing .round p (call₂ .logBase base x))
              fun base _ _ _ _ _ _ h => foretold_closing stop' .round p (call₂ .logBase base x) h
          · exact .clear ((Clear.of_reads (hread.sum vs) hvs).bind fun base _ =>
              clear_closing .round p (call₂ .logBase base x)) _
        | _ => exact hclosing
      · exact .clear ((Clear.of_reads (hread.sum us) hus).bind fun x _ =>
          clear_logEnd calls p x) _
    | _ => exact hplain
  | _ => exact hplain

theorem ForetellsAll.succ_worded (w : Word) (h : F.Meets done ts ts')
    (hw : ∃ before, symbolsOf done = before ++ [.word w]) :
    F.Foretold (Expr.worded F.stop (calls + 1) w ts) (Expr.worded stop' (calls + 1) w ts') := by
  have hread := readsAll F.stop calls
  obtain ⟨before, hdone⟩ := hw
  cases w with
  | constant c => exact h.ok _
  | fraction =>
    refine (ih.requiredGroup .curly .fraction h).bind h (hread.requiredGroup .curly .fraction ts)
      (fun x rest hrest => ?_) fun x _ _ _ _ _ _ h => ?_
    · exact (Clear.of_reads (hread.requiredGroup .curly .fraction rest) hrest).map (fraction x)
    · exact (ih.requiredGroup .curly .fraction h).map (fraction x)
  | absolute => exact (ih.argument .absolute h (hdone ▸ .absolute before)).map abs
  | binary f =>
    refine (ih.requiredGroup .square (.binary f) h).bind h (reads_squareGroup F.stop calls _ ts)
      (fun x rest hrest => ?_) fun x used _ _ hgroup _ _ h => ?_
    · exact (Clear.of_reads (hread.argument (.binary f) rest) hrest).map (call₂ f x)
    · -- The degree or base is read, and the argument is due.
      obtain ⟨content, hcontent, hused⟩ := hgroup
      refine (ih.argument (.binary f) h ?_).map (call₂ f x)
      rw [symbolsOf, List.map_append, ← symbolsOf, ← symbolsOf, hdone, hused, List.append_assoc]
      exact .binary before f hcontent
  | unary f =>
    have hdue : ArgumentDue (symbolsOf done) := hdone ▸ .unary before f
    cases f with
    | log => exact ih.foretold_log h hdue
    | _ => exact (ih.argument _ h hdue).map _

omit ih in
theorem foretellsAll (F : Fork) (stop' : Nat) : ∀ calls, ForetellsAll F stop' calls
  | 0 => .zero
  | calls + 1 =>
    have ih := foretellsAll F stop' calls
    ⟨ih.succ_sum, ih.succ_term, ih.succ_signed, ih.succ_raised, ih.succ_postfixed, ih.succ_factor,
      fun w _ _ _ => ih.succ_worded w, fun w _ _ _ => ih.succ_argument w, ih.succ_requiredGroup,
      ih.succ_group⟩

end Functions

/-! ### Whole texts -/

/-- A fault at the common token is found in both rows. -/
theorem ofTokensWithin_error_congr (F : Fork) {text : Text} (hstop : F.stop = text.length)
    (calls : Nat) (text' : Text) {f : ReadFault}
    (h : ofTokensWithin calls text (F.before ++ F.token :: F.after) = .error f)
    (hf : f.position? = some F.token.position) :
    ∃ f', ofTokensWithin calls text' (F.before ++ F.token :: F.after') = .error f' ∧
      f'.code = f.code ∧ f'.position? = some F.token.position := by
  have hmeets : F.Meets [] (F.before ++ F.token :: F.after) (F.before ++ F.token :: F.after') :=
    ⟨F.before, rfl, rfl, rfl⟩
  have hsum := (foretellsAll F text'.length calls).sum hmeets
  have hempty : ∀ later, (F.before ++ F.token :: later).isEmpty = false := fun later =>
    List.isEmpty_eq_false_iff.mpr (List.append_ne_nil_of_right_ne_nil _ (List.cons_ne_nil _ _))
  unfold ofTokensWithin at h ⊢
  rw [hempty, ← hstop] at h
  rw [hempty]
  generalize sum F.stop calls _ = r, sum text'.length calls _ = r' at h hsum
  cases hsum with
  | ok x ahead =>
    -- An expression ends before the token, and the next token is too much.
    cases ahead with
    | nil =>
      obtain rfl := Except.error.inj h
      exact ⟨_, rfl, rfl, rfl⟩
    | cons t ahead =>
      obtain rfl := Except.error.inj h
      exact ⟨_, rfl, rfl, hf⟩
  | @fault f₁ f₁' hcode hposition =>
    obtain rfl := Except.error.inj h
    exact ⟨f₁', rfl, hcode.symm, hposition.symm.trans hf⟩
  | clear hr =>
    exfalso
    cases hr with
    | @ok x rest hrest =>
      cases rest with
      | nil => cases h
      | cons t rest =>
        obtain rfl := Except.error.inj h
        exact hrest t (List.mem_cons_self ..) (Option.some.inj hf)
    | error hne =>
      obtain rfl := Except.error.inj h
      exact hne hf

section Texts

variable {text text' : Text} {before after after' : List Token} {token : Token}

/-- The tokens of two texts that part behind a common token. -/
def forkOfTokens (h : tokens text = .ok (before ++ token :: after)) (after' : List Token)
    (halike : token.symbol = .operator .caret → ArgumentDue (symbolsOf before) →
      (symbolsOf after).take 2 = (symbolsOf after').take 2) : Fork where
  before := before
  token := token
  after := after
  after' := after'
  stop := text.length
  apart_before t ht := by
    have hne := (standsIn_of_mem_tokensFrom h (List.mem_append_left _ ht)).2.1
    have hlength := List.length_pos_iff.mpr hne
    have hapart := (List.pairwise_append.mp (tiles_of_tokensFrom h).apart).2.2 t ht token
      (List.mem_cons_self ..)
    omega
  apart_after t ht := by
    have hmem : token ∈ before ++ token :: after := List.mem_append_right _ (List.mem_cons_self ..)
    have hlength := List.length_pos_iff.mpr (standsIn_of_mem_tokensFrom h hmem).2.1
    have hapart := List.rel_of_pairwise_cons
      (List.pairwise_append.mp (tiles_of_tokensFrom h).apart).2.1 ht
    omega
  stop_ne := by
    have hmem : token ∈ before ++ token :: after := List.mem_append_right _ (List.mem_cons_self ..)
    have hlt := (standsIn_of_mem_tokensFrom h hmem).position_lt
    omega
  alike := halike

/-- **The first token that does not fit.** If a text has a fault at one of its
tokens, a text with the same tokens up to that one has a fault of the same code at
the same place, whatever follows. Where the token is a `^` and the argument of a
function is due, the next two symbols must be the same too. -/
theorem parse_first_fault (h : tokens text = .ok (before ++ token :: after))
    (h' : tokens text' = .ok (before ++ token :: after'))
    (halike : token.symbol = .operator .caret → ArgumentDue (symbolsOf before) →
      (symbolsOf after).take 2 = (symbolsOf after').take 2)
    {f : ReadFault} (hf : parse text = .error f) (hposition : f.position? = some token.position) :
    ∃ f', parse text' = .error f' ∧ f'.code = f.code ∧ f'.position? = some token.position := by
  have hread : parse text = ofTokensWithin callLimit text (before ++ token :: after) := by
    rw [parse, parseWithin, h]
    rfl
  have hread' : parse text' = ofTokensWithin callLimit text' (before ++ token :: after') := by
    rw [parse, parseWithin, h']
    rfl
  rw [hread] at hf
  rw [hread']
  exact ofTokensWithin_error_congr (forkOfTokens h after' halike) rfl callLimit text' hf hposition

/-- Whether a text has a given fault can be computed. -/
instance decidableEqError (f : ReadFault) : (r : Except ReadFault Expr) → Decidable (r = .error f)
  | .ok _ => .isFalse nofun
  | .error _ => decidable_of_iff _ ⟨congrArg _, Except.error.inj⟩

/-- The tokens of `nthroot[3]`. -/
def cubeRootTokens : List Token :=
  [⟨.word (.binary .nthroot), 0, false⟩, ⟨.opening .square, 7, false⟩,
    ⟨.number ⟨['3'], false, [], none⟩, 8, false⟩, ⟨.closing .square, 9, true⟩]

/-- The `^` in the place of the argument of `nthroot[3]`. -/
def cubeRootCaret : Token := ⟨.operator .caret, 10, false⟩

/-- A sign and a digit behind the `^` are the same, and the rest is not. -/
theorem parse_first_fault_caret :
    ∃ after after', tokens "nthroot[3]^-2+1".toList =
        .ok (cubeRootTokens ++ cubeRootCaret :: after) ∧
      tokens "nthroot[3]^-2)/".toList = .ok (cubeRootTokens ++ cubeRootCaret :: after') ∧
      ∃ f', parse "nthroot[3]^-2)/".toList = .error f' ∧ f'.code = .ambiguousExponent ∧
        f'.position? = some 10 := by
  have h : tokens "nthroot[3]^-2+1".toList = .ok (cubeRootTokens ++ cubeRootCaret ::
      ((tokens "nthroot[3]^-2+1".toList).toOption.getD []).drop 5) := by decide +kernel
  have h' : tokens "nthroot[3]^-2)/".toList = .ok (cubeRootTokens ++ cubeRootCaret ::
      ((tokens "nthroot[3]^-2)/".toList).toOption.getD []).drop 5) := by decide +kernel
  have hf : parse "nthroot[3]^-2+1".toList =
      .error (.blocked (.ambiguousExponent "nthroot") 10) := by decide +kernel
  exact ⟨_, _, h, h', parse_first_fault h h' (fun _ _ => by decide +kernel) hf rfl⟩

/-- The place of an argument is not only directly behind a name. -/
theorem not_parse_first_fault_of_names :
    ¬ ∀ {text text' : Text} {before after after' : List Token} {token : Token},
      tokens text = .ok (before ++ token :: after) →
      tokens text' = .ok (before ++ token :: after') →
      (token.symbol = .operator .caret → (∃ w, (symbolsOf before).getLast? = some (.word w)) →
        (symbolsOf after).take 2 = (symbolsOf after').take 2) →
      ∀ {f : ReadFault}, parse text = .error f → f.position? = some token.position →
        ∃ f', parse text' = .error f' ∧ f'.code = f.code ∧
          f'.position? = some token.position := by
  intro hall
  have h : tokens "nthroot[3]^-2".toList = .ok (cubeRootTokens ++ cubeRootCaret ::
      ((tokens "nthroot[3]^-2".toList).toOption.getD []).drop 5) := by decide +kernel
  have h' : tokens "nthroot[3]^2".toList = .ok (cubeRootTokens ++ cubeRootCaret ::
      ((tokens "nthroot[3]^2".toList).toOption.getD []).drop 5) := by decide +kernel
  have hf : parse "nthroot[3]^-2".toList =
      .error (.blocked (.ambiguousExponent "nthroot") 10) := by decide +kernel
  have hf' : parse "nthroot[3]^2".toList =
      .error (.blocked (.missingArgument "nthroot") 10) := by decide +kernel
  have hname : ¬ ∃ w, (symbolsOf cubeRootTokens).getLast? = some (.word w) := by
    rintro ⟨w, hw⟩
    cases hw
  obtain ⟨f', hparse, hcode, -⟩ := hall h h' (fun _ hw => absurd hw hname) hf rfl
  obtain rfl := Except.error.inj (hf'.symm.trans hparse)
  cases hcode

end Texts

end Expr
end NumericAnswer
