/-
# What is written reads back

The parser reads a written expression back, with the brackets that its grammar
demands and no others. Each function of the parser reads what stands in its
slot up to the first token that cannot go on with it; how many calls nest
inside is counted exactly, so the parser fails only on expressions that need
more calls than it may nest.

Key definitions: `Expr.within`, `Level.read`, `Level.Stops`, `ReadsAs`, `Written.calls`.
Key theorems: `ReadsAs.binary`, `ReadsAs.raise`, `Written.readsAs`,
`Written.parseWithin_text`, `Written.parse_text`.
-/
import NumericAnswer.Proofs.Transport
import NumericAnswer.Proofs.Written

namespace NumericAnswer

/-! ### Nested calls -/

section Within

variable {α β : Type}

/-- A result that takes more calls than `needed`. -/
def within (needed calls : Nat) (r : Except ReadFault α) : Except ReadFault α :=
  if needed < calls then r else .error .nestedTooDeeply

@[simp] theorem within_zero (needed : Nat) (r : Except ReadFault α) :
    within needed 0 r = .error .nestedTooDeeply :=
  if_neg (Nat.not_lt_zero needed)

@[simp] theorem within_zero_succ (calls : Nat) (r : Except ReadFault α) :
    within 0 (calls + 1) r = r :=
  if_pos (Nat.zero_lt_succ calls)

@[simp] theorem within_succ (needed calls : Nat) (r : Except ReadFault α) :
    within (needed + 1) (calls + 1) r = within needed calls r := by
  simp only [within, Nat.add_lt_add_iff_right]

@[simp] theorem within_bind (needed calls : Nat) (r : Except ReadFault α)
    (next : α → Except ReadFault β) :
    (within needed calls r >>= next) = within needed calls (r >>= next) := by
  unfold within
  split <;> rfl

theorem within_within (needed needed' calls : Nat) (r : Except ReadFault α) :
    within needed calls (within needed' calls r) = within (max needed needed') calls r := by
  simp only [within, Nat.max_lt]
  by_cases h : needed < calls <;> by_cases h' : needed' < calls <;> simp [h, h']

end Within

/-- A loop does not depend on its bound if no round of it reads nothing. -/
theorem Expr.extend_congr {step : Expr → List Token → Option (Except ReadFault (Expr × List Token))}
    (hnil : ∀ x, step x [] = none)
    (hstep : ∀ {x ts y rest}, step x ts = some (.ok (y, rest)) → rest.length < ts.length) :
    ∀ {bound bound' : Nat} {x : Expr} {ts : List Token}, ts.length ≤ bound → ts.length ≤ bound' →
      extend step bound x ts = extend step bound' x ts
  | bound, bound', x, [], _, _ => by rw [extend_of_none (hnil x), extend_of_none (hnil x)]
  | 0, _, x, token :: ts, h, _ => by simp at h
  | _ + 1, 0, x, token :: ts, _, h => by simp at h
  | bound + 1, bound' + 1, x, token :: ts, h, h' => by
    unfold extend
    cases hs : step x (token :: ts) with
    | none => rfl
    | some r =>
      cases r with
      | error f => rfl
      | ok p =>
        have hlt := hstep hs
        simp only [List.length_cons] at h h' hlt
        exact extend_congr hnil hstep (by omega) (by omega)

open NumericAnswer.Expr (extend)

/-! ### Slots of the parser -/

/-- The lowest rank of a slot that the symbol ends. -/
def Symbol.rank : Symbol → Nat
  | .closing _ | .comma => 0
  | .operator .plus | .operator .minus => 1
  | .operator .times | .operator .divide => 2
  | .operator .caret => 4
  | .operator .bang => 5
  | _ => 6

/-- What follows a power follows a signed one. -/
theorem Symbol.rank_ne_three (s : Symbol) : s.rank ≠ 3 := by
  cases s with
  | operator o => cases o <;> decide
  | _ => simp [rank]

namespace Level

/-- The tokens cannot go on with what stands in the slot. -/
def Stops (l : Level) (rest : List Token) : Prop :=
  ∀ token ∈ rest.head?, token.symbol.rank ≤ l.rank

theorem Stops.nil (l : Level) : l.Stops [] := by
  intro token h
  cases h

theorem Stops.mono {l l' : Level} {rest : List Token} (h : l.Stops rest) (hl : l.rank ≤ l'.rank) :
    l'.Stops rest :=
  fun token ht => Nat.le_trans (h token ht) hl

theorem Stops.cons {l : Level} {token : Token} (h : token.symbol.rank ≤ l.rank)
    (rest : List Token) : l.Stops (token :: rest) := by
  intro t ht
  obtain rfl := Option.some.inj ht
  exact h

theorem Stops.signed {rest : List Token} (h : raised.Stops rest) : signed.Stops rest := by
  intro token ht
  have hle : token.symbol.rank ≤ 3 := h token ht
  have hne := token.symbol.rank_ne_three
  show token.symbol.rank ≤ 2
  omega

variable (stop : Nat)

/-- The function of the parser that reads what stands in the slot. -/
def read : Level → Nat → List Token → Except ReadFault (Expr × List Token)
  | sum => Expr.sum stop
  | term => Expr.term stop
  | signed => Expr.signed stop
  | raised => Expr.raised stop
  | postfixed => Expr.postfixed stop
  | factor => Expr.factor stop

/-- How that function goes on once it has read a part. -/
def resume : Level → Nat → Expr → List Token → Except ReadFault (Expr × List Token)
  | sum, calls + 1, x, rest => extend (Expr.sumStep (Expr.term stop calls)) rest.length x rest
  | term, calls + 1, x, rest =>
    extend (Expr.termStep (Expr.signed stop calls) (Expr.raised stop calls)) rest.length x rest
  | postfixed, _, x, rest => extend Expr.postfixStep rest.length x rest
  | _, _, x, rest => .ok (x, rest)

/-- What may follow a part that is read in the slot. -/
def follower : Level → Level
  | sum => term
  | term => signed
  | signed => signed
  | raised => raised
  | postfixed | factor => factor

theorem rank_le_rank_follower (l : Level) : l.rank ≤ l.follower.rank := by
  cases l <;> decide

variable {stop}

theorem resume_of_stops {l : Level} {rest : List Token} (h : l.Stops rest) (calls : Nat) (x : Expr) :
    l.resume stop calls x rest = .ok (x, rest) := by
  have hne : ∀ {s : Symbol} {token ts}, rest = token :: ts → token.symbol = s → s.rank ≤ l.rank := by
    rintro s token ts rfl rfl
    exact h token rfl
  cases l with
  | sum =>
    cases calls with
    | zero => rfl
    | succ calls =>
      refine Expr.extend_of_none ?_ _
      unfold Expr.sumStep
      split
      · exact absurd (@hne (.operator .plus) _ _ rfl rfl) (by decide)
      · exact absurd (@hne (.operator .minus) _ _ rfl rfl) (by decide)
      · rfl
  | term =>
    cases calls with
    | zero => rfl
    | succ calls =>
      refine Expr.extend_of_none ?_ _
      unfold Expr.termStep
      split
      · rfl
      · next token ts =>
        have hrank := h token rfl
        split
        · next hs => rw [hs] at hrank; exact absurd hrank (by decide)
        · next hs => rw [hs] at hrank; exact absurd hrank (by decide)
        · have hstart : token.symbol.startsOperand = false := by
            cases hs : token.symbol <;> rw [hs] at hrank <;>
              first | rfl | exact absurd hrank (by simp [Symbol.rank, Level.rank])
          simp [hstart]
  | postfixed =>
    refine Expr.extend_of_none ?_ _
    unfold Expr.postfixStep
    split
    · exact absurd (@hne (.operator .bang) _ _ rfl rfl) (by decide)
    · rfl
  | signed | raised | factor => rfl

end Level

/-! ### Reading in a slot -/

/-- Where the symbols stand in the slot, the parser reads them as the expression
and goes on from there, if more calls than `needed` may nest. -/
def ReadsAs (stop : Nat) (l : Level) (us : List Symbol) (needed : Nat) (x : Expr) : Prop :=
  ∀ (calls : Nat) (ts rest : List Token), symbolsOf ts = us → l.follower.Stops rest →
    l.read stop calls (ts ++ rest) = within needed calls (l.resume stop calls x rest)

/-- The symbol begins a factor. -/
def Symbol.beginsFactor : Symbol → Bool
  | .number _ | .word _ | .opening _ => true
  | _ => false

namespace ReadsAs

variable {stop needed needed' : Nat} {us vs : List Symbol} {x y : Expr} {l : Level}

/-- A slot is read up to what cannot go on with it. -/
theorem read (h : ReadsAs stop l us needed x) {ts rest : List Token} (hts : symbolsOf ts = us)
    (hrest : l.Stops rest) (calls : Nat) :
    l.read stop calls (ts ++ rest) = within needed calls (.ok (x, rest)) := by
  rw [h calls ts rest hts (hrest.mono l.rank_le_rank_follower), Level.resume_of_stops hrest]

/-- The tokens of two rows of symbols with a symbol between them. -/
theorem exists_split {ts : List Token} {u : Symbol} (h : symbolsOf ts = us ++ u :: vs) :
    ∃ ts₁ token ts₂, ts = ts₁ ++ token :: ts₂ ∧ symbolsOf ts₁ = us ∧ token.symbol = u ∧
      symbolsOf ts₂ = vs := by
  obtain ⟨ts₁, ts', rfl, hus, h⟩ := List.map_eq_append_iff.mp h
  obtain ⟨token, ts₂, rfl, hu, hvs⟩ := List.map_eq_cons_iff.mp h
  exact ⟨ts₁, token, ts₂, rfl, hus, hu, hvs⟩

theorem exists_cons {ts : List Token} {u : Symbol} (h : symbolsOf ts = u :: us) :
    ∃ token ts', ts = token :: ts' ∧ token.symbol = u ∧ symbolsOf ts' = us :=
  List.map_eq_cons_iff.mp h

/-! #### From a slot to the next lower one -/

theorem sum_of_term (h : ReadsAs stop .term us needed x) :
    ReadsAs stop .sum us (needed + 1) x := by
  intro calls ts rest hts hrest
  cases calls with
  | zero => rw [within_zero]; rfl
  | succ calls =>
    have hx : Expr.term stop calls (ts ++ rest) = _ := h.read hts hrest calls
    show (Expr.term stop calls (ts ++ rest) >>= _) = _
    rw [hx, within_bind, within_succ]
    rfl

theorem term_of_signed (h : ReadsAs stop .signed us needed x) :
    ReadsAs stop .term us (needed + 1) x := by
  intro calls ts rest hts hrest
  cases calls with
  | zero => rw [within_zero]; rfl
  | succ calls =>
    have hx : Expr.signed stop calls (ts ++ rest) = _ := h.read hts hrest calls
    show (Expr.signed stop calls (ts ++ rest) >>= _) = _
    rw [hx, within_bind, within_succ]
    rfl

theorem signed_of_raised (h : ReadsAs stop .raised us needed x)
    (hus : us.head?.any Symbol.beginsFactor = true) : ReadsAs stop .signed us (needed + 1) x := by
  intro calls ts rest hts hrest
  cases calls with
  | zero => rw [within_zero]; rfl
  | succ calls =>
    have hx := h.read hts (hrest.mono (by decide)) calls
    rw [within_succ]
    refine Eq.trans ?_ hx
    cases us with
    | nil => cases hus
    | cons u us =>
      obtain ⟨⟨symbol, position, afterNumber⟩, ts, rfl, rfl, _⟩ := exists_cons hts
      cases symbol with
      | number | word | opening => rfl
      | _ => cases hus

/-- A factor that no factorial sign follows. -/
theorem postfixed_eq {ts rest : List Token}
    (h : ∀ calls, Expr.factor stop calls ts = within needed calls (.ok (x, rest)))
    (hrest : Level.postfixed.Stops rest) (calls : Nat) :
    Expr.postfixed stop calls ts = within (needed + 1) calls (.ok (x, rest)) := by
  cases calls with
  | zero => rw [within_zero]; rfl
  | succ calls =>
    show (Expr.factor stop calls ts >>= _) = _
    rw [h, within_bind, within_succ]
    exact congrArg _ (@Level.resume_of_stops stop .postfixed rest hrest calls x)

/-- A factor that no exponent follows. -/
theorem raised_eq {ts rest : List Token}
    (h : ∀ calls, Expr.postfixed stop calls ts = within needed calls (.ok (x, rest)))
    (hrest : Level.raised.Stops rest) (calls : Nat) :
    Expr.raised stop calls ts = within (needed + 1) calls (.ok (x, rest)) := by
  cases calls with
  | zero => rw [within_zero]; rfl
  | succ calls =>
    show (Expr.postfixed stop calls ts >>= _) = _
    rw [h, within_bind, within_succ]
    refine congrArg (within needed calls) ?_
    simp only [bind, Except.bind]
    split
    · exact absurd (show Symbol.rank (.operator .caret) ≤ Level.raised.rank from hrest _ rfl)
        (by decide)
    · rfl

theorem raised_of_postfixed (h : ReadsAs stop .postfixed us needed x) :
    ReadsAs stop .raised us (needed + 1) x :=
  fun calls _ _ hts hrest => raised_eq (h.read hts (hrest.mono (by decide))) hrest calls

theorem postfixed_of_factor (h : ReadsAs stop .factor us needed x) :
    ReadsAs stop .postfixed us (needed + 1) x := by
  intro calls ts rest hts hrest
  cases calls with
  | zero => rw [within_zero]; rfl
  | succ calls =>
    have hx : Expr.factor stop calls (ts ++ rest) = _ := h.read hts hrest calls
    show (Expr.factor stop calls (ts ++ rest) >>= _) = _
    rw [hx, within_bind, within_succ]
    rfl

/-- The next lower slot. Only a factor, with what goes with it, has no sign. -/
theorem lower (h : ReadsAs stop l us needed x) {l' : Level} (hl : l'.rank + 1 = l.rank)
    (hus : Level.signed.rank < l.rank → us.head?.any Symbol.beginsFactor = true) :
    ReadsAs stop l' us (needed + 1) x := by
  cases l <;> cases l' <;>
    first
      | exact absurd hl (by decide)
      | exact h.sum_of_term
      | exact h.term_of_signed
      | exact h.signed_of_raised (hus (by decide))
      | exact h.raised_of_postfixed
      | exact h.postfixed_of_factor

/-- Every lower slot. -/
theorem raise : ∀ {n : Nat} {l l' : Level} {needed : Nat}, ReadsAs stop l us needed x →
    l'.rank + n = l.rank →
    (Level.signed.rank < l.rank → us.head?.any Symbol.beginsFactor = true) →
    ReadsAs stop l' us (needed + n) x
  | 0, l, l', needed, h, hl, _ => by
    obtain rfl : l' = l := by cases l <;> cases l' <;> first | rfl | cases hl
    exact h
  | n + 1, l, l', needed, h, hl, hus => by
    obtain ⟨m, hm⟩ : ∃ m : Level, m.rank + 1 = l.rank := by
      cases l with
      | sum => exact absurd hl (by simp [Level.rank])
      | term => exact ⟨.sum, rfl⟩
      | signed => exact ⟨.term, rfl⟩
      | raised => exact ⟨.signed, rfl⟩
      | postfixed => exact ⟨.raised, rfl⟩
      | factor => exact ⟨.postfixed, rfl⟩
    have hraise := raise (h.lower hm hus) (show l'.rank + n = m.rank by omega)
      fun hr => hus (by omega)
    rwa [Nat.add_assoc, Nat.add_comm 1 n] at hraise

/-! #### Groups -/

theorem stops_closing {token : Token} {b : Bracket} (h : token.symbol = .closing b) (l : Level)
    (rest : List Token) : l.Stops (token :: rest) :=
  .cons (by rw [h]; exact Nat.zero_le _) rest

theorem expectClosing_eq {token : Token} {b : Bracket} (h : token.symbol = .closing b)
    (opened : Nat) (rest : List Token) :
    Expr.expectClosing stop b opened (token :: rest) = .ok rest := by
  unfold Expr.expectClosing
  exact if_pos h

/-- A group of any type. -/
theorem group (h : ReadsAs stop .sum us needed x) (b : Bracket) {ts : List Token}
    (hts : symbolsOf ts = .opening b :: (us ++ [.closing b])) (calls : Nat) (rest : List Token) :
    Expr.group stop calls (ts ++ rest) = within (needed + 1) calls (.ok (x, rest)) := by
  obtain ⟨⟨_, position, afterNumber⟩, tail, rfl, rfl, htail⟩ := exists_cons hts
  obtain ⟨ts₁, token, _, rfl, hus, hclosing, hnil⟩ := exists_split htail
  obtain rfl := List.map_eq_nil_iff.mp hnil
  cases calls with
  | zero => rw [within_zero]; rfl
  | succ calls =>
    have hx : Expr.sum stop calls (ts₁ ++ (token :: rest)) = _ :=
      h.read hus (stops_closing hclosing _ rest) calls
    rw [List.cons_append, List.append_assoc, List.singleton_append]
    show (Expr.sum stop calls (ts₁ ++ (token :: rest)) >>= _) = _
    rw [hx, within_bind, within_succ]
    simp only [bind, Except.bind, expectClosing_eq hclosing]

theorem factor_group (h : ReadsAs stop .sum us needed x) :
    ReadsAs stop .factor (.opening .round :: (us ++ [.closing .round])) (needed + 2) x := by
  intro calls ts rest hts _
  cases calls with
  | zero => rw [within_zero]; rfl
  | succ calls =>
    show _ = within (needed + 2) (calls + 1) (.ok (x, rest))
    rw [within_succ, ← h.group .round hts]
    obtain ⟨⟨_, position, afterNumber⟩, ts, rfl, rfl, _⟩ := exists_cons hts
    rfl

/-- A required group that has the brackets asked for. -/
theorem requiredGroup (h : ReadsAs stop .sum us needed x) (b : Bracket) (w : Word) {ts : List Token}
    (hts : symbolsOf ts = .opening b :: (us ++ [.closing b])) (calls : Nat) (rest : List Token) :
    Expr.requiredGroup stop calls b w (ts ++ rest) = within (needed + 2) calls (.ok (x, rest)) := by
  cases calls with
  | zero => rw [within_zero]; rfl
  | succ calls =>
    rw [within_succ, ← h.group b hts]
    obtain ⟨⟨_, position, afterNumber⟩, ts, rfl, rfl, _⟩ := exists_cons hts
    cases b <;> rfl

/-- An argument in brackets. -/
theorem argument (h : ReadsAs stop .sum us needed x) (b : Bracket) (w : Word) {ts : List Token}
    (hts : symbolsOf ts = .opening b :: (us ++ [.closing b])) (calls : Nat) (rest : List Token) :
    Expr.argument stop calls w (ts ++ rest) = within (needed + 2) calls (.ok (x, rest)) := by
  cases calls with
  | zero => rw [within_zero]; rfl
  | succ calls =>
    rw [within_succ, ← h.group b hts]
    obtain ⟨⟨_, position, afterNumber⟩, ts, rfl, rfl, _⟩ := exists_cons hts
    rfl

/-- An argument without brackets. -/
theorem bareArgument (h : ReadsAs stop .signed us needed x) (w : Word)
    (hus : us.head?.any (fun u => u.beginsFactor || u == .operator .minus) = true)
    (hopening : ∀ b, us.head? ≠ some (.opening b)) {ts rest : List Token} (hts : symbolsOf ts = us)
    (hrest : Level.signed.Stops rest) (calls : Nat) :
    Expr.argument stop calls w (ts ++ rest) = within (needed + 1) calls (.ok (x, rest)) := by
  cases calls with
  | zero => rw [within_zero]; rfl
  | succ calls =>
    rw [within_succ, ← h.read hts hrest]
    cases us with
    | nil => cases hus
    | cons u us =>
      obtain ⟨⟨symbol, position, afterNumber⟩, ts, rfl, rfl, _⟩ := exists_cons hts
      cases symbol with
      | number | word => rfl
      | opening b => exact absurd rfl (hopening b)
      | operator o =>
        cases o with
        | minus => rfl
        | _ => cases hus
      | _ => cases hus

/-! #### The nodes of expressions -/

theorem number (l : Literal) : ReadsAs stop .factor [.number l] 0 (.number l.value) := by
  intro calls ts rest hts _
  obtain ⟨⟨_, position, afterNumber⟩, ts, rfl, rfl, hnil⟩ := exists_cons hts
  obtain rfl := List.map_eq_nil_iff.mp hnil
  cases calls with
  | zero => rw [within_zero]; rfl
  | succ calls => rw [within_zero_succ]; rfl

theorem factor_eq {w : Word} {position : Nat} {afterNumber : Bool} {ts rest : List Token}
    (h : ∀ calls, Expr.worded stop calls w ts = within needed calls (.ok (x, rest))) (calls : Nat) :
    Expr.factor stop calls (⟨.word w, position, afterNumber⟩ :: ts) =
      within (needed + 1) calls (.ok (x, rest)) := by
  cases calls with
  | zero => rw [within_zero]; rfl
  | succ calls =>
    rw [within_succ]
    exact h calls

/-- A word and what it does with the tokens after it. -/
theorem worded {w : Word}
    (h : ∀ (calls : Nat) (ts rest : List Token), symbolsOf ts = us →
      Expr.worded stop calls w (ts ++ rest) = within needed calls (.ok (x, rest))) :
    ReadsAs stop .factor (.word w :: us) (needed + 1) x := by
  intro calls ts rest hts _
  obtain ⟨⟨_, position, afterNumber⟩, ts, rfl, rfl, hus⟩ := exists_cons hts
  exact factor_eq (fun calls => h calls ts rest hus) calls

theorem constant (c : Constant) :
    ReadsAs stop .factor [.word (.constant c)] 1 (.constant c) := by
  refine worded fun calls ts rest hts => ?_
  obtain rfl := List.map_eq_nil_iff.mp hts
  cases calls with
  | zero => rw [within_zero]; rfl
  | succ calls => rw [within_zero_succ]; rfl

theorem neg (h : ReadsAs stop .signed us needed x) :
    ReadsAs stop .signed (.operator .minus :: us) (needed + 1) x.neg := by
  intro calls ts rest hts hrest
  obtain ⟨⟨_, position, afterNumber⟩, ts, rfl, rfl, hus⟩ := exists_cons hts
  cases calls with
  | zero => rw [within_zero]; rfl
  | succ calls =>
    have hx : Expr.signed stop calls (ts ++ rest) = _ := h.read hus hrest calls
    show (Expr.signed stop calls (ts ++ rest) >>= _) = _
    rw [hx, within_bind, within_succ]
    rfl

theorem factorial (h : ReadsAs stop .postfixed us needed x) :
    ReadsAs stop .postfixed (us ++ [.operator .bang]) needed x.factorial := by
  intro calls ts rest hts hrest
  obtain ⟨ts, ⟨_, position, afterNumber⟩, _, rfl, hus, rfl, hnil⟩ := exists_split hts
  obtain rfl := List.map_eq_nil_iff.mp hnil
  have hx := h calls ts (⟨.operator .bang, position, afterNumber⟩ :: rest) hus
    (.cons (Nat.le_refl _) rest)
  rw [List.append_assoc]
  exact hx

theorem power (hx : ReadsAs stop .postfixed us needed x) (hy : ReadsAs stop .signed vs needed' y) :
    ReadsAs stop .raised (us ++ .operator .caret :: vs) (max needed needed' + 1) (x.power y) := by
  intro calls ts rest hts hrest
  obtain ⟨ts₁, ⟨_, position, afterNumber⟩, ts₂, rfl, hus, rfl, hvs⟩ := exists_split hts
  cases calls with
  | zero => rw [within_zero]; rfl
  | succ calls =>
    have hbase : Expr.postfixed stop calls
        (ts₁ ++ (⟨.operator .caret, position, afterNumber⟩ :: (ts₂ ++ rest))) = _ :=
      hx.read hus (.cons (by simp [Symbol.rank, Level.rank]) _) calls
    have hexponent : Expr.signed stop calls (ts₂ ++ rest) = _ := hy.read hvs (Level.Stops.signed hrest) calls
    rw [List.append_assoc, List.cons_append]
    show (Expr.postfixed stop calls
      (ts₁ ++ (⟨.operator .caret, position, afterNumber⟩ :: (ts₂ ++ rest))) >>= _) = _
    rw [hbase, within_bind, within_succ]
    show within needed calls (Expr.signed stop calls (ts₂ ++ rest) >>= _) = _
    rw [hexponent, within_bind, within_within]
    rfl

/-- A sum or a difference. -/
theorem sum (hx : ReadsAs stop .sum us needed x) (hy : ReadsAs stop .term vs needed' y)
    {o : BinaryOperator} (ho : o.level = .sum) :
    ReadsAs stop .sum (us ++ .operator o.operator :: vs) (max needed (needed' + 1))
      (.binary o x y) := by
  intro calls ts rest hts hrest
  obtain ⟨ts₁, ⟨_, position, afterNumber⟩, ts₂, rfl, hus, rfl, hvs⟩ := exists_split hts
  have hrank : (Symbol.operator o.operator).rank ≤ Level.term.rank := by
    cases o with
    | add | subtract => decide
    | multiply | divide => cases ho
  rw [List.append_assoc, List.cons_append, hx calls ts₁ _ hus (.cons hrank _)]
  cases calls with
  | zero => rw [within_zero, within_zero]
  | succ calls =>
    have hterm : Expr.term stop calls (ts₂ ++ rest) = _ := hy.read hvs hrest calls
    have hround : Level.resume stop .sum (calls + 1) x
        (⟨.operator o.operator, position, afterNumber⟩ :: (ts₂ ++ rest)) =
          (Expr.term stop calls (ts₂ ++ rest) >>= fun p =>
            extend (Expr.sumStep (Expr.term stop calls)) (ts₂ ++ rest).length (.binary o x p.1) p.2) := by
      cases o with
      | add | subtract =>
        show ((Expr.term stop calls (ts₂ ++ rest) >>= _) >>= _) = _
        cases Expr.term stop calls (ts₂ ++ rest) <;> rfl
      | multiply | divide => cases ho
    have hreads := (Expr.readsAll stop calls).term
    have hbound := @Expr.extend_congr (Expr.sumStep (Expr.term stop calls)) (fun _ => rfl)
      (fun hs => Expr.length_lt_of_reads (Expr.reads_sumStep hreads _ _ _ hs))
      (ts₂ ++ rest).length rest.length (.binary o x y) rest (by simp) (Nat.le_refl _)
    rw [hround, hterm, within_bind, ← within_succ needed', within_within]
    exact congrArg _ hbound

/-- A product or a quotient. -/
theorem product (hx : ReadsAs stop .term us needed x) (hy : ReadsAs stop .signed vs needed' y)
    {o : BinaryOperator} (ho : o.level = .term) :
    ReadsAs stop .term (us ++ .operator o.operator :: vs) (max needed (needed' + 1))
      (.binary o x y) := by
  intro calls ts rest hts hrest
  obtain ⟨ts₁, ⟨_, position, afterNumber⟩, ts₂, rfl, hus, rfl, hvs⟩ := exists_split hts
  have hrank : (Symbol.operator o.operator).rank ≤ Level.signed.rank := by
    cases o with
    | add | subtract => cases ho
    | multiply | divide => decide
  rw [List.append_assoc, List.cons_append, hx calls ts₁ _ hus (.cons hrank _)]
  cases calls with
  | zero => rw [within_zero, within_zero]
  | succ calls =>
    have hsigned : Expr.signed stop calls (ts₂ ++ rest) = _ := hy.read hvs hrest calls
    have hround : Level.resume stop .term (calls + 1) x
        (⟨.operator o.operator, position, afterNumber⟩ :: (ts₂ ++ rest)) =
          (Expr.signed stop calls (ts₂ ++ rest) >>= fun p =>
            extend (Expr.termStep (Expr.signed stop calls) (Expr.raised stop calls))
              (ts₂ ++ rest).length (.binary o x p.1) p.2) := by
      cases o with
      | add | subtract => cases ho
      | multiply | divide =>
        show ((Expr.signed stop calls (ts₂ ++ rest) >>= _) >>= _) = _
        cases Expr.signed stop calls (ts₂ ++ rest) <;> rfl
    have hreads := Expr.readsAll stop calls
    have hbound := @Expr.extend_congr (Expr.termStep (Expr.signed stop calls) (Expr.raised stop calls))
      (fun _ => rfl)
      (fun hs => Expr.length_lt_of_reads (Expr.reads_termStep hreads.signed hreads.raised _ _ _ hs))
      (ts₂ ++ rest).length rest.length (.binary o x y) rest (by simp) (Nat.le_refl _)
    rw [hround, hsigned, within_bind, ← within_succ needed', within_within]
    exact congrArg _ hbound

theorem binary {o : BinaryOperator} (hx : ReadsAs stop o.level us needed x)
    (hy : ReadsAs stop o.rightLevel vs needed' y) :
    ReadsAs stop o.level (us ++ .operator o.operator :: vs) (max needed (needed' + 1))
      (.binary o x y) := by
  cases o with
  | add | subtract => exact hx.sum hy rfl
  | multiply | divide => exact hx.product hy rfl

/-- A word that takes a group and something after it. -/
theorem applied₂ {w : Word} {b : Bracket} {g : Expr → Expr → Expr}
    {second : Nat → List Token → Except ReadFault (Expr × List Token)}
    (hw : ∀ calls ts, Expr.worded stop (calls + 1) w ts =
      (Expr.requiredGroup stop calls b w ts >>= fun p =>
        second calls p.2 >>= fun q => .ok (g p.1 q.1, q.2)))
    (hx : ReadsAs stop .sum us needed x)
    (hy : ∀ {ts}, symbolsOf ts = vs → ∀ calls rest,
      second calls (ts ++ rest) = within (needed' + 2) calls (.ok (y, rest))) :
    ReadsAs stop .factor (.word w :: .opening b :: (us ++ .closing b :: vs))
      (max needed needed' + 4) (g x y) := by
  refine worded fun calls ts rest hts => ?_
  have hsplit : symbolsOf ts = (.opening b :: (us ++ [.closing b])) ++ vs := by simpa using hts
  obtain ⟨ts₁, ts₂, rfl, hus, hvs⟩ := List.map_eq_append_iff.mp hsplit
  cases calls with
  | zero => rw [within_zero]; rfl
  | succ calls =>
    rw [List.append_assoc, hw, hx.requiredGroup b w hus, within_bind, within_succ]
    show within (needed + 2) calls (second calls (ts₂ ++ rest) >>= _) = _
    rw [hy hvs, within_bind, within_within, Nat.add_max_add_right]
    rfl

theorem fraction (hx : ReadsAs stop .sum us needed x) (hy : ReadsAs stop .sum vs needed' y) :
    ReadsAs stop .factor (.word .fraction :: .opening .curly :: (us ++
      .closing .curly :: .opening .curly :: (vs ++ [.closing .curly])))
      (max needed needed' + 4) (x.fraction y) :=
  applied₂ (fun _ _ => rfl) hx (hy.requiredGroup .curly .fraction)

theorem call₂ (hx : ReadsAs stop .sum us needed x) (hy : ReadsAs stop .sum vs needed' y)
    (f : BinaryFunction) :
    ReadsAs stop .factor (.word (.binary f) :: .opening .square :: (us ++
      .closing .square :: .opening .curly :: (vs ++ [.closing .curly])))
      (max needed needed' + 4) (x.call₂ f y) :=
  applied₂ (fun _ _ => rfl) hx (hy.argument .curly (.binary f))

/-- A word that takes one argument, whichever way that is read. -/
theorem applied {w : Word} {g : Expr → Expr} {ts rest : List Token}
    (hw : ∀ calls, Expr.worded stop (calls + 1) w ts =
      (Expr.argument stop calls w ts >>= fun p => .ok (g p.1, p.2)))
    (hx : ∀ calls, Expr.argument stop calls w ts = within needed calls (.ok (x, rest)))
    (calls : Nat) :
    Expr.worded stop calls w ts = within (needed + 1) calls (.ok (g x, rest)) := by
  cases calls with
  | zero => rw [within_zero]; rfl
  | succ calls =>
    rw [hw, hx, within_bind, within_succ]
    rfl

theorem abs (h : ReadsAs stop .sum us needed x) :
    ReadsAs stop .factor (.word .absolute :: .opening .round :: (us ++ [.closing .round]))
      (needed + 4) x.abs :=
  worded fun calls _ rest hts =>
    applied (fun _ => rfl) (fun calls => h.argument .round .absolute hts calls rest) calls

/-- The calls that nest between a call with brackets and its argument. -/
def callCost : UnaryFunction → Nat
  | .log => 2
  | _ => 4

theorem log (h : ReadsAs stop .sum us needed x) :
    ReadsAs stop .factor (.word (.unary .log) :: .opening .round :: (us ++ [.closing .round]))
      (needed + 2) (x.call .log) := by
  refine worded fun calls ts rest hts => ?_
  obtain ⟨⟨_, position, afterNumber⟩, tail, rfl, rfl, htail⟩ := exists_cons hts
  obtain ⟨ts₁, ⟨_, position', afterNumber'⟩, _, rfl, hus, rfl, hnil⟩ := exists_split htail
  obtain rfl := List.map_eq_nil_iff.mp hnil
  cases calls with
  | zero => rw [within_zero]; rfl
  | succ calls =>
    have hx : Expr.sum stop calls
        (ts₁ ++ (⟨.closing .round, position', afterNumber'⟩ :: rest)) = _ :=
      h.read hus (stops_closing rfl _ rest) calls
    rw [List.cons_append, List.append_assoc, List.singleton_append]
    show (Expr.sum stop calls
      (ts₁ ++ (⟨.closing .round, position', afterNumber'⟩ :: rest)) >>= _) = _
    rw [hx, within_bind, within_succ]
    rfl

/-- A call with brackets. -/
theorem call (h : ReadsAs stop .sum us needed x) (f : UnaryFunction) :
    ReadsAs stop .factor (.word (.unary f) :: .opening .round :: (us ++ [.closing .round]))
      (needed + callCost f) (x.call f) := by
  cases f with
  | log => exact h.log
  | _ =>
    exact worded fun calls _ rest hts =>
      applied (fun _ => rfl) (fun calls => h.argument .round _ hts calls rest) calls

/-- A call without brackets. -/
theorem bareCall (h : ReadsAs stop .signed us needed x) (f : UnaryFunction)
    (hus : us.head?.any (fun u => u.beginsFactor || u == .operator .minus) = true)
    (hopening : ∀ b, us.head? ≠ some (.opening b)) :
    ReadsAs stop .raised (.word (.unary f) :: us) (needed + 5) (x.call f) := by
  intro calls ts rest hts hrest
  obtain ⟨⟨_, position, afterNumber⟩, tail, rfl, rfl, htail⟩ := exists_cons hts
  have hargument := h.bareArgument (.unary f) hus hopening htail (Level.Stops.signed hrest)
  have hlog : ∀ calls, Expr.worded stop (calls + 1) (.unary f) (tail ++ rest) =
      (Expr.argument stop calls (.unary f) (tail ++ rest) >>= fun p =>
        .ok (p.1.call f, p.2)) := by
    intro calls
    cases f with
    | log =>
      cases us with
      | nil => cases hus
      | cons u us =>
        obtain ⟨⟨symbol, position, afterNumber⟩, tail, rfl, rfl, _⟩ := exists_cons htail
        cases symbol with
        | opening b => exact absurd rfl (hopening b)
        | _ => rfl
    | _ => rfl
  refine raised_eq (postfixed_eq (factor_eq (applied hlog hargument)) (hrest.mono ?_)) hrest calls
  decide

end ReadsAs

namespace Written

/-! ### How what is written begins -/

theorem opensGroup_append {s : Text} (h : opensGroup s = true) (t : Text) :
    opensGroup (s ++ t) = true := by
  cases s with
  | nil => cases h
  | cons c s => exact h

/-- How what stands in a slot begins: with a factor, or with a minus if the
slot admits signs; and its text shows an opening bracket. -/
def Begins (slot : Level) (us : List Symbol) (s : Text) : Prop :=
  ∃ u vs, us = u :: vs ∧
    (u.beginsFactor = true ∨ u = .operator .minus ∧ slot.rank ≤ Level.signed.rank) ∧
    ((∃ b, u = .opening b) → opensGroup s = true)

theorem Begins.append {slot l : Level} {us : List Symbol} {s : Text} (h : Begins slot us s)
    (hl : slot.rank ≤ Level.signed.rank → l.rank ≤ Level.signed.rank) (vs : List Symbol) (t : Text) :
    Begins l (us ++ vs) (s ++ t) := by
  obtain ⟨u, us, rfl, hu, ho⟩ := h
  exact ⟨u, us ++ vs, rfl, hu.imp id fun hm => ⟨hm.1, hl hm.2⟩, fun hb => opensGroup_append (ho hb) t⟩

/-- What begins with a factor that is no group. -/
theorem Begins.of_factor {u : Symbol} (hu : u.beginsFactor = true) (hb : ∀ b, u ≠ .opening b)
    (slot : Level) (us : List Symbol) (s : Text) : Begins slot (u :: us) s :=
  ⟨u, us, rfl, .inl hu, fun ⟨b, h⟩ => absurd h (hb b)⟩

theorem begins_fit {x : Written} (h : Begins x.level x.symbols x.render.2) (slot : Level) :
    Begins slot (x.symbolsAt slot) (x.textAt slot) := by
  unfold symbolsAt textAt fitSymbols fit level at *
  by_cases hl : x.render.1.rank < slot.rank
  · simp only [if_pos hl]
    exact ⟨_, _, rfl, .inl rfl, fun _ => rfl⟩
  · simp only [if_neg hl]
    obtain ⟨u, us, hus, hu, ho⟩ := h
    exact ⟨u, us, hus, hu.imp id fun hm => ⟨hm.1, by omega⟩, ho⟩

theorem begins_render : ∀ x : Written, Begins x.level x.symbols x.render.2
  | number _ _ | constant _ | abs _ | fraction _ _ | call₂ _ _ _ =>
    .of_factor rfl (by simp) _ _ _
  | neg _ => ⟨_, _, rfl, .inr ⟨rfl, Nat.le_refl _⟩, by simp⟩
  | factorial x => (begins_fit (begins_render x) .postfixed).append (fun h => absurd h (by decide)) _ _
  | binary o x _ => (begins_fit (begins_render x) o.level).append id _ _
  | power x _ => (begins_fit (begins_render x) .postfixed).append (fun h => absurd h (by decide)) _ _
  | call f bare x => by
    rw [symbols]
    split <;> exact .of_factor rfl (by simp) _ _ _

theorem begins_textAt (slot : Level) (x : Written) :
    Begins slot (x.symbolsAt slot) (x.textAt slot) :=
  begins_fit (begins_render x) slot

/-! ### Reading back -/

/-- The calls that nest in a slot where something of a level takes `needed`. -/
def fitCalls (slot level : Level) (needed : Nat) : Nat :=
  if level.rank < slot.rank then needed + level.rank + 2 + (Level.factor.rank - slot.rank)
  else needed + (level.rank - slot.rank)

/-- The calls that nest in the one that reads the expression on its level. -/
def calls : Written → Nat
  | number _ _ => 0
  | constant _ => 1
  | neg x => fitCalls .signed x.level x.calls + 1
  | abs x => fitCalls .sum x.level x.calls + 4
  | factorial x => fitCalls .postfixed x.level x.calls
  | binary o x y =>
    max (fitCalls o.level x.level x.calls) (fitCalls o.rightLevel y.level y.calls + 1)
  | fraction x y => max (fitCalls .sum x.level x.calls) (fitCalls .sum y.level y.calls) + 4
  | power x y => max (fitCalls .postfixed x.level x.calls) (fitCalls .signed y.level y.calls) + 1
  | call f bare x =>
    if isBare bare x then fitCalls .signed x.level x.calls + 5
    else fitCalls .sum x.level x.calls + ReadsAs.callCost f
  | call₂ _ x y => max (fitCalls .sum x.level x.calls) (fitCalls .sum y.level y.calls) + 4

/-- The calls that nest in the one that reads the expression in a slot. -/
def callsAt (slot : Level) (x : Written) : Nat :=
  fitCalls slot x.level x.calls

variable {stop : Nat}

/-- What is read on its level is read in every slot. -/
theorem readsAs_fit {x : Written} (h : ReadsAs stop x.level x.symbols x.calls x.toExpr)
    (slot : Level) : ReadsAs stop slot (x.symbolsAt slot) (x.callsAt slot) x.toExpr := by
  have hbegins : Level.signed.rank < x.level.rank →
      x.symbols.head?.any Symbol.beginsFactor = true := by
    intro hl
    obtain ⟨u, us, hus, hu | hu, _⟩ := begins_render x
    · rw [hus]
      exact hu
    · omega
  unfold symbolsAt callsAt fitSymbols fitCalls
  split
  · have hsum : ReadsAs stop .sum x.symbols (x.calls + x.level.rank) x.toExpr :=
      h.raise (by simp [Level.rank]) hbegins
    refine hsum.factor_group.raise ?_ fun _ => rfl
    cases slot <;> decide
  · exact h.raise (by omega) hbegins

theorem level_call (f : UnaryFunction) (bare : Bool) (x : Written) :
    (call f bare x).level = if isBare bare x then .raised else .factor := by
  rw [level, render_call]
  split <;> rfl

/-- Every expression is read back on its level. -/
theorem readsAs : ∀ x : Written, ReadsAs stop x.level x.symbols x.calls x.toExpr
  | number l _ => .number l
  | constant c => .constant c
  | neg x => (readsAs_fit (readsAs x) .signed).neg
  | abs x => (readsAs_fit (readsAs x) .sum).abs
  | factorial x => (readsAs_fit (readsAs x) .postfixed).factorial
  | binary o x y => (readsAs_fit (readsAs x) o.level).binary (readsAs_fit (readsAs y) o.rightLevel)
  | fraction x y => (readsAs_fit (readsAs x) .sum).fraction (readsAs_fit (readsAs y) .sum)
  | power x y => (readsAs_fit (readsAs x) .postfixed).power (readsAs_fit (readsAs y) .signed)
  | call f bare x => by
    rw [level_call, symbols, calls]
    cases hbare : isBare bare x with
    | true =>
      obtain ⟨u, us, hus, hu, ho⟩ := begins_textAt .signed x
      refine (readsAs_fit (readsAs x) .signed).bareCall f ?_ ?_
      · rw [hus]
        rcases hu with hu | ⟨rfl, _⟩
        · simp [hu]
        · rfl
      · intro b hb
        rw [hus] at hb
        have hopens := ho ⟨b, Option.some.inj hb⟩
        simp [isBare, hopens] at hbare
    | false => exact (readsAs_fit (readsAs x) .sum).call f
  | call₂ f x y => (readsAs_fit (readsAs x) .sum).call₂ (readsAs_fit (readsAs y) .sum) f

/-- What is written is read back if so many calls may nest, and else the parser
stops at the limit. -/
theorem parseWithin_text (x : Written) (limit : Nat) :
    Expr.parseWithin limit x.text = within (x.callsAt .sum) limit (.ok x.toExpr) := by
  obtain ⟨ts, hts, hsymbols⟩ := x.exists_tokens_text
  have hreads : ReadsAs x.text.length .sum (x.symbolsAt .sum) (x.callsAt .sum) x.toExpr :=
    readsAs_fit (readsAs x) .sum
  have hread := hreads.read (by rw [symbolsAt, fitSymbols_sum]; exact hsymbols) (.nil _) limit
  have hne : ts.isEmpty = false := by
    obtain ⟨u, us, hus, _⟩ := begins_render x
    cases ts with
    | nil =>
      rw [hus] at hsymbols
      cases hsymbols
    | cons token ts => rfl
  rw [List.append_nil] at hread
  show (tokens x.text >>= _) = _
  rw [hts]
  show Expr.ofTokensWithin limit x.text ts = _
  unfold Expr.ofTokensWithin
  rw [hne]
  show (Expr.sum x.text.length limit ts >>= _) = _
  rw [show Expr.sum x.text.length limit ts = _ from hread, within_bind]
  rfl

/-! ### The limit -/

/-- An expression with minus signs before it. -/
def signs (x : Written) : Nat → Written
  | 0 => x
  | n + 1 => neg (signs x n)

theorem text_signs {x : Written} (h : Level.signed.rank ≤ x.level.rank) :
    ∀ n, (signs x n).text = List.replicate n '-' ++ x.text ∧
      Level.signed.rank ≤ (signs x n).level.rank
  | 0 => ⟨rfl, h⟩
  | n + 1 => by
    obtain ⟨htext, hlevel⟩ := text_signs h n
    have hfit : (signs x n).textAt .signed = (signs x n).text :=
      (textAt_of_le hlevel).trans (textAt_of_le (Nat.zero_le _)).symm
    refine ⟨?_, Nat.le_refl _⟩
    show '-' :: (signs x n).textAt .signed = _
    rw [hfit, htext]
    rfl

/-- The number 1. -/
def one : Written :=
  number ⟨['1'], false, [], none⟩ rfl

end Written
end NumericAnswer
