/-
# Answers in the slots of the parser

Tokens that the parser reads as a sum fill any slot of the grammar in brackets,
and what is composed of them fills one again: the parser reads it up to the
first token that cannot go on with it, if some more calls may nest.

Key definitions: `ReadsShapes`, `Fills`.
Key theorems: `Fills.of_sum`, `Fills.group`, `Fills.call`, `Fills.bareCall`,
`Fills.call₂`, `Fills.power`.
-/
import NumericAnswer.Proofs.Rereading

namespace NumericAnswer

/-- The shape of a symbol that is no number right after another one. -/
def lone (symbol : Symbol) : Symbol × Bool :=
  (symbol, false)

/-- The tokens of a text in brackets. -/
def grouped (b : Bracket) (us : List (Symbol × Bool)) : List (Symbol × Bool) :=
  lone (.opening b) :: (us ++ [lone (.closing b)])

/-- Within `calls` calls, or more, the function reads tokens of these shapes as the
expression, before tokens with the property. -/
def ReadsShapes (read : Nat → List Token → Except ReadFault (Expr × List Token))
    (before : List Token → Prop) (calls : Nat) (us : List (Symbol × Bool)) (x : Expr) : Prop :=
  ∀ ⦃calls' : Nat⦄ ⦃ts rest : List Token⦄, calls ≤ calls' → ts.map Token.shape = us →
    before rest → read calls' (ts ++ rest) = .ok (x, rest)

/-- Tokens of these shapes fill the slot. -/
def Fills (stop : Nat) (l : Level) : Nat → List (Symbol × Bool) → Expr → Prop :=
  ReadsShapes (l.read stop) l.Stops

/-- What follows a slot for a sum ends everything before it. -/
theorem Level.Stops.ends {rest : List Token} (h : Level.sum.Stops rest) : Ends rest := by
  intro token ht
  have hrank := h token ht
  cases hs : token.symbol with
  | closing b => exact .inr ⟨b, rfl⟩
  | comma => exact .inl rfl
  | operator o =>
    rw [hs] at hrank
    cases o <;> exact absurd hrank (by decide)
  | _ =>
    rw [hs] at hrank
    exact absurd hrank (by simp [Symbol.rank, Level.rank])

section Shapes

variable {ts : List Token} {u : Symbol × Bool} {us vs : List (Symbol × Bool)}

theorem exists_cons_of_shapes (h : ts.map Token.shape = u :: us) :
    ∃ token ts', ts = token :: ts' ∧ token.symbol = u.1 ∧ ts'.map Token.shape = us := by
  obtain ⟨token, ts', rfl, hu, hus⟩ := List.map_eq_cons_iff.mp h
  exact ⟨token, ts', rfl, congrArg Prod.fst hu, hus⟩

/-- Tokens whose first shape is that of a symbol alone. -/
theorem exists_cons_of_lone {symbol : Symbol} (h : ts.map Token.shape = lone symbol :: us) :
    ∃ position afterNumber ts', ts = ⟨symbol, position, afterNumber⟩ :: ts' ∧
      ts'.map Token.shape = us := by
  obtain ⟨⟨_, position, afterNumber⟩, ts', rfl, rfl, hus⟩ := exists_cons_of_shapes h
  exact ⟨position, afterNumber, ts', rfl, hus⟩

theorem exists_append_of_shapes (h : ts.map Token.shape = us ++ vs) :
    ∃ ts₁ ts₂, ts = ts₁ ++ ts₂ ∧ ts₁.map Token.shape = us ∧ ts₂.map Token.shape = vs := by
  obtain ⟨ts₁, ts₂, rfl, hus, hvs⟩ := List.map_eq_append_iff.mp h
  exact ⟨ts₁, ts₂, rfl, hus, hvs⟩

end Shapes

/-- Whatever tokens follow. -/
def anything (_ : List Token) : Prop :=
  True

variable {stop calls calls' : Nat} {us vs : List (Symbol × Bool)} {x y : Expr} {l : Level}

namespace ReadsShapes

variable {read read' : Nat → List Token → Except ReadFault (Expr × List Token)}
  {before before' : List Token → Prop}

theorem mono (h : ReadsShapes read before calls us x) (hle : calls ≤ calls') :
    ReadsShapes read before calls' us x :=
  fun _ _ _ hc => h (Nat.le_trans hle hc)

/-- Before fewer tokens. -/
theorem weaken (h : ReadsShapes read before calls us x) (hb : ∀ {rest}, before' rest → before rest) :
    ReadsShapes read before' calls us x :=
  fun _ _ _ hc hts hrest => h hc hts (hb hrest)

/-- A function that calls another one on the same tokens. -/
theorem succ (h : ReadsShapes read before calls us x) (hb : ∀ {rest}, before' rest → before rest)
    (hstep : ∀ {n : Nat} {ts rest : List Token}, ts.map Token.shape = us → before' rest →
      read n (ts ++ rest) = .ok (x, rest) → read' (n + 1) (ts ++ rest) = .ok (y, rest)) :
    ReadsShapes read' before' (calls + 1) us y := by
  rintro (_ | n) ts rest hle hts hrest
  · exact absurd hle (Nat.not_succ_le_zero _)
  · exact hstep hts hrest (h (Nat.le_of_succ_le_succ hle) hts (hb hrest))

/-- A function that takes a token and calls another one on the tokens after it. -/
theorem cons {symbol : Symbol} (h : ReadsShapes read before calls us x)
    (hb : ∀ {rest}, before' rest → before rest)
    (hstep : ∀ {n : Nat} {ts rest : List Token} {position : Nat} {afterNumber : Bool},
      ts.map Token.shape = us → before' rest → read n (ts ++ rest) = .ok (x, rest) →
        read' (n + 1) (⟨symbol, position, afterNumber⟩ :: (ts ++ rest)) = .ok (y, rest)) :
    ReadsShapes read' before' (calls + 1) (lone symbol :: us) y := by
  rintro (_ | n) ts rest hle hts hrest
  · exact absurd hle (Nat.not_succ_le_zero _)
  · obtain ⟨position, afterNumber, ts, rfl, hus⟩ := exists_cons_of_lone hts
    exact hstep hus hrest (h (Nat.le_of_succ_le_succ hle) hus (hb hrest))

/-- A function that calls two others, one after the other. -/
theorem append {read₁ read₂ : Nat → List Token → Except ReadFault (Expr × List Token)}
    {before₁ : List Token → Prop} {g : Expr → Expr → Expr}
    (h : ReadsShapes read₁ before₁ calls us x) (h' : ReadsShapes read₂ before calls vs y)
    (hb : ∀ {ts rest : List Token}, ts.map Token.shape = vs → before rest → before₁ (ts ++ rest))
    (hread : ∀ n ts, read (n + 1) ts = (read₁ n ts >>= fun p =>
      read₂ n p.2 >>= fun q => .ok (g p.1 q.1, q.2))) :
    ReadsShapes read before (calls + 1) (us ++ vs) (g x y) := by
  rintro (_ | n) ts rest hle hts hrest
  · exact absurd hle (Nat.not_succ_le_zero _)
  · obtain ⟨ts₁, ts₂, rfl, hus, hvs⟩ := exists_append_of_shapes hts
    rw [List.append_assoc, hread, h (Nat.le_of_succ_le_succ hle) hus (hb hvs hrest)]
    show (read₂ n (ts₂ ++ rest) >>= _) = _
    rw [h' (Nat.le_of_succ_le_succ hle) hvs hrest]
    rfl

end ReadsShapes

namespace Fills

/-- What the parser reads as a sum up to the end, a closing bracket or a comma, it reads
as one in any place. -/
theorem of_sum_append {stop' : Nat} {ts w : List Token} (hw : Ends w)
    (h : Expr.sum stop' calls (ts ++ w) = .ok (x, w)) :
    Fills stop .sum calls (ts.map Token.shape) x := by
  intro calls' us rest hle hus hrest
  obtain ⟨rest', hnil, hread⟩ :=
    @(Expr.carriesAll stop' stop hle).sum _ [] _ _ hw h _ _ hus hrest.ends
  obtain rfl := hnil.eq_nil
  exact hread

theorem of_sum {stop' : Nat} {ts : List Token} (h : Expr.sum stop' calls ts = .ok (x, [])) :
    Fills stop .sum calls (ts.map Token.shape) x :=
  of_sum_append (w := []) (by simp [Ends]) (by rwa [List.append_nil])

/-! ### From a slot to the lower ones -/

/-- A factor that no sign for a factorial follows. -/
theorem postfixed {before : List Token → Prop}
    (h : ReadsShapes (Level.factor.read stop) before calls us x)
    (hb : ∀ {rest}, before rest → Level.postfixed.Stops rest) :
    ReadsShapes (Level.postfixed.read stop) before (calls + 1) us x :=
  h.succ id fun {n ts rest} _ hrest hx => by
    show (Expr.factor stop n (ts ++ rest) >>= _) = _
    rw [show Expr.factor stop n (ts ++ rest) = _ from hx]
    exact @Level.resume_of_stops stop .postfixed rest (hb hrest) n x

/-- A factor before tokens that end a slot for a power. -/
theorem raised_of_factor (h : ReadsShapes (Level.factor.read stop) Level.raised.Stops calls us x) :
    Fills stop .raised (calls + 2) us x :=
  (postfixed h fun hb => hb.mono (by decide)).succ id fun {n ts rest} _ hrest hx => by
    show (Expr.postfixed stop n (ts ++ rest) >>= _) = _
    rw [show Expr.postfixed stop n (ts ++ rest) = _ from hx]
    simp only [bind, Except.bind]
    split
    · exact absurd (show Symbol.rank (.operator .caret) ≤ Level.raised.rank from hrest _ rfl)
        (by decide)
    · rfl

theorem postfixed_of_factor (h : Fills stop .factor calls us x) :
    Fills stop .postfixed (calls + 1) us x :=
  postfixed (h.weaken fun hb => hb.mono (by decide)) id

/-- The tokens begin with a factor, not with a sign. -/
def BeginsFactor (us : List (Symbol × Bool)) : Prop :=
  us.head?.any (fun u => u.1.beginsFactor) = true

theorem signed_of_raised (h : Fills stop .raised calls us x) (hus : BeginsFactor us) :
    Fills stop .signed (calls + 1) us x :=
  h.succ (fun hb => hb.mono (by decide)) fun {n ts rest} hts _ hx => by
    refine Eq.trans ?_ hx
    cases us with
    | nil => cases hus
    | cons u us =>
      obtain ⟨⟨symbol, position, afterNumber⟩, ts, rfl, rfl, _⟩ := exists_cons_of_shapes hts
      cases hs : u.1 with
      | number | word | opening => rfl
      | _ => simp [BeginsFactor, hs, Symbol.beginsFactor] at hus

theorem term_of_signed (h : Fills stop .signed calls us x) :
    Fills stop .term (calls + 1) us x :=
  h.succ (fun hb => hb.mono (by decide)) fun {n ts rest} _ hrest hx => by
    show (Expr.signed stop n (ts ++ rest) >>= _) = _
    rw [show Expr.signed stop n (ts ++ rest) = _ from hx]
    exact @Level.resume_of_stops stop .term rest hrest (n + 1) x

theorem sum_of_term (h : Fills stop .term calls us x) : Fills stop .sum (calls + 1) us x :=
  h.succ (fun hb => hb.mono (by decide)) fun {n ts rest} _ hrest hx => by
    show (Expr.term stop n (ts ++ rest) >>= _) = _
    rw [show Expr.term stop n (ts ++ rest) = _ from hx]
    exact @Level.resume_of_stops stop .sum rest hrest (n + 1) x

theorem signed_of_factor (h : Fills stop .factor calls us x) (hus : BeginsFactor us) :
    Fills stop .signed (calls + 3) us x :=
  (raised_of_factor (h.weaken fun hb => hb.mono (by decide))).signed_of_raised hus

theorem sum_of_signed (h : Fills stop .signed calls us x) : Fills stop .sum (calls + 2) us x :=
  h.term_of_signed.sum_of_term

theorem number (l : Literal) : Fills stop .factor 1 [lone (.number l)] (.number l.value) := by
  rintro (_ | n) ts rest hle hts -
  · exact absurd hle (Nat.not_succ_le_zero _)
  · obtain ⟨position, afterNumber, ts, rfl, hnil⟩ := exists_cons_of_lone hts
    obtain rfl := List.map_eq_nil_iff.mp hnil
    rfl

/-! ### Groups -/

theorem group (h : Fills stop .sum calls us x) (b : Bracket) :
    ReadsShapes (Expr.group stop) anything (calls + 1) (grouped b us) x := by
  rintro (_ | n) ts rest hle hts -
  · exact absurd hle (Nat.not_succ_le_zero _)
  · obtain ⟨position, afterNumber, tail, rfl, htail⟩ := exists_cons_of_lone hts
    obtain ⟨ts₁, ts₂, rfl, hus, hclosing⟩ := exists_append_of_shapes htail
    obtain ⟨position', afterNumber', _, rfl, hnil⟩ := exists_cons_of_lone hclosing
    obtain rfl := List.map_eq_nil_iff.mp hnil
    have hx : Expr.sum stop n (ts₁ ++ (⟨.closing b, position', afterNumber'⟩ :: rest)) = _ :=
      h (Nat.le_of_succ_le_succ hle) hus (ReadsAs.stops_closing rfl _ rest)
    rw [List.cons_append, List.append_assoc, List.singleton_append]
    show (Expr.sum stop n (ts₁ ++ (⟨.closing b, position', afterNumber'⟩ :: rest)) >>= _) = _
    rw [hx]
    simp only [bind, Except.bind, ReadsAs.expectClosing_eq]

/-- Tokens that begin with an opening bracket. -/
theorem exists_cons_of_grouped {b : Bracket} {ts : List Token}
    (h : ts.map Token.shape = grouped b us) :
    ∃ position afterNumber ts', ts = ⟨.opening b, position, afterNumber⟩ :: ts' := by
  obtain ⟨position, afterNumber, ts, rfl, _⟩ := exists_cons_of_lone h
  exact ⟨position, afterNumber, ts, rfl⟩

theorem factor_group (h : Fills stop .sum calls us x) (b : Bracket) :
    Fills stop .factor (calls + 2) (grouped b us) x :=
  (h.group b).succ (fun _ => trivial) fun {n ts rest} hts _ hx => by
    obtain ⟨position, afterNumber, ts, rfl⟩ := exists_cons_of_grouped hts
    exact hx

theorem requiredGroup (h : Fills stop .sum calls us x) (b : Bracket) (w : Word) :
    ReadsShapes (fun n => Expr.requiredGroup stop n b w) anything (calls + 2) (grouped b us) x :=
  (h.group b).succ id fun {n ts rest} hts _ hx => by
    obtain ⟨position, afterNumber, ts, rfl⟩ := exists_cons_of_grouped hts
    refine Eq.trans ?_ hx
    cases b <;> rfl

theorem argument (h : Fills stop .sum calls us x) (b : Bracket) (w : Word) :
    ReadsShapes (fun n => Expr.argument stop n w) anything (calls + 2) (grouped b us) x :=
  (h.group b).succ id fun {n ts rest} hts _ hx => by
    obtain ⟨position, afterNumber, ts, rfl⟩ := exists_cons_of_grouped hts
    exact hx

/-! ### Words -/

/-- A word and what it does with the tokens after it. -/
theorem worded {w : Word} {before : List Token → Prop}
    (h : ReadsShapes (fun n => Expr.worded stop n w) before calls us x)
    (hb : ∀ {rest}, Level.factor.Stops rest → before rest) :
    Fills stop .factor (calls + 1) (lone (.word w) :: us) x :=
  h.cons hb fun _ _ hx => hx

/-- A word that takes one argument. -/
theorem applied {w : Word} {g : Expr → Expr} {before : List Token → Prop}
    (hw : ∀ {n ts}, ts.map Token.shape = us → ∀ rest, Expr.worded stop (n + 1) w (ts ++ rest) =
      (Expr.argument stop n w (ts ++ rest) >>= fun p => .ok (g p.1, p.2)))
    (h : ReadsShapes (fun n => Expr.argument stop n w) before calls us x) :
    ReadsShapes (fun n => Expr.worded stop n w) before (calls + 1) us (g x) :=
  h.succ id fun hts _ hx => by
    show Expr.worded stop _ w _ = _
    rw [hw hts, hx]
    rfl

theorem abs (h : Fills stop .sum calls us x) (b : Bracket) :
    Fills stop .factor (calls + 4) (lone (.word .absolute) :: grouped b us) x.abs :=
  worded (applied (fun _ _ => rfl) (h.argument b .absolute)) fun _ => trivial

/-- A logarithm reads round brackets itself. -/
theorem log_group (h : Fills stop .sum calls us x) :
    Fills stop .factor (calls + 2) (lone (.word (.unary .log)) :: grouped .round us)
      (x.call .log) := by
  have hbefore : ∀ {rest}, Level.factor.Stops rest → anything rest := fun _ => trivial
  refine worded ?_ hbefore
  rintro (_ | n) ts rest hle hts -
  · exact absurd hle (Nat.not_succ_le_zero _)
  · obtain ⟨position, afterNumber, tail, rfl, htail⟩ := exists_cons_of_lone hts
    obtain ⟨ts₁, ts₂, rfl, hus, hclosing⟩ := exists_append_of_shapes htail
    obtain ⟨position', afterNumber', _, rfl, hnil⟩ := exists_cons_of_lone hclosing
    obtain rfl := List.map_eq_nil_iff.mp hnil
    have hx : Expr.sum stop n (ts₁ ++ (⟨.closing .round, position', afterNumber'⟩ :: rest)) = _ :=
      h (Nat.le_of_succ_le_succ hle) hus (ReadsAs.stops_closing rfl _ rest)
    rw [List.cons_append, List.append_assoc, List.singleton_append]
    show (Expr.sum stop n (ts₁ ++ (⟨.closing .round, position', afterNumber'⟩ :: rest)) >>= _) = _
    rw [hx]
    simp only [bind, Except.bind, ReadsAs.expectClosing_eq]

/-- A call with brackets. -/
theorem call (h : Fills stop .sum calls us x) (f : UnaryFunction) (b : Bracket) :
    Fills stop .factor (calls + 4) (lone (.word (.unary f)) :: grouped b us) (x.call f) := by
  have happlied : (∀ {n ts}, ts.map Token.shape = grouped b us → ∀ rest,
      Expr.worded stop (n + 1) (.unary f) (ts ++ rest) =
        (Expr.argument stop n (.unary f) (ts ++ rest) >>= fun p => .ok (p.1.call f, p.2))) →
      Fills stop .factor (calls + 4) (lone (.word (.unary f)) :: grouped b us) (x.call f) :=
    fun hw => worded (applied hw (h.argument b (.unary f))) fun _ => trivial
  cases f with
  | log =>
    cases b with
    | round => exact h.log_group.mono (by omega)
    | _ =>
      refine happlied fun hts rest => ?_
      obtain ⟨position, afterNumber, ts, rfl⟩ := exists_cons_of_grouped hts
      rfl
  | _ => exact happlied fun _ _ => rfl

/-- A call without brackets, of what begins with a word or a number. -/
theorem bareCall {symbol : Symbol} (hs : (∃ w, symbol = .word w) ∨ ∃ l, symbol = .number l)
    (h : Fills stop .signed calls (lone symbol :: us) x) (f : UnaryFunction) :
    Fills stop .raised (calls + 5) (lone (.word (.unary f)) :: lone symbol :: us) (x.call f) := by
  have hargument : ReadsShapes (fun n => Expr.argument stop n (.unary f)) Level.signed.Stops
      (calls + 1) (lone symbol :: us) x :=
    h.succ id fun hts _ hx => by
      obtain ⟨position, afterNumber, ts, rfl, _⟩ := exists_cons_of_lone hts
      rcases hs with ⟨w, rfl⟩ | ⟨l, rfl⟩ <;> exact hx
  have hworded : ReadsShapes (fun n => Expr.worded stop n (.unary f)) Level.signed.Stops
      (calls + 2) (lone symbol :: us) (x.call f) := by
    refine applied (fun {n ts} hts rest => ?_) hargument
    obtain ⟨position, afterNumber, ts, rfl, _⟩ := exists_cons_of_lone hts
    rcases hs with ⟨w, rfl⟩ | ⟨l, rfl⟩ <;> cases f <;> rfl
  have hfactor : ReadsShapes (Level.factor.read stop) Level.raised.Stops (calls + 3)
      (lone (.word (.unary f)) :: lone symbol :: us) (x.call f) :=
    hworded.cons Level.Stops.signed fun _ _ hx => hx
  exact raised_of_factor hfactor

theorem fraction (hx : Fills stop .sum calls us x) (hy : Fills stop .sum calls vs y) :
    Fills stop .factor (calls + 4)
      (lone (.word .fraction) :: (grouped .curly us ++ grouped .curly vs)) (x.fraction y) :=
  worded ((hx.requiredGroup .curly .fraction).append (g := Expr.fraction)
    (hy.requiredGroup .curly .fraction) (fun _ _ => trivial) fun _ _ => rfl) fun _ => trivial

theorem call₂ (hx : Fills stop .sum calls us x) (hy : Fills stop .sum calls vs y)
    (f : BinaryFunction) :
    Fills stop .factor (calls + 4)
      (lone (.word (.binary f)) :: (grouped .square us ++ grouped .curly vs)) (x.call₂ f y) :=
  worded ((hx.requiredGroup .square (.binary f)).append (g := fun x y => x.call₂ f y)
    (hy.argument .curly (.binary f)) (fun _ _ => trivial) fun _ _ => rfl) fun _ => trivial

/-! ### Signs -/

theorem neg (h : Fills stop .signed calls us x) :
    Fills stop .signed (calls + 1) (lone (.operator .minus) :: us) x.neg :=
  h.cons id fun {n ts rest _ _} _ _ hx => by
    show (Expr.signed stop n (ts ++ rest) >>= _) = _
    rw [show Expr.signed stop n (ts ++ rest) = _ from hx]
    rfl

theorem power (hx : Fills stop .postfixed calls us x) (hy : Fills stop .signed calls vs y) :
    Fills stop .raised (calls + 1) (us ++ lone (.operator .caret) :: vs) (x.power y) := by
  rintro (_ | n) ts rest hle hts hrest
  · exact absurd hle (Nat.not_succ_le_zero _)
  · have hle := Nat.le_of_succ_le_succ hle
    obtain ⟨ts₁, ts', rfl, hus, hts'⟩ := exists_append_of_shapes hts
    obtain ⟨position, afterNumber, ts₂, rfl, hvs⟩ := exists_cons_of_lone hts'
    have hbase : Expr.postfixed stop n
        (ts₁ ++ (⟨.operator .caret, position, afterNumber⟩ :: (ts₂ ++ rest))) = _ :=
      hx hle hus (.cons (by simp [Symbol.rank, Level.rank]) _)
    have hexponent : Expr.signed stop n (ts₂ ++ rest) = _ := hy hle hvs (Level.Stops.signed hrest)
    rw [List.append_assoc, List.cons_append]
    show (Expr.postfixed stop n
      (ts₁ ++ (⟨.operator .caret, position, afterNumber⟩ :: (ts₂ ++ rest))) >>= _) = _
    rw [hbase]
    show (Expr.signed stop n (ts₂ ++ rest) >>= _) = _
    rw [hexponent]
    rfl

theorem product (hx : Fills stop .signed calls us x) (hy : Fills stop .signed calls vs y) :
    Fills stop .term (calls + 1) (us ++ lone (.operator .times) :: vs) (.binary .multiply x y) := by
  rintro (_ | n) ts rest hle hts hrest
  · exact absurd hle (Nat.not_succ_le_zero _)
  · have hle := Nat.le_of_succ_le_succ hle
    obtain ⟨ts₁, ts', rfl, hus, hts'⟩ := exists_append_of_shapes hts
    obtain ⟨position, afterNumber, ts₂, rfl, hvs⟩ := exists_cons_of_lone hts'
    have hleft : Expr.signed stop n
        (ts₁ ++ (⟨.operator .times, position, afterNumber⟩ :: (ts₂ ++ rest))) = _ :=
      hx hle hus (.cons (by simp [Symbol.rank, Level.rank]) _)
    have hright : Expr.signed stop n (ts₂ ++ rest) = _ := hy hle hvs (hrest.mono (by decide))
    have hreads := Expr.readsAll stop n
    have hbound := @Expr.extend_congr (Expr.termStep (Expr.signed stop n) (Expr.raised stop n))
      (fun _ => rfl)
      (fun hs => Expr.length_lt_of_reads (Expr.reads_termStep hreads.signed hreads.raised _ _ _ hs))
      (ts₂ ++ rest).length rest.length (.binary .multiply x y) rest (by simp) (Nat.le_refl _)
    rw [List.append_assoc, List.cons_append]
    show (Expr.signed stop n
      (ts₁ ++ (⟨.operator .times, position, afterNumber⟩ :: (ts₂ ++ rest))) >>= _) = _
    rw [hleft]
    show ((Expr.signed stop n (ts₂ ++ rest) >>= _) >>= _) = _
    rw [hright]
    exact hbound.trans (@Level.resume_of_stops stop .term rest hrest (n + 1) _)

/-- A logarithm with a base after a comma. -/
theorem log (hx : Fills stop .sum calls us x) (hy : Fills stop .sum calls vs y) :
    Fills stop .factor (calls + 2)
      (lone (.word (.unary .log)) :: grouped .round (us ++ lone .comma :: vs))
      (y.call₂ .logBase x) := by
  have hbefore : ∀ {rest}, Level.factor.Stops rest → anything rest := fun _ => trivial
  refine worded ?_ hbefore
  rintro (_ | n) ts rest hle hts -
  · exact absurd hle (Nat.not_succ_le_zero _)
  · have hle := Nat.le_of_succ_le_succ hle
    obtain ⟨position, afterNumber, tail, rfl, htail⟩ := exists_cons_of_lone hts
    obtain ⟨ts', ts₃, rfl, hts', hclosing⟩ := exists_append_of_shapes htail
    obtain ⟨last, afterLast, _, rfl, hnil⟩ := exists_cons_of_lone hclosing
    obtain rfl := List.map_eq_nil_iff.mp hnil
    obtain ⟨ts₁, ts'', rfl, hus, hts''⟩ := exists_append_of_shapes hts'
    obtain ⟨position', afterNumber', ts₂, rfl, hvs⟩ := exists_cons_of_lone hts''
    have hargument : Expr.sum stop n (ts₁ ++ (⟨.comma, position', afterNumber'⟩ ::
        (ts₂ ++ ⟨.closing .round, last, afterLast⟩ :: rest))) = _ :=
      hx hle hus (.cons (Nat.le_refl _) _)
    have hbase : Expr.sum stop n (ts₂ ++ ⟨.closing .round, last, afterLast⟩ :: rest) = _ :=
      hy hle hvs (ReadsAs.stops_closing rfl _ rest)
    have happ : ts₁ ++ ⟨.comma, position', afterNumber'⟩ :: ts₂ ++
        [⟨.closing .round, last, afterLast⟩] ++ rest = ts₁ ++ (⟨.comma, position', afterNumber'⟩ ::
          (ts₂ ++ ⟨.closing .round, last, afterLast⟩ :: rest)) := by simp
    rw [List.cons_append, happ]
    show (Expr.sum stop n (ts₁ ++ (⟨.comma, position', afterNumber'⟩ ::
        (ts₂ ++ ⟨.closing .round, last, afterLast⟩ :: rest))) >>= _) = _
    rw [hargument]
    show (Expr.sum stop n (ts₂ ++ ⟨.closing .round, last, afterLast⟩ :: rest) >>= _) = _
    rw [hbase]
    simp only [bind, Except.bind, ReadsAs.expectClosing_eq]

end Fills

end NumericAnswer
