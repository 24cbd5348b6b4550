/-
# Evaluation never goes wrong unforeseen

Every intermediate value is finite, so no function is ever given infinity or
what is no number. A lawful library then answers with a number, and no fault
of evaluation is the one that stands for anything unforeseen.

Key definitions: `MathLibrary.HasZeroLogarithm`, `ValueFault.IsForeseen`, `Faults`, `Foreseen`.
Key theorems: `foreseen_power`, `foreseen_nthroot`, `UnaryFunction.foreseen_value`,
`Expr.isFinite_valueWithin`, `Expr.faults_valueWithin`, `Expr.foreseen_value`.
-/
import NumericAnswer.Expr.Value
import NumericAnswer.Notation.Group
import NumericAnswer.Proofs.Double

namespace NumericAnswer

/-! ### A lawful library -/

/-- A library that knows little more than the cube of 2. -/
@[reducible] def MathLibrary.sample : MathLibrary where
  elementary _ _ := 0
  atan2 _ _ := 0
  pow x y := if x == 2 && y == 3 then 8 else 1

theorem MathLibrary.lawful_sample : sample.Lawful where
  elementary_isNaN _ _ := by
    show (0 : Float).isNaN = false
    rfl
  pow_isNaN {x y} _ _ _ := by
    show (if x == 2 && y == 3 then (8 : Float) else 1).isNaN = false
    split <;> rfl

/-! ### Foreseen faults -/

/-- A logarithm of the library is zero although its argument is not 1. -/
def MathLibrary.HasZeroLogarithm (library : MathLibrary) : Prop :=
  ∃ x : Float, x.isFinite = true ∧ ¬x ≤ 0 ∧ (x == 1) = false ∧
    (library.elementary .log x == 0) = true

/-- The faults that evaluation checks for. -/
def ValueFault.isChecked (f : ValueFault) : Bool :=
  !f.isForeign && f.kind != .syntaxError

theorem ValueFault.code_ne_unexpected {f : ValueFault} (h : f.isChecked = true) :
    f.code ≠ .unexpected := by
  cases f with
  | noRealValue | unroundable => cases h
  | _ => simp [code]

/-- The fault is checked for, or comes from a logarithm that the library has. -/
def ValueFault.IsForeseen (library : MathLibrary) (f : ValueFault) : Prop :=
  f.isChecked = true ∨ f = .zeroLogarithm ∧ library.HasZeroLogarithm

/-- Every fault of the computation has the property. -/
def Faults {α : Type} (P : ValueFault → Prop) (r : Except ValueFault α) : Prop :=
  ∀ f, r = .error f → P f

/-- The computation has a value, or a fault that is foreseen. -/
abbrev Foreseen {α : Type} (library : MathLibrary) (r : Except ValueFault α) : Prop :=
  Faults (·.IsForeseen library) r

namespace Faults

variable {α β : Type} {P Q : ValueFault → Prop}

theorem ok (x : α) : Faults P (.ok x) := by
  intro f h
  cases h

theorem error {f : ValueFault} (h : P f) : Faults P (.error f : Except _ α) := by
  intro g hg
  cases hg
  exact h

theorem bind {r : Except ValueFault α} {next : α → Except ValueFault β} (hr : Faults P r)
    (hn : ∀ a, r = .ok a → Faults P (next a)) : Faults P (r >>= next) := by
  cases r with
  | error f => exact error (hr f rfl)
  | ok a => exact hn a rfl

theorem map {r : Except ValueFault α} {g : α → β} (hr : Faults P r) : Faults P (r.map g) := by
  cases r with
  | error f => exact error (hr f rfl)
  | ok a => exact ok (g a)

theorem ite {p : Prop} [Decidable p] {r s : Except ValueFault α} (hr : p → Faults P r)
    (hs : ¬ p → Faults P s) : Faults P (if p then r else s) := by
  by_cases h : p
  · rw [if_pos h]; exact hr h
  · rw [if_neg h]; exact hs h

theorem imp {r : Except ValueFault α} (hr : Faults P r) (h : ∀ f, P f → Q f) : Faults Q r :=
  fun f hf => h f (hr f hf)

theorem checked {library : MathLibrary} {f : ValueFault} (h : f.isChecked = true) :
    Foreseen library (.error f : Except _ α) :=
  .error (.inl h)

end Faults

section Arithmetic

variable {library : MathLibrary}

theorem foreseen_finite (what : String) (x : Float) : Foreseen library (finite what x) :=
  .ite (fun _ => .ok x) fun _ => .checked rfl

theorem foreseen_quotient (x y : Float) : Foreseen library (quotient x y) :=
  .ite (fun _ => .checked rfl) fun _ => foreseen_finite _ _

end Arithmetic

theorem isUnreal_eq_false {result : Float} {arguments : List Float} (h : result.isNaN = false) :
    isUnreal result arguments = false := by
  rw [isUnreal, h, Bool.false_and]

/-! ### Factorials -/

/-- The factorials up to the limit are finite. -/
theorem nearestBits_factorialOf :
    ∀ n ≤ factorialLimit, Binary.nearestBits (factorialOf n) 1 < Binary.infinityBits := by
  decide +kernel

theorem factorial_sound {library : MathLibrary} (x : Float) :
    Foreseen library (factorial x) ∧ ∀ y, factorial x = .ok y → y.isFinite = true := by
  unfold factorial
  cases Binary.ofFloat? x with
  | none => exact ⟨.checked rfl, fun y h => by cases h⟩
  | some b =>
    simp only
    split
    · exact ⟨.checked rfl, fun y h => by cases h⟩
    · split
      · exact ⟨.checked rfl, fun y h => by cases h⟩
      · next hle =>
        refine ⟨.ok _, fun y h => ?_⟩
        obtain rfl := Except.ok.inj h
        exact Binary.isFinite_nearest (nearestBits_factorialOf _ (by omega))

section Library

variable {library : MathLibrary} (lawful : library.Lawful)

include lawful

/-! ### Powers and roots -/

theorem foreseen_power {x y : Float} (hx : x.isNaN = false) (hy : y.isNaN = false) :
    Foreseen library (@power library x y) := by
  unfold power
  refine .ite (fun _ => .checked rfl) fun hbase => ?_
  refine .ite (fun _ => .checked rfl) fun _ => ?_
  have hwhole : x < 0 → isWhole y = true := by
    intro hneg
    simpa [hneg] using hbase
  have hn := lawful.pow_isNaN hx hy hwhole
  simp only [isUnreal_eq_false hn, Bool.false_eq_true, if_false]
  refine .ite (fun _ => .checked rfl) fun _ => foreseen_finite _ _

theorem foreseen_exactRoot {degree x root : Float} (hd : isWhole degree = true)
    (hn : degree.isNaN = false) (hr : root.isNaN = false) :
    Foreseen library (@exactRoot library degree x root) := by
  unfold exactRoot
  cases Binary.ofFloat? root with
  | none =>
    simp only [hr, Bool.false_eq_true, if_false]
    exact .checked rfl
  | some b =>
    have hc : (Binary.ofInt b.roundEven).isNaN = false := Binary.isNaN_nearest _ _ _
    have hb := lawful.pow_isNaN hc hn fun _ => hd
    refine .ite (fun _ => ?_) fun _ => .ok _
    simp only [isUnreal_eq_false hb, Bool.false_eq_true, if_false]
    exact .ite (fun _ => .checked rfl) fun _ => .ok _

theorem foreseen_rootOfMagnitude {degree x : Float} (hd : degree.isFinite = true)
    (hz : (degree == 0) = false) (hx : x.isFinite = true) (hpos : ¬ x < 0) :
    Foreseen library (@rootOfMagnitude library degree x) := by
  unfold rootOfMagnitude
  refine .ite (fun _ => .checked rfl) fun _ => ?_
  have hr := lawful.pow_isNaN (Double.isNaN_of_isFinite hx) (Double.isNaN_inv hd hz)
    fun hneg => absurd hneg hpos
  refine .ite (fun _ => .checked rfl) fun _ => ?_
  refine .ite (fun hw => ?_) fun _ => .ok _
  simp only [Bool.and_eq_true] at hw
  exact foreseen_exactRoot lawful hw.1 (Double.isNaN_of_isFinite hd) hr

theorem foreseen_nthroot {degree x : Float} (hd : degree.isFinite = true) (hx : x.isFinite = true) :
    Foreseen library (@nthroot library degree x) := by
  unfold nthroot
  refine .ite (fun _ => .checked rfl) fun hz => ?_
  have hz : (degree == 0) = false := by simpa using hz
  refine .ite (fun hneg => ?_) fun hpos => foreseen_rootOfMagnitude lawful hd hz hx hpos
  refine .ite (fun _ => .map ?_) fun _ => .checked rfl
  exact foreseen_rootOfMagnitude lawful hd hz (Double.isFinite_neg hx) (Double.neg_not_lt_zero hneg)

/-! ### Functions -/

theorem foreseen_everywhere {f : UnaryFunction} {g : Elementary} {x : Float}
    (hx : x.isFinite = true) (hg : g.isDefinedAt x = true) :
    Foreseen library (@UnaryFunction.everywhere library f g x) := by
  unfold UnaryFunction.everywhere
  have hn := lawful.elementary_isNaN hx hg
  simp only [isUnreal_eq_false hn, Bool.false_eq_true, if_false]
  exact .ite (fun _ => .checked rfl) fun _ => .ok _

theorem foreseen_reciprocal {f : UnaryFunction} {g : Elementary} {x : Float}
    (hx : x.isFinite = true) (hg : g.isDefinedAt x = true) :
    Foreseen library (@UnaryFunction.reciprocal library f g x) :=
  .bind (foreseen_everywhere lawful hx hg) fun _ _ =>
    .ite (fun _ => .checked rfl) fun _ => .ok _

omit lawful in
theorem foreseen_onUnitInterval (f : UnaryFunction) (g : Elementary) (x : Float) :
    Foreseen library (@UnaryFunction.onUnitInterval library f g x) :=
  .ite (fun _ => .checked rfl) fun _ => .ok _

omit lawful in
theorem foreseen_logarithm (log : Float → Float) (x : Float) : Foreseen library (logarithm log x) :=
  .ite (fun _ => .checked rfl) fun _ => .ok _

omit lawful in
theorem foreseen_logBase {base : Float} (hb : base.isFinite = true) (x : Float) :
    Foreseen library (@logBase library base x) := by
  unfold logBase
  refine .ite (fun _ => .checked rfl) fun hpos => ?_
  refine .ite (fun _ => .checked rfl) fun hone => ?_
  refine .ite (fun _ => foreseen_logarithm _ _) fun _ => ?_
  refine .ite (fun _ => foreseen_logarithm _ _) fun _ => ?_
  refine .bind (foreseen_logarithm _ _) fun _ _ => .ite (fun hzero => .error ?_) fun _ => .ok _
  exact .inr ⟨rfl, base, hb, hpos, by simpa using hone, hzero⟩

theorem UnaryFunction.foreseen_value (f : UnaryFunction) {x : Float} (hx : x.isFinite = true) :
    Foreseen library (@UnaryFunction.value library f x) := by
  cases f with
  | arcsin | arccos => exact foreseen_onUnitInterval _ _ _
  | cot | sec | csc => exact foreseen_reciprocal lawful hx rfl
  | arccot => exact .ok _
  | ln | log => exact foreseen_logarithm _ _
  | sqrt => exact .ite (fun _ => .checked rfl) fun _ => .ok _
  | _ => exact foreseen_everywhere lawful hx rfl

theorem BinaryFunction.foreseen_value (f : BinaryFunction) {x y : Float} (hx : x.isFinite = true)
    (hy : y.isFinite = true) : Foreseen library (@BinaryFunction.value library f x y) := by
  cases f with
  | nthroot => exact foreseen_nthroot lawful hx hy
  | logBase => exact foreseen_logBase hx _

end Library

/-! ### Expressions -/

theorem isFinite_of_quotient {x y z : Float} (h : quotient x y = .ok z) : z.isFinite = true := by
  unfold quotient at h
  split at h
  · cases h
  · obtain ⟨rfl, hf⟩ := finite_ok h
    exact hf

theorem isFinite_of_power {library : MathLibrary} {x y z : Float}
    (h : @power library x y = .ok z) : z.isFinite = true := by
  unfold power at h
  simp only at h
  repeat (split at h; · cases h)
  obtain ⟨rfl, hf⟩ := finite_ok h
  exact hf

theorem BinaryOperator.foreseen_value {library : MathLibrary} (o : BinaryOperator) (x y : Float) :
    Foreseen library (o.value x y) := by
  cases o with
  | divide => exact foreseen_quotient _ _
  | _ => exact foreseen_finite _ _

theorem BinaryOperator.isFinite_of_value {o : BinaryOperator} {x y z : Float}
    (h : o.value x y = .ok z) : z.isFinite = true := by
  cases o with
  | divide => exact isFinite_of_quotient h
  | _ =>
    obtain ⟨rfl, hf⟩ := finite_ok h
    exact hf

namespace Expr

variable {library : MathLibrary}

/-- Every intermediate value is finite. -/
theorem isFinite_valueWithin : ∀ {levels : Nat} {e : Expr} {x : Float},
    @valueWithin library levels e = .ok x → x.isFinite = true
  | 0, _, _, h => by cases h
  | levels + 1, e, x, h => by
    cases e with
    | number y =>
      obtain ⟨rfl, hf⟩ := finite_ok h
      exact hf
    | constant c =>
      obtain rfl := Except.ok.inj h
      cases c <;> rfl
    | neg y =>
      obtain ⟨a, ha, h⟩ := exists_of_bind_ok h
      obtain rfl := Except.ok.inj h
      exact Double.isFinite_neg (isFinite_valueWithin ha)
    | abs y =>
      obtain ⟨a, ha, h⟩ := exists_of_bind_ok h
      obtain rfl := Except.ok.inj h
      exact Double.isFinite_abs (isFinite_valueWithin ha)
    | factorial y =>
      obtain ⟨a, ha, h⟩ := exists_of_bind_ok h
      exact (@factorial_sound library a).2 x h
    | binary o y z =>
      obtain ⟨a, ha, h⟩ := exists_of_bind_ok h
      obtain ⟨b, hb, h⟩ := exists_of_bind_ok h
      exact BinaryOperator.isFinite_of_value h
    | fraction y z =>
      obtain ⟨a, ha, h⟩ := exists_of_bind_ok h
      obtain ⟨b, hb, h⟩ := exists_of_bind_ok h
      exact isFinite_of_quotient h
    | power y z =>
      obtain ⟨a, ha, h⟩ := exists_of_bind_ok h
      obtain ⟨b, hb, h⟩ := exists_of_bind_ok h
      exact isFinite_of_power h
    | call f y =>
      obtain ⟨a, ha, h⟩ := exists_of_bind_ok h
      obtain ⟨b, hb, h⟩ := exists_of_bind_ok h
      obtain ⟨rfl, hf⟩ := finite_ok h
      exact hf
    | call₂ f y z =>
      obtain ⟨a, ha, h⟩ := exists_of_bind_ok h
      obtain ⟨b, hb, h⟩ := exists_of_bind_ok h
      obtain ⟨c, hc, h⟩ := exists_of_bind_ok h
      obtain ⟨rfl, hf⟩ := finite_ok h
      exact hf

/-- What can go wrong in an expression of more levels than are descended, or in
any other. -/
def IsFault (library : MathLibrary) (levels : Nat) (e : Expr) (f : ValueFault) : Prop :=
  (f = .nestedTooDeeply ∧ levels < e.depth) ∨ f.IsForeseen library

/-- A part of an expression has one level less. -/
theorem IsFault.of_part {levels : Nat} {x e : Expr} (hd : x.depth < e.depth) :
    ∀ f, IsFault library levels x f → IsFault library (levels + 1) e f
  | _, .inl ⟨hf, hl⟩ => .inl ⟨hf, by omega⟩
  | _, .inr hf => .inr hf

/-- With a lawful library evaluation has no fault but those that it checks for
and the limit of its levels. -/
theorem faults_valueWithin (lawful : library.Lawful) : ∀ (levels : Nat) (e : Expr),
    Faults (IsFault library levels e) (@valueWithin library levels e)
  | 0, e => .error (.inl ⟨rfl, by cases e <;> simp [depth]⟩)
  | levels + 1, e => by
    have ih : ∀ {x : Expr}, x.depth < e.depth →
        Faults (IsFault library (levels + 1) e) (@valueWithin library levels x) :=
      fun hd => (faults_valueWithin lawful levels _).imp (IsFault.of_part hd)
    have step : ∀ {r : Except ValueFault Float}, Foreseen library r →
        Faults (IsFault library (levels + 1) e) r := fun hr => hr.imp fun _ => .inr
    cases e with
    | number y => exact step (foreseen_finite _ _)
    | constant c => exact .ok _
    | neg y => exact .bind (ih (by simp [depth])) fun _ _ => .ok _
    | abs y => exact .bind (ih (by simp [depth])) fun _ _ => .ok _
    | factorial y => exact .bind (ih (by simp [depth])) fun a _ => step (factorial_sound a).1
    | binary o y z =>
      refine .bind (ih ?_) fun _ _ => .bind (ih ?_) fun _ _ => step (o.foreseen_value _ _) <;>
        simp only [depth] <;> omega
    | fraction y z =>
      refine .bind (ih ?_) fun _ _ => .bind (ih ?_) fun _ _ => step (foreseen_quotient _ _) <;>
        simp only [depth] <;> omega
    | power y z =>
      refine .bind (ih ?_) fun a ha => .bind (ih ?_) fun b hb => step ?_
      · simp only [depth]; omega
      · simp only [depth]; omega
      · exact foreseen_power lawful (Double.isNaN_of_isFinite (isFinite_valueWithin ha))
          (Double.isNaN_of_isFinite (isFinite_valueWithin hb))
    | call f y =>
      refine .bind (ih (by simp [depth])) fun a ha => .bind (step ?_) fun _ _ =>
        step (foreseen_finite _ _)
      exact f.foreseen_value lawful (isFinite_valueWithin ha)
    | call₂ f y z =>
      refine .bind (ih ?_) fun a ha => .bind (ih ?_) fun b hb => .bind (step ?_) fun _ _ =>
        step (foreseen_finite _ _)
      · simp only [depth]; omega
      · simp only [depth]; omega
      · exact f.foreseen_value lawful (isFinite_valueWithin ha) (isFinite_valueWithin hb)

theorem faults_value (lawful : library.Lawful) (e : Expr) :
    Faults (IsFault library levelLimit e) (@value library e) :=
  .bind (faults_valueWithin lawful _ e) fun _ _ => (foreseen_finite _ _).imp fun _ => .inr

/-- With a lawful library no fault of evaluation is unforeseen. -/
theorem foreseen_value (lawful : library.Lawful) (e : Expr) :
    ∀ f, @value library e = .error f → f.code ≠ .unexpected := by
  intro f hf
  rcases faults_value lawful e f hf with ⟨rfl, _⟩ | hc | ⟨rfl, _⟩
  · simp [ValueFault.code]
  · exact ValueFault.code_ne_unexpected hc
  · simp [ValueFault.code]

end Expr
end NumericAnswer
