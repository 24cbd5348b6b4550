/-
# Outcomes and their faults

Every answer has an outcome: a finite value, or a fault whose kind and code
belong together. A fault of reading says where it stands, at a token of the
canonical form or at its end; a fault of evaluation comes only after the
canonical form has been read.

Key definitions: `Fault.taxonomy`, `Fault.placedCodes`, `Fault.evaluationCodes`,
`Outcome.Regular`.
Key theorem: `Outcome.regular_ofAnswer`.
-/
import NumericAnswer.Outcome
import NumericAnswer.Proofs.Evaluation
import NumericAnswer.Proofs.Reading

namespace NumericAnswer

namespace Fault

/-- The kinds with the codes that belong to them. -/
def taxonomy : List (Kind × List String) :=
  [(.unsupportedConstruct, ["1001", "1002"]),
   (.syntaxError, ["1000", "3000", "3001", "3002", "3006", "3007", "3008", "3009", "3010", "3011",
     "3012"]),
   (.negativeRadicand, ["2000", "2001"]),
   (.outOfDomain, ["2002", "2005", "2006", "2008"]),
   (.nonPositiveLogArgument, ["2003", "2004"]),
   (.divisionByZero, ["2007", "3003", "3005"]),
   (.invalidPower, ["3004"]),
   (.numericOverflow, ["3026"])]

/-- The codes of the faults that have a position. -/
def placedCodes : List String :=
  ["1001", "1002", "3000", "3001", "3002", "3006", "3007", "3008", "3009", "3010", "3012"]

/-- The codes of the faults that only evaluation finds. -/
def evaluationCodes : List String :=
  ["2000", "2001", "2002", "2003", "2004", "2005", "2006", "2007", "2008", "3003", "3004", "3005",
   "3026"]

/-- The kind and the code belong together. -/
def Classified (f : Fault) : Prop :=
  ∃ codes, (f.kind, codes) ∈ taxonomy ∧ f.code.digits ∈ codes

/-- The position is one of the expression: the start of a number with two
points for that fault, else the start of a token or the end. -/
def StandsIn (f : Fault) (expression : Text) (position : Nat) : Prop :=
  position ≤ expression.length ∧
    if f.code = .repeatedPoint then IsRepeatedPoint expression position
    else position = expression.length ∨ IsTokenStart expression position

end Fault

/-- What holds of the outcome of an answer. -/
structure Outcome.Regular (answer : Option Text) (outcome : Outcome) : Prop where
  finite {value : Float} {expression : Text} (h : outcome = .success value expression) :
    value.isFinite = true
  classified {fault : Fault} {expression : Option Text} (h : outcome = .failure fault expression) :
    fault.Classified
  expression : outcome.expression? =
    answer.bind fun text => if isAllBlank text then none else some (canonical text)
  placed {fault : Fault} {expression : Option Text} (h : outcome = .failure fault expression) :
    fault.position?.isSome ↔ fault.code.digits ∈ Fault.placedCodes
  position {fault : Fault} {expression : Option Text} {position : Nat}
    (h : outcome = .failure fault expression) (hp : fault.position? = some position) :
    ∃ text, expression = some text ∧ fault.StandsIn text position
  parsed {fault : Fault} {expression : Option Text} (h : outcome = .failure fault expression)
    (hc : fault.code.digits ∈ Fault.evaluationCodes) :
    ∃ text e, answer = some text ∧ Expr.parse (canonical text) = .ok e

namespace Fault

theorem classified_of_code_ne {f : Fault} (h : f.code ≠ .unexpected) : f.Classified := by
  unfold Classified
  rw [f.kind_eq_kind_code]
  generalize f.code = code at h ⊢
  cases code with
  | unexpected => exact absurd rfl h
  | _ => simp [taxonomy, Code.kind, Code.digits]

theorem code_ne_unexpected_of_read (f : ReadFault) : f.code ≠ .unexpected := by
  cases f with
  | blocked obstacle _ => cases obstacle <;> simp [ReadFault.code, Obstacle.code]
  | _ => simp [ReadFault.code]

theorem placed_read (f : ReadFault) : f.position?.isSome ↔ f.code.digits ∈ placedCodes := by
  cases f with
  | blocked obstacle _ =>
    cases obstacle <;>
      simp [ReadFault.code, ReadFault.position?, Obstacle.code, Code.digits, placedCodes]
  | _ => simp [ReadFault.code, ReadFault.position?, Code.digits, placedCodes]

theorem not_placed_value (f : ValueFault) : f.code.digits ∉ placedCodes := by
  cases f <;> simp [ValueFault.code, Code.digits, placedCodes]

theorem not_evaluation_read (f : ReadFault) : f.code.digits ∉ evaluationCodes := by
  cases f with
  | blocked obstacle _ =>
    cases obstacle <;> simp [ReadFault.code, Obstacle.code, Code.digits, evaluationCodes]
  | _ => simp [ReadFault.code, Code.digits, evaluationCodes]

/-- A fault of parsing stands where its position says. -/
theorem standsIn_of_parse_error {text : Text} {f : ReadFault} {position : Nat}
    (h : Expr.parse text = .error f) (hp : f.position? = some position) :
    (read f).StandsIn text position := by
  rcases Expr.parse_error_cases h with rfl | rfl | ⟨p, rfl, hlt, hr⟩ | ⟨obstacle, p, rfl, hr⟩
  · cases hp
  · cases hp
  · obtain rfl := Option.some.inj hp
    exact ⟨Nat.le_of_lt hlt, hr⟩
  · obtain rfl := Option.some.inj hp
    have hcode : (read (.blocked obstacle p)).code ≠ .repeatedPoint := by
      cases obstacle <;> simp [code, ReadFault.code, Obstacle.code]
    refine ⟨?_, by rwa [if_neg hcode]⟩
    rcases hr with rfl | hr
    · exact Nat.le_refl _
    · exact Nat.le_of_lt hr.lt_length

end Fault

namespace Outcome

/-- A missing or blank answer. -/
theorem regular_empty {answer : Option Text}
    (h : answer.bind (fun text => if isAllBlank text then none else some (canonical text)) = none) :
    Regular answer (.failure (.read .emptyExpression) none) where
  finite h := by cases h
  classified h := by
    cases h
    exact Fault.classified_of_code_ne (by simp [Fault.code, ReadFault.code])
  expression := h.symm
  placed h := by
    cases h
    exact Fault.placed_read .emptyExpression
  position h hp := by
    cases h
    cases hp
  parsed h hc := by
    cases h
    exact absurd hc (Fault.not_evaluation_read .emptyExpression)

/-- A canonical form that cannot be read. -/
theorem regular_read {text : Text} {f : ReadFault} (hb : isAllBlank text = false)
    (hp : Expr.parse (canonical text) = .error f) :
    Regular (some text) (.failure (.read f) (some (canonical text))) where
  finite h := by cases h
  classified h := by
    cases h
    exact Fault.classified_of_code_ne (Fault.code_ne_unexpected_of_read f)
  expression := by simp [expression?, hb]
  placed h := by
    cases h
    exact Fault.placed_read f
  position h hpos := by
    cases h
    exact ⟨_, rfl, Fault.standsIn_of_parse_error hp hpos⟩
  parsed h hc := by
    cases h
    exact absurd hc (Fault.not_evaluation_read f)

/-- An expression without a value. -/
theorem regular_value {text : Text} {e : Expr} {f : ValueFault} (hb : isAllBlank text = false)
    (hp : Expr.parse (canonical text) = .ok e) (hf : f.code ≠ .unexpected) :
    Regular (some text) (.failure (.value f) (some (canonical text))) where
  finite h := by cases h
  classified h := by
    cases h
    exact Fault.classified_of_code_ne hf
  expression := by simp [expression?, hb]
  placed h := by
    cases h
    show (none : Option Nat).isSome ↔ f.code.digits ∈ Fault.placedCodes
    simpa using Fault.not_placed_value f
  position h hpos := by
    cases h
    cases hpos
  parsed h _ := ⟨text, e, rfl, hp⟩

/-- An expression with a value. -/
theorem regular_success {text : Text} {value : Float} (hb : isAllBlank text = false)
    (hv : value.isFinite = true) : Regular (some text) (.success value (canonical text)) where
  finite h := by
    cases h
    exact hv
  classified h := by cases h
  expression := by simp [expression?, hb]
  placed h := by cases h
  position h := by cases h
  parsed h := by cases h

/-- Every answer has an outcome with a finite value or a fault in its place,
whatever the text is. -/
theorem regular_ofAnswer (library : MathLibrary) (lawful : library.Lawful) (answer : Option Text) :
    Regular answer (@ofAnswer library answer) := by
  cases answer with
  | none => exact regular_empty rfl
  | some text =>
    show Regular (some text) (@ofText library text)
    unfold ofText
    cases hb : isAllBlank text with
    | true =>
      simp only [if_true]
      exact regular_empty (by simp [hb])
    | false =>
      simp only [Bool.false_eq_true, if_false]
      unfold evaluateCanonical
      cases hp : Expr.parse (canonical text) with
      | error f => exact regular_read hb hp
      | ok e =>
        simp only
        cases hv : @Expr.value library e with
        | error f => exact regular_value hb hp (Expr.foreseen_value lawful e f hv)
        | ok value => exact regular_success hb (@Expr.isFinite_of_value library e value hv)

theorem regular_ofAnswer_cube :
    MathLibrary.sample.Lawful ∧
      (@ofAnswer .sample (some "2^\x7b3\x7d".toList)).value?.any (· == 8) = true ∧
      Regular (some "2^\x7b3\x7d".toList) (@ofAnswer .sample (some "2^\x7b3\x7d".toList)) :=
  ⟨MathLibrary.lawful_sample, by decide +kernel, regular_ofAnswer _ MathLibrary.lawful_sample _⟩

end Outcome
end NumericAnswer
