/-
# Grading

A submitted answer is compared with the expected one: as a set of options, or
first as a text without blanks and then, if both have values, by their values
within a tolerance. An empty answer is never right.

Key definitions: `QuestionType`, `Verdict`, `numbersMatch`, `choiceVerdict`,
`Access.verdict`.
-/
import NumericAnswer.Answer.Choice
import NumericAnswer.Answer.Clean
import NumericAnswer.Outcome
import NumericAnswer.Settings.Quantity
import NumericAnswer.Settings.Store

namespace NumericAnswer

inductive QuestionType where
  | choice | blank | answer
  deriving DecidableEq, Repr

namespace QuestionType

def name : QuestionType → String
  | choice => "choice"
  | blank => "blank"
  | answer => "answer"

def ofName? (name : String) : Option QuestionType :=
  [choice, blank, answer].find? fun t => t.name = name

/-- What is said of a name that is no question type. -/
def unknownMessage (name : Text) : String :=
  "Unknown question type: " ++ String.ofList (quoted name)

end QuestionType

/-- How two answers were compared. -/
inductive Method where
  | exact
  | numeric
  deriving DecidableEq, Repr

def Method.name : Method → String
  | exact => "exact"
  | numeric => "numeric"

/-- Why an answer is not right. -/
inductive Remark where
  | emptyAnswer
  | incorrect
  deriving DecidableEq, Repr

def Remark.name : Remark → String
  | emptyAnswer => "empty_answer"
  | incorrect => "incorrect"

/-- What was compared. -/
inductive Evidence where
  | nothing
  | texts (user expected : Text)
  /-- Texts with the form that was compared. -/
  | letters (user expected userLetters expectedLetters : Text)
  | values (user expected userExpression expectedExpression : Text)
      (userValue expectedValue : Float)

structure Verdict where
  correct : Bool
  method : Method
  remark : Option Remark
  evidence : Evidence

/-- Two values differ by at most the tolerance, relative to the expected value
if that is above 1. -/
def numbersMatch (tolerance user expected : Float) : Bool :=
  let scale := if expected.abs < 1 then 1 else expected.abs
  (user - expected).abs ≤ tolerance * scale

/-- Two choice answers name the same options. -/
def choiceVerdict (user expected : Text) : Verdict :=
  let userLetters := optionLetters user
  let expectedLetters := optionLetters expected
  ⟨userLetters = expectedLetters, .exact, none, .letters user expected userLetters expectedLetters⟩

/-- A comparison by value that came out so. -/
def numericVerdict (correct : Bool) (evidence : Evidence) : Verdict :=
  ⟨correct, .numeric, if correct then none else some .incorrect, evidence⟩

namespace Access

/-- The values match within the given tolerance, or else within that of the
settings. -/
def numbersMatch (tolerance : Option Float) (user expected : Float) : Access Bool :=
  match tolerance with
  | some tolerance => return NumericAnswer.numbersMatch tolerance user expected
  | none => do
    let tolerance ← ofExcept ((← settings).get .answerTolerance).factor
    return NumericAnswer.numbersMatch tolerance user expected

variable [MathLibrary]

/-- Compares two cleaned answers, by value if their texts differ. -/
def valueVerdict (user expected : Text) : Access Verdict :=
  if unblanked user = unblanked expected then return ⟨true, .exact, none, .texts user expected⟩
  else
    match Outcome.ofText user, Outcome.ofText expected with
    | .success userValue userExpression, .success expectedValue expectedExpression => do
      let correct ← numbersMatch none userValue expectedValue
      return numericVerdict correct
        (.values user expected userExpression expectedExpression userValue expectedValue)
    | _, _ => return ⟨false, .exact, some .incorrect, .texts user expected⟩

/-- Grades an answer. -/
def verdict (type : QuestionType) (user expected : Text) : Access Verdict :=
  let user := cleaned user
  let expected := cleaned expected
  if user.isEmpty then return ⟨false, .exact, some .emptyAnswer, .nothing⟩
  else if type = .choice then return choiceVerdict user expected
  else valueVerdict user expected

end Access

variable [MathLibrary]

/-- The answer has a value. -/
def isNumericAnswer (answer : Text) : Bool :=
  (Outcome.ofText (cleaned answer)).isSuccess

end NumericAnswer
