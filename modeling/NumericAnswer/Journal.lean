/-
# The journal

With the setting for debugging, every stage of an evaluation is written down:
macros whose group is never closed, the canonical form, the tokens, the tree,
and the fault, if there is one. An expression that is nested too deeply leaves
no entry about its fault.

Key definitions: `Journal.Level`, `Journal.Entry`, `Journal.ofAnswer`,
`Journal.ofVerdict`.
-/
import NumericAnswer.Answer.Verdict
import NumericAnswer.Expr.Sketch

namespace NumericAnswer
namespace Journal

inductive Level where
  | debug
  | warning
  deriving DecidableEq, Repr

def Level.name : Level → String
  | debug => "DEBUG"
  | warning => "WARNING"

/-- The level that a setting asks for. -/
def Level.ofSetting (debug : Json) : Level :=
  if debug.isTrue then .debug else .warning

/-- The part of the library that writes an entry. -/
inductive Source where
  | form
  | engine
  | grading
  deriving DecidableEq, Repr

def Source.name : Source → String
  | form => "LatexMath.Normalizer"
  | engine => "LatexMath.MathEngine"
  | grading => "LatexMath.AnswerChecker"

/-- An entry about the course of an evaluation, which only the debug level
shows. -/
structure Entry where
  source : Source
  message : Text
  deriving DecidableEq, Repr

def Entry.text (entry : Entry) : Text :=
  (entry.source.name ++ " " ++ Level.debug.name ++ ": ").toList ++ entry.message

/-! ### Evaluation -/

def unclosedMessage (u : Unclosed) : Text :=
  "Unclosed ".toList ++ quoted [u.bracket.opening] ++ " after ".toList ++ quoted u.command ++
    " at position ".toList ++ numeral u.position

def tokenText (token : Token) : Text :=
  ("Token(" ++ token.symbol.kind ++ ", ").toList ++ quoted token.symbol.text ++
    ", ".toList ++ numeral token.position ++ [')']

def tokensMessage (ts : List Token) : Text :=
  "Tokens: [".toList ++ [',', ' '].intercalate (ts.map tokenText) ++ [']']

def failureMessage (answer : Text) (fault : Fault) : Text :=
  "Evaluation of ".toList ++ quoted answer ++
    (" failed: [" ++ fault.code.digits ++ "] " ++ fault.message).toList

/-- The tokens and the tree of a canonical text, as far as it can be read. -/
def ofReading (expression : Text) : List Entry :=
  match tokens expression with
  | .error _ => []
  | .ok ts =>
    ⟨.engine, tokensMessage ts⟩ ::
      (match Expr.ofTokens expression ts with
        | .error _ => []
        | .ok e => [⟨.engine, "Final AST: ".toList ++ e.text⟩])

def ofFault (answer : Text) (outcome : Outcome) : List Entry :=
  match outcome with
  | .failure fault (some _) =>
    if fault.isTooDeep || fault.isForeign then [] else [⟨.engine, failureMessage answer fault⟩]
  | _ => []

variable [MathLibrary]

/-- The entries about the evaluation of an answer. -/
def ofAnswer (answer : Text) : List Entry :=
  if isAllBlank answer then []
  else
    (unclosedMacros answer).map (fun u => ⟨.form, unclosedMessage u⟩) ++
      ⟨.form, "Normalized ".toList ++ quoted answer ++ " -> ".toList ++
        quoted (canonical answer)⟩ ::
      (ofReading (canonical answer) ++ ofFault answer (Outcome.ofText answer))

/-! ### Grading -/

def positionText : Option Nat → Text
  | some position => numeral position
  | none => "None".toList

def expressionText : Option Text → Text
  | some expression => quoted expression
  | none => "None".toList

def outcomeText : Outcome → Text
  | .success value expression =>
    "Success(value=".toList ++ floatText value ++ ", expression=".toList ++ quoted expression ++
      ", success=True)".toList
  | .failure fault expression =>
    ("Failure(kind=<ErrorKind." ++ fault.kind.label ++ ": '" ++ fault.kind.name ++
      "'>, message=").toList ++ quoted fault.message.toList ++ ", expression=".toList ++
      expressionText expression ++ (", code='" ++ fault.code.digits ++ "', position=").toList ++
      positionText fault.position? ++ ", success=False)".toList

/-- The entry about answers that are not compared by value. -/
def skippedMessage (user expected : Outcome) : Text :=
  "Numeric comparison skipped: user=".toList ++ outcomeText user ++ " expected=".toList ++
    outcomeText expected

/-- The entries about the grading of an answer that is no choice. -/
def ofVerdict (user expected : Text) : List Entry :=
  let user := cleaned user
  let expected := cleaned expected
  if user.isEmpty || unblanked user = unblanked expected then []
  else
    let userOutcome := Outcome.ofText user
    let expectedOutcome := Outcome.ofText expected
    ofAnswer user ++ ofAnswer expected ++
      (if userOutcome.isSuccess && expectedOutcome.isSuccess then []
      else [⟨.grading, skippedMessage userOutcome expectedOutcome⟩])

end Journal
end NumericAnswer
