/-
# Faults of reading

The ways in which a canonical text can fail to be an expression. All but three
stand at a position of the text, which their message ends with.

Key definitions: `Obstacle`, `ReadFault`, `ReadFault.message`,
`ReadFault.position?`.
Key theorem: `ReadFault.kind_eq_kind_code`.
-/
import NumericAnswer.Fault.Code
import NumericAnswer.Notation.Bracket

namespace NumericAnswer

/-- What the parser cannot get past. -/
inductive Obstacle where
  | unsupportedConstruct (command : String)
  /-- A sign after `^` on a function could mean the inverse or the reciprocal. -/
  | ambiguousExponent (function : String)
  | unexpectedToken (text : String)
  /-- The text ends where an operand is due. -/
  | missingOperand
  | missingOperandBefore (text : String)
  | missingArgument (function : String)
  | missingClosing (bracket : Bracket) (opened : Nat)
  | unknownName (text : String)
  | unmatchedBar
  | trailingInput (rest : String)
  | adjacentNumbers
  | expectedGroup (bracket : Bracket) (after : String)
  /-- A command that takes arguments was left without them. -/
  | unbracedCommand (command : String)
  deriving DecidableEq, Repr

namespace Obstacle

def code : Obstacle → Code
  | unsupportedConstruct _ => .unsupportedConstruct
  | ambiguousExponent _ => .ambiguousExponent
  | unexpectedToken _ => .unexpectedToken
  | missingOperand | missingOperandBefore _ | missingArgument _ => .missingOperand
  | missingClosing _ _ => .missingBracket
  | unknownName _ => .unknownName
  | unmatchedBar => .unmatchedBar
  | trailingInput _ => .trailingInput
  | adjacentNumbers => .adjacentNumbers
  | expectedGroup _ _ | unbracedCommand _ => .expectedGroup

def kind : Obstacle → Kind
  | unsupportedConstruct _ | ambiguousExponent _ => .unsupportedConstruct
  | _ => .syntaxError

def message : Obstacle → String
  | unsupportedConstruct command => s!"Unsupported construct: {command}"
  | ambiguousExponent function => s!"Ambiguous exponent on function name: {function}"
  | unexpectedToken text => s!"Unexpected token: '{text}'"
  | missingOperand => "Missing operand"
  | missingOperandBefore text => s!"Missing operand before '{text}'"
  | missingArgument function => s!"Missing argument for '{function}'"
  | missingClosing bracket opened =>
    s!"Missing closing bracket: '{bracket.closing}' for '{bracket.opening}' " ++
      s!"opened at position {opened},"
  | unknownName text => s!"Unrecognized identifier: '{text}'"
  | unmatchedBar => "Unmatched '|'"
  | trailingInput rest => s!"Unexpected trailing input: '{rest}'"
  | adjacentNumbers => "Adjacent numbers without operator"
  | expectedGroup bracket after => s!"Expected '{bracket.opening}' after: {after}"
  | unbracedCommand command => s!"Unbalanced or missing braces after: {command}"

end Obstacle

/-- Why a canonical text is no expression. -/
inductive ReadFault where
  | emptyExpression
  /-- More levels than the parser descends. -/
  | nestedTooDeeply
  /-- The number that starts at the position has two points. -/
  | repeatedPoint (position : Nat)
  | blocked (obstacle : Obstacle) (position : Nat)
  deriving DecidableEq, Repr

namespace ReadFault

def code : ReadFault → Code
  | emptyExpression => .emptyExpression
  | nestedTooDeeply => .nestedTooDeeply
  | repeatedPoint _ => .repeatedPoint
  | blocked obstacle _ => obstacle.code

def kind : ReadFault → Kind
  | emptyExpression | nestedTooDeeply | repeatedPoint _ => .syntaxError
  | blocked obstacle _ => obstacle.kind

theorem kind_eq_kind_code (f : ReadFault) : f.kind = f.code.kind := by
  cases f with
  | blocked obstacle => cases obstacle <;> rfl
  | _ => rfl

def position? : ReadFault → Option Nat
  | emptyExpression | nestedTooDeeply => none
  | repeatedPoint position | blocked _ position => some position

def message : ReadFault → String
  | emptyExpression => Code.emptyExpression.summary
  | nestedTooDeeply => Code.nestedTooDeeply.summary
  | repeatedPoint position => s!"More than one '.' in one number at position {position}."
  | blocked obstacle position => s!"{obstacle.message} at position {position}"

/-- The fault carries the text read: it stands in an expression, not in a number. -/
def citesText : ReadFault → Bool
  | emptyExpression | blocked _ _ => true
  | nestedTooDeeply | repeatedPoint _ => false

end ReadFault
end NumericAnswer
