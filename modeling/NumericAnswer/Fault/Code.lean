/-
# Fault codes

Every fault has a kind, which callers act on, and a code of four digits, which
names the rule that was broken: the first digit is the area (1 input, 2
functions, 3 calculation, 9 anything else).

Key definitions: `Kind`, `Code`, `Code.digits`, `Code.summary`, `Code.kind`.
Key theorems: `Code.ofDigits?_digits`, `Code.digits_injective`.
-/

namespace NumericAnswer

/-- What sort of thing went wrong. -/
inductive Kind where
  | syntaxError
  | unsupportedConstruct
  | divisionByZero
  | negativeRadicand
  | nonPositiveLogArgument
  | outOfDomain
  | invalidPower
  | numericOverflow
  deriving DecidableEq, Repr

namespace Kind

/-- The name in answers. -/
def name : Kind → String
  | syntaxError => "SyntaxError"
  | unsupportedConstruct => "UnsupportedConstruct"
  | divisionByZero => "DivisionByZero"
  | negativeRadicand => "NegativeRadicand"
  | nonPositiveLogArgument => "NonPositiveLogArgument"
  | outOfDomain => "OutOfDomain"
  | invalidPower => "InvalidPower"
  | numericOverflow => "NumericOverflow"

/-- The name in the journal. -/
def label : Kind → String
  | syntaxError => "SYNTAX_ERROR"
  | unsupportedConstruct => "UNSUPPORTED_CONSTRUCT"
  | divisionByZero => "DIVISION_BY_ZERO"
  | negativeRadicand => "NEGATIVE_RADICAND"
  | nonPositiveLogArgument => "NON_POSITIVE_LOG_ARGUMENT"
  | outOfDomain => "OUT_OF_DOMAIN"
  | invalidPower => "INVALID_POWER"
  | numericOverflow => "NUMERIC_OVERFLOW"

/-- The expression is well formed and has no value. -/
def isDomainError : Kind → Bool
  | divisionByZero | negativeRadicand | nonPositiveLogArgument | outOfDomain | invalidPower => true
  | syntaxError | unsupportedConstruct | numericOverflow => false

end Kind

/-- The rule that was broken. -/
inductive Code where
  | emptyExpression
  | unsupportedConstruct
  | ambiguousExponent
  | negativeSquareRoot
  | negativeEvenRoot
  | zeroDegree
  | logArgument
  | logBase
  | logBaseOne
  | outsideUnitInterval
  | zeroReciprocal
  | factorialOperand
  | unexpectedToken
  | missingOperand
  | missingBracket
  | divisionByZero
  | negativeBase
  | zeroToNegative
  | unknownName
  | unmatchedBar
  | trailingInput
  | adjacentNumbers
  | expectedGroup
  | nestedTooDeeply
  | repeatedPoint
  | tooBig
  | unexpected
  deriving DecidableEq, Repr

namespace Code

def all : List Code :=
  [emptyExpression, unsupportedConstruct, ambiguousExponent, negativeSquareRoot, negativeEvenRoot,
   zeroDegree, logArgument, logBase, logBaseOne, outsideUnitInterval, zeroReciprocal,
   factorialOperand, unexpectedToken, missingOperand, missingBracket, divisionByZero, negativeBase,
   zeroToNegative, unknownName, unmatchedBar, trailingInput, adjacentNumbers, expectedGroup,
   nestedTooDeeply, repeatedPoint, tooBig, unexpected]

def digits : Code → String
  | emptyExpression => "1000"
  | unsupportedConstruct => "1001"
  | ambiguousExponent => "1002"
  | negativeSquareRoot => "2000"
  | negativeEvenRoot => "2001"
  | zeroDegree => "2002"
  | logArgument => "2003"
  | logBase => "2004"
  | logBaseOne => "2005"
  | outsideUnitInterval => "2006"
  | zeroReciprocal => "2007"
  | factorialOperand => "2008"
  | unexpectedToken => "3000"
  | missingOperand => "3001"
  | missingBracket => "3002"
  | divisionByZero => "3003"
  | negativeBase => "3004"
  | zeroToNegative => "3005"
  | unknownName => "3006"
  | unmatchedBar => "3007"
  | trailingInput => "3008"
  | adjacentNumbers => "3009"
  | expectedGroup => "3010"
  | nestedTooDeeply => "3011"
  | repeatedPoint => "3012"
  | tooBig => "3026"
  | unexpected => "9999"

/-- The rule in words; where it ends in a colon, the thing at fault follows. -/
def summary : Code → String
  | emptyExpression => "Empty expression"
  | unsupportedConstruct => "Unsupported construct: "
  | ambiguousExponent => "Ambiguous exponent on function name: "
  | negativeSquareRoot => "Negative radicand in square root"
  | negativeEvenRoot => "Negative radicand in even root"
  | zeroDegree => "Root degree must not be zero"
  | logArgument => "Logarithm argument must be positive"
  | logBase => "Logarithm base must be positive"
  | logBaseOne => "Logarithm base must not be 1"
  | outsideUnitInterval => "Argument outside [-1, 1]: "
  | zeroReciprocal => "Division by zero in reciprocal function: "
  | factorialOperand => "Factorial needs a non-negative integer"
  | unexpectedToken => "Unexpected token: "
  | missingOperand => "Missing operand"
  | missingBracket => "Missing closing bracket: "
  | divisionByZero => "Division by zero"
  | negativeBase => "Negative base with non-integer exponent"
  | zeroToNegative => "Zero raised to a negative power"
  | unknownName => "Unrecognized identifier: "
  | unmatchedBar => "Unmatched '|'"
  | trailingInput => "Unexpected trailing input: "
  | adjacentNumbers => "Adjacent numbers without operator"
  | expectedGroup => "Expected '\x7b' after: "
  | nestedTooDeeply => "Expression nested too deeply"
  | repeatedPoint => "More than one '.' in one number."
  | tooBig => "Number too big."
  | unexpected => "Unexpected Error: "

/-- The kind of the faults that break the rule. -/
def kind : Code → Kind
  | unsupportedConstruct | ambiguousExponent => .unsupportedConstruct
  | negativeSquareRoot | negativeEvenRoot => .negativeRadicand
  | zeroDegree | logBaseOne | outsideUnitInterval | factorialOperand | unexpected => .outOfDomain
  | logArgument | logBase => .nonPositiveLogArgument
  | zeroReciprocal | divisionByZero | zeroToNegative => .divisionByZero
  | negativeBase => .invalidPower
  | tooBig => .numericOverflow
  | emptyExpression | unexpectedToken | missingOperand | missingBracket | unknownName
  | unmatchedBar | trailingInput | adjacentNumbers | expectedGroup | nestedTooDeeply
  | repeatedPoint => .syntaxError

def ofDigits? (digits : String) : Option Code :=
  all.find? fun code => code.digits = digits

theorem ofDigits?_digits (code : Code) : ofDigits? code.digits = some code := by
  cases code <;> decide +kernel

theorem digits_injective {a b : Code} (h : a.digits = b.digits) : a = b := by
  have := ofDigits?_digits a
  rw [h, ofDigits?_digits b] at this
  exact (Option.some.inj this).symm

end Code
end NumericAnswer
