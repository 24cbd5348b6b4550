/-
# Reading expressions

A sum consists of terms, a term of factors with signs, a signed factor of
powers, a power of factors with factorials; juxtaposition multiplies. Powers
group to the right, everything else to the left. A function takes a bracket
group or, without one, a signed factor.

Each function of the parser costs one of the `calls` it may nest; none reads
more of the text than up to the first token that it cannot use.

Key definitions: `Expr.sum`, `Expr.factor`, `Expr.parseWithin`, `Expr.parse`.
-/
import NumericAnswer.Expr.Basic
import NumericAnswer.Token

namespace NumericAnswer
namespace Expr

/-- The calls that the parser may nest. -/
def callLimit : Nat := 1000

/-- Fails at the next token, or at the end of the text. -/
def blockedAt (stop : Nat) (obstacle : Obstacle) : List Token → ReadFault
  | [] => .blocked obstacle stop
  | token :: _ => .blocked obstacle token.position

/-- Passes over the closing bracket of a group. -/
def expectClosing (stop : Nat) (bracket : Bracket) (opened : Nat) (ts : List Token) :
    Except ReadFault (List Token) :=
  let fault := blockedAt stop (.missingClosing bracket opened) ts
  match ts with
  | [] => .error fault
  | token :: rest => if token.symbol = .closing bracket then .ok rest else .error fault

/-- A minus follows a `^` that stands first, possibly after an opening bracket. -/
def isNegativeExponent : List Token → Bool
  | _ :: ⟨.operator .minus, _, _⟩ :: _ => true
  | _ :: ⟨.opening _, _, _⟩ :: ⟨.operator .minus, _, _⟩ :: _ => true
  | _ => false

/-- Extends an expression as long as the tokens go on with it, at most `bound`
times. -/
def extend (step : Expr → List Token → Option (Except ReadFault (Expr × List Token))) :
    Nat → Expr → List Token → Except ReadFault (Expr × List Token)
  | 0, x, ts => .ok (x, ts)
  | bound + 1, x, ts =>
    match step x ts with
    | none => .ok (x, ts)
    | some result => do
      let (y, rest) ← result
      extend step bound y rest

/-- A plus or minus and a term. -/
def sumStep (term : List Token → Except ReadFault (Expr × List Token)) (x : Expr) :
    List Token → Option (Except ReadFault (Expr × List Token))
  | ⟨.operator .plus, _, _⟩ :: ts => some do
    let (y, rest) ← term ts
    .ok (binary .add x y, rest)
  | ⟨.operator .minus, _, _⟩ :: ts => some do
    let (y, rest) ← term ts
    .ok (binary .subtract x y, rest)
  | _ => none

/-- A sign of multiplication or division and a signed factor, or a power right
after what stands before it. Two numbers do not multiply like that. -/
def termStep (signed power : List Token → Except ReadFault (Expr × List Token)) (x : Expr) :
    List Token → Option (Except ReadFault (Expr × List Token))
  | [] => none
  | token :: ts =>
    match token.symbol with
    | .operator .times => some do
      let (y, rest) ← signed ts
      .ok (binary .multiply x y, rest)
    | .operator .divide => some do
      let (y, rest) ← signed ts
      .ok (binary .divide x y, rest)
    | symbol =>
      if !symbol.startsOperand then none
      else if symbol.isNumber && token.afterNumber then
        some (.error (.blocked .adjacentNumbers token.position))
      else some do
        let (y, rest) ← power (token :: ts)
        .ok (binary .multiply x y, rest)

/-- A factorial sign. -/
def postfixStep (x : Expr) : List Token → Option (Except ReadFault (Expr × List Token))
  | ⟨.operator .bang, _, _⟩ :: ts => some (.ok (factorial x, ts))
  | _ => none

/-- Commands that stand for more than numbers. -/
def unsupportedCommands : List String :=
  ["\\int", "\\iint", "\\iiint", "\\oint", "\\sum", "\\prod", "\\lim", "\\infty", "\\partial",
   "\\pm", "\\mp"]

/-- Commands that only a text with broken arguments still holds. -/
def argumentCommands : List String :=
  ["\\frac", "\\dfrac", "\\tfrac", "\\cfrac", "\\sqrt", "\\log"]

/-- Why a symbol is no factor. -/
def obstacleOf (symbol : Symbol) : Obstacle :=
  match symbol with
  | .bar => .unmatchedBar
  | .command text =>
    let command := String.ofList text
    if unsupportedCommands.contains command then .unsupportedConstruct command
    else if argumentCommands.contains command then .unbracedCommand command
    else .unknownName command
  | .operator _ | .closing _ | .comma => .missingOperandBefore symbol.string
  | .letters _ => .unknownName symbol.string
  | _ => .unexpectedToken symbol.string

variable (stop : Nat)

mutual

/-- A sum of terms. `stop` is the length of the text. -/
def sum : Nat → List Token → Except ReadFault (Expr × List Token)
  | 0, _ => .error .nestedTooDeeply
  | calls + 1, ts => do
    let (x, rest) ← term calls ts
    extend (sumStep (term calls)) rest.length x rest

def term : Nat → List Token → Except ReadFault (Expr × List Token)
  | 0, _ => .error .nestedTooDeeply
  | calls + 1, ts => do
    let (x, rest) ← signed calls ts
    extend (termStep (signed calls) (raised calls)) rest.length x rest

/-- A power with signs before it. -/
def signed : Nat → List Token → Except ReadFault (Expr × List Token)
  | 0, _ => .error .nestedTooDeeply
  | calls + 1, ts =>
    match ts with
    | ⟨.operator .plus, _, _⟩ :: rest => signed calls rest
    | ⟨.operator .minus, _, _⟩ :: rest => do
      let (x, rest) ← signed calls rest
      .ok (neg x, rest)
    | ts => raised calls ts

/-- A factor with its factorials, raised to a power or not. -/
def raised : Nat → List Token → Except ReadFault (Expr × List Token)
  | 0, _ => .error .nestedTooDeeply
  | calls + 1, ts => do
    let (x, rest) ← postfixed calls ts
    match rest with
    | ⟨.operator .caret, _, _⟩ :: rest => do
      let (y, rest) ← signed calls rest
      .ok (power x y, rest)
    | rest => .ok (x, rest)

/-- A factor with its factorials. -/
def postfixed : Nat → List Token → Except ReadFault (Expr × List Token)
  | 0, _ => .error .nestedTooDeeply
  | calls + 1, ts => do
    let (x, rest) ← factor calls ts
    extend postfixStep rest.length x rest

/-- A number, a bracket group, or what a word begins. -/
def factor : Nat → List Token → Except ReadFault (Expr × List Token)
  | 0, _ => .error .nestedTooDeeply
  | calls + 1, ts =>
    match ts with
    | [] => .error (.blocked .missingOperand stop)
    | token :: rest =>
      match token.symbol with
      | .number literal => .ok (number literal.value, rest)
      | .opening _ => group calls ts
      | .word w => worded calls w rest
      | symbol => .error (.blocked (obstacleOf symbol) token.position)

/-- A constant, or a word with its arguments. -/
def worded : Nat → Word → List Token → Except ReadFault (Expr × List Token)
  | 0, _, _ => .error .nestedTooDeeply
  | calls + 1, w, ts =>
    match w with
    | .constant c => .ok (constant c, ts)
    | .fraction => do
      let (x, rest) ← requiredGroup calls .curly w ts
      let (y, rest) ← requiredGroup calls .curly w rest
      .ok (fraction x y, rest)
    | .absolute => do
      let (x, rest) ← argument calls w ts
      .ok (abs x, rest)
    | .binary f => do
      let (x, rest) ← requiredGroup calls .square w ts
      let (y, rest) ← argument calls w rest
      .ok (call₂ f x y, rest)
    | .unary .log =>
      match ts with
      | ⟨.opening .round, opened, _⟩ :: rest => do
        let (x, rest) ← sum calls rest
        match rest with
        | ⟨.comma, _, _⟩ :: rest => do
          let (base, rest) ← sum calls rest
          let rest ← expectClosing stop .round opened rest
          .ok (call₂ .logBase base x, rest)
        | rest => do
          let rest ← expectClosing stop .round opened rest
          .ok (call .log x, rest)
      | ts => do
        let (x, rest) ← argument calls w ts
        .ok (call .log x, rest)
    | .unary f => do
      let (x, rest) ← argument calls w ts
      .ok (call f x, rest)

/-- The argument of a function: a bracket group or a signed factor. -/
def argument : Nat → Word → List Token → Except ReadFault (Expr × List Token)
  | 0, _, _ => .error .nestedTooDeeply
  | calls + 1, w, ts =>
    match ts with
    | [] => .error (.blocked (.missingArgument w.name) stop)
    | token :: _ =>
      match token.symbol with
      | .operator .caret =>
        if isNegativeExponent ts then
          .error (.blocked (.ambiguousExponent w.name) token.position)
        else .error (.blocked (.missingArgument w.name) token.position)
      | .opening _ => group calls ts
      | _ => signed calls ts

/-- A group that must stand after a word: in square brackets if those are
asked for, else in brackets of any type. -/
def requiredGroup : Nat → Bracket → Word → List Token → Except ReadFault (Expr × List Token)
  | 0, _, _, _ => .error .nestedTooDeeply
  | calls + 1, bracket, w, ts =>
    let fault := blockedAt stop (.expectedGroup bracket w.name) ts
    match ts with
    | ⟨.opening b, _, _⟩ :: _ =>
      if bracket = .square && b ≠ .square then .error fault else group calls ts
    | _ => .error fault

/-- A sum in brackets. -/
def group : Nat → List Token → Except ReadFault (Expr × List Token)
  | 0, _ => .error .nestedTooDeeply
  | calls + 1, ts =>
    match ts with
    | ⟨.opening b, opened, _⟩ :: rest => do
      let (x, rest) ← sum calls rest
      let rest ← expectClosing stop b opened rest
      .ok (x, rest)
    | ts => .error (blockedAt stop .missingOperand ts)

end

/-- The expression that all the tokens of `text` make up, if no more than
`calls` calls nest. -/
def ofTokensWithin (calls : Nat) (text : Text) (ts : List Token) : Except ReadFault Expr :=
  if ts.isEmpty then .error .emptyExpression
  else do
    let (x, rest) ← sum text.length calls ts
    match rest with
    | [] => .ok x
    | token :: _ =>
      .error (.blocked (.trailingInput (String.ofList (text.drop token.position))) token.position)

def ofTokens (text : Text) (ts : List Token) : Except ReadFault Expr :=
  ofTokensWithin callLimit text ts

/-- The expression that a canonical text writes, if no more than `calls` calls
nest. -/
def parseWithin (calls : Nat) (text : Text) : Except ReadFault Expr := do
  let ts ← tokens text
  ofTokensWithin calls text ts

/-- The expression that a canonical text writes. -/
def parse (text : Text) : Except ReadFault Expr :=
  parseWithin callLimit text

end Expr
end NumericAnswer
