/-
# Tokens of the canonical form

A canonical text is cut into the longest literals, runs of letters, commands
and single signs; blanks only separate. A run of letters is cut further into
known words, the longest at each point; what starts with no word stays whole.

Key definitions: `Operator`, `Symbol`, `Token`, `splitWords`, `tokens`.
Key theorem: `flatMap_text_splitWords`.
-/
import NumericAnswer.Fault.Read
import NumericAnswer.Function.Basic
import NumericAnswer.Number.Literal
import NumericAnswer.Text.Blank
import NumericAnswer.Text.Letter

namespace NumericAnswer

inductive Operator where
  | plus | minus | times | divide | caret | bang
  deriving DecidableEq, Repr

namespace Operator

def sign : Operator → Char
  | plus => '+'
  | minus => '-'
  | times => '*'
  | divide => '/'
  | caret => '^'
  | bang => '!'

def all : List Operator :=
  [plus, minus, times, divide, caret, bang]

def ofSign? (c : Char) : Option Operator :=
  all.find? fun o => o.sign = c

end Operator

/-- What a token is. -/
inductive Symbol where
  | number (literal : Literal)
  | word (w : Word)
  /-- Letters that start with no word. -/
  | letters (text : Text)
  | operator (o : Operator)
  | opening (b : Bracket)
  | closing (b : Bracket)
  | comma
  | bar
  | command (text : Text)
  | unknown (c : Char)
  deriving DecidableEq, Repr

namespace Symbol

def text : Symbol → Text
  | number literal => literal.text
  | word w => w.text
  | letters text => text
  | operator o => [o.sign]
  | opening b => [b.opening]
  | closing b => [b.closing]
  | comma => [',']
  | bar => ['|']
  | command text => text
  | unknown c => [c]

def string (s : Symbol) : String :=
  String.ofList s.text

/-- The name of its class. -/
def kind : Symbol → String
  | number _ => "number"
  | word _ | letters _ => "name"
  | operator _ => "operator"
  | opening _ => "open"
  | closing _ => "close"
  | comma => "comma"
  | bar => "bar"
  | command _ => "command"
  | unknown _ => "unknown"

def isNumber : Symbol → Bool
  | number _ => true
  | _ => false

/-- The symbol may begin an operand, so it multiplies with what stands before it. -/
def startsOperand : Symbol → Bool
  | number _ | word _ | letters _ | opening _ | command _ | bar => true
  | operator _ | closing _ | comma | unknown _ => false

/-- A single character that is neither part of a number, a letter nor a
backslash. -/
def ofSign (c : Char) : Symbol :=
  match Operator.ofSign? c, Bracket.ofOpening? c, Bracket.ofClosing? c with
  | some o, _, _ => operator o
  | none, some b, _ => opening b
  | none, none, some b => closing b
  | none, none, none => if c = ',' then comma else if c = '|' then bar else unknown c

end Symbol

/-- A symbol at its place. -/
structure Token where
  symbol : Symbol
  position : Nat
  /-- The token just before it is a number. -/
  afterNumber : Bool
  deriving DecidableEq, Repr

/-- The words that a run of letters begins with, and last the letters that
start with no word. -/
def splitWords (s : Text) : List Symbol :=
  match s with
  | [] => []
  | c :: cs =>
    match Word.atFront? (c :: cs) with
    | some w => .word w :: splitWords ((c :: cs).drop w.text.length)
    | none => [.letters (c :: cs)]
termination_by s.length
decreasing_by
  have := List.length_pos_iff.mpr (Word.text_ne_nil w)
  simp only [List.length_drop, List.length_cons]
  omega

/-- The command after a backslash: its letters, or one other character. -/
def commandBody (s : Text) : Text :=
  match s.takeWhile isAsciiLetter with
  | [] => s.take 1
  | letters => letters

/-- The symbols of the lexeme that starts with `c`, and how many of the
characters after `c` belong to it. -/
def lexeme (c : Char) (s : Text) : List Symbol × Nat :=
  match Literal.read? (c :: s) with
  | some (literal, _) => ([.number literal], literal.text.length - 1)
  | none =>
    if isAsciiLetter c then
      let letters := s.takeWhile isAsciiLetter
      (splitWords (c :: letters), letters.length)
    else if c = '\\' then
      let body := commandBody s
      ([.command (c :: body)], body.length)
    else ([.ofSign c], 0)

/-- A number with a point is followed by another point. -/
def repeatsPoint (symbols : List Symbol) (rest : Text) : Bool :=
  match symbols, rest with
  | [.number literal], '.' :: _ => literal.point
  | _, _ => false

/-- Symbols in a row as tokens. -/
def place (position : Nat) (afterNumber : Bool) : List Symbol → List Token
  | [] => []
  | symbol :: symbols =>
    ⟨symbol, position, afterNumber⟩ ::
      place (position + symbol.text.length) symbol.isNumber symbols

/-- The tokens of a text that starts at `position`. -/
def tokensFrom (position : Nat) (afterNumber : Bool) : Text → Except ReadFault (List Token)
  | [] => .ok []
  | c :: s =>
    if isBlank c then tokensFrom (position + 1) afterNumber s
    else
      let (symbols, length) := lexeme c s
      if repeatsPoint symbols (s.drop length) then .error (.repeatedPoint position)
      else do
        let later ← tokensFrom (position + 1 + length) (symbols.any Symbol.isNumber) (s.drop length)
        .ok (place position afterNumber symbols ++ later)
termination_by s => s.length
decreasing_by all_goals simp only [List.length_cons, List.length_drop]; omega

/-- The tokens of a canonical text. -/
def tokens (s : Text) : Except ReadFault (List Token) :=
  tokensFrom 0 false s

theorem Word.eq_append_of_atFront? {s : Text} {w : Word} (h : Word.atFront? s = some w) :
    s = w.text ++ s.drop w.text.length := by
  have := List.find?_some h
  simp only [List.isPrefixOf_iff_prefix] at this
  obtain ⟨t, rfl⟩ := this
  simp

/-- Cutting into words loses nothing. -/
theorem flatMap_text_splitWords (s : Text) : (splitWords s).flatMap Symbol.text = s := by
  fun_induction splitWords s with
  | case1 => rfl
  | case2 c cs w h ih =>
    rw [List.flatMap_cons, ih]
    exact (Word.eq_append_of_atFront? h).symm
  | case3 c cs h => simp [Symbol.text]

end NumericAnswer
