/-
# Bars of absolute values

A bar opens an absolute value or closes the one opened last in the same
bracket group. Inside an absolute value it opens a nested one unless the text
before it ends in an operand. Each pair becomes `abs(` and `)`; a bar without
a partner stays.

Key definitions: `barOpens`, `BarState`, `barPairs`, `expandBars`.
-/
import NumericAnswer.Function.Basic
import NumericAnswer.Text.Blank
import NumericAnswer.Text.Letter

namespace NumericAnswer

/-- The letters that end the text before a bar name a function, or follow a
backslash. `before` is that text in reverse. -/
def endsInFunction (before : Text) : Bool :=
  let run := before.takeWhile isLetter
  (UnaryFunction.ofCommand? run.reverse).isSome || (before.drop run.length).head? = some '\\'

/-- A bar inside an absolute value opens another one. `before` is the text
before it in reverse; `lastOpened` says what the last bar did. -/
def barOpens (before : Text) (lastOpened : Bool) : Bool :=
  match dropBlanks before with
  | [] => true
  | c :: rest =>
    if c = '|' then lastOpened
    else if isLetter c then endsInFunction (c :: rest)
    else !(isDigit c || [')', ']', '\x7d', '.', '!'].contains c)

/-- A bracket or a bar that is still open. -/
inductive OpenMark where
  | bracket
  | bar (position : Nat)
  deriving DecidableEq, Repr

def OpenMark.isBar : OpenMark → Bool
  | bar _ => true
  | bracket => false

/-- Where the pairing stands between two characters. -/
structure BarState where
  /-- The text read, in reverse. -/
  before : Text
  /-- What is open, the last one first. -/
  marks : List OpenMark
  /-- The last bar opened an absolute value. -/
  lastOpened : Bool
  /-- The pairs found, the last one first. -/
  pairs : List (Nat × Nat)
  deriving Repr

namespace BarState

def start : BarState :=
  ⟨[], [], true, []⟩

/-- A closing bracket gives up the bars inside its group. -/
def closeGroup (marks : List OpenMark) : List OpenMark :=
  (marks.dropWhile OpenMark.isBar).tail

/-- Reads a bar at a position. -/
def readBar (state : BarState) (position : Nat) : BarState :=
  match state.marks with
  | .bar opening :: marks =>
    if barOpens state.before state.lastOpened then
      { state with marks := .bar position :: state.marks, lastOpened := true }
    else
      { state with
        marks := marks
        lastOpened := false
        pairs := (opening, position) :: state.pairs }
  | marks => { state with marks := .bar position :: marks, lastOpened := true }

/-- Reads a character. -/
def read (state : BarState) (c : Char) : BarState :=
  let next :=
    if ['(', '[', '\x7b'].contains c then { state with marks := .bracket :: state.marks }
    else if [')', ']', '\x7d'].contains c then { state with marks := closeGroup state.marks }
    else if c = '|' then state.readBar state.before.length
    else state
  { next with before := c :: state.before }

end BarState

/-- The positions of the bars that pair. -/
def barPairs (s : Text) : List (Nat × Nat) :=
  (s.foldl BarState.read BarState.start).pairs

/-- What stands for the character at a position once the bars are paired. -/
def unbarred (pairs : List (Nat × Nat)) (position : Nat) (c : Char) : Text :=
  if pairs.any fun pair => pair.1 = position then "abs(".toList
  else if pairs.any fun pair => pair.2 = position then [')']
  else [c]

/-- The text with each pair of bars as `abs(` and `)`. -/
def expandBars (s : Text) : Text :=
  (s.mapIdx (unbarred (barPairs s))).flatten

end NumericAnswer
