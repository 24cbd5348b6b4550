/-
# The lines of the preview

What the preview shows for a text: its canonical form, its value and whether
that is exact, a hint, and the fault if it has no value.

Key definitions: `PreviewLines`, `Access.previewLines`.
-/
import NumericAnswer.Display
import NumericAnswer.Outcome

namespace NumericAnswer

structure PreviewLines where
  expression : Text
  value : Text
  hint : Text
  status : Text
  /-- What the copy button copies. -/
  copyText : Text
  deriving DecidableEq, Repr

namespace PreviewLines

def blank : PreviewLines :=
  ⟨[], [], [], [], []⟩

/-- The lines for a fault: its kind, code and message. -/
def ofFault (fault : Fault) (expression : Option Text) : PreviewLines :=
  { blank with
    expression := expression.getD []
    status := (fault.kind.name ++ " (" ++ fault.code.digits ++ "): " ++ fault.message).toList }

/-- The sign before a displayed value, which tells whether it reads back to the
value itself. -/
def sign (value : Float) (shown : Text) : Char :=
  if (readFloat? shown).any (· == value) then '=' else '≈'

def ofValue (value : Float) (expression shown : Text) (hint : Option Text) : PreviewLines where
  expression := expression
  value := sign value shown :: ' ' :: shown
  hint := (hint.map fun text => '=' :: ' ' :: text).getD []
  status := ['O', 'K']
  copyText := shown

end PreviewLines

variable [MathLibrary]

/-- The lines for a text under the current settings. -/
def Access.previewLines (text : Text) : Access PreviewLines :=
  if isAllBlank text then return .blank
  else
    match Outcome.ofText text with
    | .failure fault expression => return .ofFault fault expression
    | .success value expression => do
      let shown ← displayText none value
      let hint ← hint value
      return .ofValue value expression shown hint

end NumericAnswer
