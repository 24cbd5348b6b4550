/-
# The preview window

The window shows the lines for the text typed last, copies the value on demand
or, by a setting, at once, and switches the dark style, which it also saves.
It works on a copy of the settings made when it was opened; what goes wrong it
says in dialogs.

Key definitions: `Window`, `Window.Event`, `Window.opened`, `Window.handle`.
-/
import NumericAnswer.Preview.Lines

namespace NumericAnswer

structure Dialog where
  title : Text
  text : Text
  deriving DecidableEq, Repr

/-- The clipboard of the desktop. -/
structure Clipboard where
  content : Option Text
  works : Bool
  deriving DecidableEq, Repr

structure Window where
  settings : Settings
  lines : PreviewLines
  /-- The copy button can be pressed. -/
  copyEnabled : Bool
  darkStyle : Bool
  /-- The check box of the dark style as it was when the window opened. -/
  darkChecked : Bool
  clipboard : Clipboard
  /-- The dialogs shown so far. -/
  dialogs : List Dialog

namespace Window

inductive Event where
  | type (text : Text)
  | copy
  | dark (on : Bool)
  /-- The clipboard starts or stops working. -/
  | clipboard (works : Bool)

def clipboardDialog : Dialog :=
  ⟨"Clipboard Error".toList, "Could not copy the value:\n\nno clipboard".toList⟩

def saveDialog : Dialog :=
  ⟨"Error".toList, "Settings could not be saved (error in config_manager).".toList⟩

def isDark (settings : Settings) : Bool :=
  (settings.get .darkMode).isTrue

/-- A new window. -/
def ofSettings (settings : Settings) : Window where
  settings := settings
  lines := .blank
  copyEnabled := false
  darkStyle := isDark settings
  darkChecked := isDark settings
  clipboard := ⟨none, true⟩
  dialogs := []

/-- Opens a window with a copy of the current settings. -/
def opened : Access Window := do
  return ofSettings (← Access.settings)

/-- Copies the value, if there is one. -/
def copy (w : Window) : Window :=
  if w.lines.copyText.isEmpty then w
  else if w.clipboard.works then
    { w with clipboard := { w.clipboard with content := some w.lines.copyText } }
  else { w with dialogs := w.dialogs ++ [clipboardDialog] }

/-- Shows lines, and copies the value if the settings say so. -/
def display (w : Window) (lines : PreviewLines) : Window :=
  let shown := { w with lines := lines, copyEnabled := !lines.copyText.isEmpty }
  if (w.settings.get .copyAfterEvaluate).isTrue then shown.copy else shown

/-- Switches the dark style in the settings of the window. -/
def setDark (w : Window) (on : Bool) : Window :=
  { w with
    settings := Fields.put (.name Setting.darkMode.name.toList) (.bool on) w.settings
    darkStyle := on }

variable [MathLibrary]

/-- Reacts to an event. -/
def handle (w : Window) : Event → Access Window
  | .type text => do return w.display (← Access.previewLines text)
  | .copy => return w.copy
  | .dark on => do
    let w := w.setDark on
    if ← Access.save w.settings.toJson then return w
    else return { w with dialogs := w.dialogs ++ [saveDialog] }
  | .clipboard works => return { w with clipboard := { w.clipboard with works := works } }

end Window
end NumericAnswer
