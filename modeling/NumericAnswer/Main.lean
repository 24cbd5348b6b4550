/-
# The command line

Each argument is an answer, and the report has a line for it. The settings
file stands in the current directory, beside the other files that the program
needs; with the setting for debugging the journal goes to standard error.

Key definition: `main`.
-/
import NumericAnswer.Journal
import NumericAnswer.Report
import NumericAnswer.Settings.Store
import NumericAnswer.Startup

namespace NumericAnswer
namespace CommandLine

def settingsFile : String :=
  "config.json"

/-- The text of a file, if there is one that can be read. -/
def readText? (name : String) : IO (Option Text) := do
  try
    return some (← IO.FS.readFile name).toList
  catch _ =>
    return none

/-- Prints the report on the answers, and the journal if it is wanted. -/
def report (settings : Settings) (answers : List Text) : IO UInt32 := do
  if Journal.Level.ofSetting (settings.get .debug) = .debug then
    for entry in answers.flatMap Journal.ofAnswer do
      IO.eprintln (String.ofList entry.text)
  for line in Report.lines answers do
    IO.println (String.ofList line)
  return (Report.exitCode answers).toUInt32

/-- Checks the files, reads the settings and reports. -/
def run (arguments : List String) : IO UInt32 := do
  let present ← Startup.required.filterM fun name => do
    return (← readText? name).isSome
  for line in Startup.lines present do
    IO.println line
  match Startup.exitCode present with
  | some code => return code.toUInt32
  | none =>
    match Store.settingsOf (← readText? settingsFile) with
    | .error f =>
      IO.eprintln f.message
      return 1
    | .ok settings => report settings (arguments.map String.toList)

end CommandLine
end NumericAnswer

def main (arguments : List String) : IO UInt32 :=
  NumericAnswer.CommandLine.run arguments
