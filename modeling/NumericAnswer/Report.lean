/-
# The report of the command line

One line of JSON for each answer, in order; the exit code is 0 only if every
answer has a value.

Key definitions: `Outcome.toJson`, `Report.lines`, `Report.exitCode`.
-/
import NumericAnswer.Json.Writer
import NumericAnswer.Outcome

namespace NumericAnswer

def Outcome.toJson : Outcome → Json
  | success value expression =>
    .ofFields [("success", .bool true), ("value", .float value), ("expression", .string expression)]
  | failure fault expression =>
    .ofFields ([("success", .bool false), ("error", .ofString fault.message),
      ("kind", .ofString fault.kind.name), ("code", .ofString fault.code.digits)] ++
      (expression.map fun text => ("expression", Json.string text)).toList)

namespace Report

variable [MathLibrary]

def line (answer : Text) : Text :=
  (Outcome.ofText answer).toJson.line

def lines (answers : List Text) : List Text :=
  answers.map line

def exitCode (answers : List Text) : Nat :=
  if answers.all fun answer => (Outcome.ofText answer).isSuccess then 0 else 1

theorem length_lines (answers : List Text) : (lines answers).length = answers.length :=
  List.length_map _

end Report
end NumericAnswer
