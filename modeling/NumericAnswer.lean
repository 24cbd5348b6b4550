import NumericAnswer.Text.Basic
import NumericAnswer.Text.Blank
import NumericAnswer.Text.Digit
import NumericAnswer.Text.Letter
import NumericAnswer.Text.Printable
import NumericAnswer.Text.Quoted
import NumericAnswer.Number.Numeral
import NumericAnswer.Number.Rounding
import NumericAnswer.Number.Binary
import NumericAnswer.Number.Decimal
import NumericAnswer.Number.Layout
import NumericAnswer.Number.Shortest
import NumericAnswer.Number.Literal
import NumericAnswer.Number.Fraction
import NumericAnswer.Notation.Bracket
import NumericAnswer.Notation.Group
import NumericAnswer.Notation.Argument
import NumericAnswer.Notation.Pass
import NumericAnswer.Notation.Macro
import NumericAnswer.Notation.Cosmetic
import NumericAnswer.Notation.Bars
import NumericAnswer.Notation.Canonical
import NumericAnswer.Fault.Code
import NumericAnswer.Fault.Read
import NumericAnswer.Fault.Value
import NumericAnswer.Function.Basic
import NumericAnswer.Function.Value
import NumericAnswer.Token
import NumericAnswer.Expr.Basic
import NumericAnswer.Expr.Parser
import NumericAnswer.Expr.Value
import NumericAnswer.Expr.Sketch
import NumericAnswer.Outcome
import NumericAnswer.Json.Fields
import NumericAnswer.Json.Basic
import NumericAnswer.Json.Reader
import NumericAnswer.Json.Writer
import NumericAnswer.Settings.Fault
import NumericAnswer.Settings.Basic
import NumericAnswer.Settings.Quantity
import NumericAnswer.Settings.Store
import NumericAnswer.Display
import NumericAnswer.Answer.Clean
import NumericAnswer.Answer.Choice
import NumericAnswer.Answer.Verdict
import NumericAnswer.Preview.Lines
import NumericAnswer.Preview.Window
import NumericAnswer.Report
import NumericAnswer.Journal
import NumericAnswer.Startup
import NumericAnswer.Main
import NumericAnswer.Proofs.Grading
import NumericAnswer.Proofs.Taxonomy
import NumericAnswer.Proofs.Acceptance
import NumericAnswer.Proofs.Transport
import NumericAnswer.Proofs.Stability
import NumericAnswer.Proofs.Rereading
import NumericAnswer.Proofs.Safety
import NumericAnswer.Proofs.Grouping
import NumericAnswer.Proofs.Unbalanced
import NumericAnswer.Proofs.Compositional
import NumericAnswer.Proofs.NestedPower
import NumericAnswer.Proofs.Transcript
import NumericAnswer.Proofs.Enclosed
import NumericAnswer.Proofs.Unadorned
import NumericAnswer.Proofs.Leading
import NumericAnswer.Proofs.Splitting
import NumericAnswer.Proofs.Placement
import NumericAnswer.Proofs.Unbraced
import NumericAnswer.Proofs.Seam
import NumericAnswer.Proofs.Ornament
import NumericAnswer.Proofs.Literals
import NumericAnswer.Proofs.Remnant
import NumericAnswer.Proofs.Negated
import NumericAnswer.Proofs.Twins
import NumericAnswer.Proofs.Spread
import NumericAnswer.Proofs.Loosened
import NumericAnswer.Proofs.Cleaned
import NumericAnswer.Proofs.Saving
import NumericAnswer.Proofs.Snapshots
import NumericAnswer.Proofs.Updates
import NumericAnswer.Proofs.Copying
import NumericAnswer.Proofs.AbsoluteValues
import NumericAnswer.Proofs.Reports
import NumericAnswer.Proofs.Pairing
import NumericAnswer.Proofs.Partition
import NumericAnswer.Proofs.Adjacent
import NumericAnswer.Proofs.Spelled
import NumericAnswer.Proofs.FirstFault
import NumericAnswer.Proofs.Shown
import NumericAnswer.Proofs.Hints
import NumericAnswer.Proofs.Choices
import NumericAnswer.Proofs.Hinted
import NumericAnswer.Proofs.Windows
import NumericAnswer.Proofs.Decodable
import NumericAnswer.Proofs.Descent
import NumericAnswer.Proofs.Matching
import NumericAnswer.Proofs.Conserved
