import AnalysisGate.Report.Basic
import AnalysisGate.Report.Paint
import AnalysisGate.Text.Blank

/-!
Reports as text for people and as documents for programs.

Both forms are of a report and the exit code that it leads to. The text has violations before
improvements, and shortens digests.
-/
namespace AnalysisGate

inductive ReportFormat
  | text
  | json
  deriving DecidableEq

namespace ReportFormat

def name : ReportFormat → String
  | text => "text"
  | json => "json"

/-- The format that a name or alias denotes, whatever the case of its letters. -/
def ofName? (s : String) : Option ReportFormat :=
  let folded := String.ofList (Text.fold s.toList)
  if folded = "text" ∨ folded = "txt" ∨ folded = "terminal" then some text
  else if folded = "json" then some json
  else none

/-- What is said of a name that denotes no format. -/
def refusal (s : String) : String := "Unknown format '" ++ s ++ "'. Valid formats: text, json"

end ReportFormat

/-! ## Text -/

namespace Finding

/-- A change with its sign. -/
def signedDelta (f : Finding) : String :=
  let i := f.delta.toInt
  String.ofList (if 0 ≤ i then '+' :: Numeral.signed i else Numeral.signed i)

def tag (color : Bool) (f : Finding) : String :=
  match f.kind with
  | .violation => Ink.paint color [.red, .bold] "[VIOLATION]"
  | .improvement => Ink.paint color [.green] "[IMPROVED]"

def line (color : Bool) (f : Finding) : String :=
  "  " ++ f.tag color ++ " " ++ f.path ++ " " ++ f.severity.name ++ ": allowed " ++
    Numeral.text f.allowed.toNat ++ ", actual " ++ Numeral.text f.actual.toNat ++
    " (" ++ f.signedDelta ++ ")"

end Finding

/-- The first twelve bytes of a text, if it has more and a character ends there. -/
def shortHash (hash : String) : String :=
  go 12 [] hash.toList
where
  /-- Take characters up to a number of bytes. -/
  go (left : Nat) (taken : List Char) : List Char → String
    | [] => hash
    | c :: rest =>
      if left = 0 then String.ofList taken.reverse
      else if left < c.utf8Size then hash
      else go (left - c.utf8Size) (c :: taken) rest

namespace RunReport

/-- The lines on one run. -/
def lines (color : Bool) (r : RunReport) : List String :=
  [Ink.paint color [.cyan, .bold] r.runId] ++
    (if r.signatureMatches then []
      else
        ["  " ++ Ink.paint color [.yellow, .bold] "[DRIFT]" ++
          " engine configuration changed (budget " ++ shortHash (r.expected.getD "none") ++
          ", current " ++ shortHash (r.actual.getD "none") ++ ")"]) ++
    (r.violations ++ r.improvements).map (Finding.line color) ++
    (if r.findings.isEmpty && r.signatureMatches then
        ["  " ++ Ink.paint color [.dim] "within budget"]
      else [])

end RunReport

namespace Report

def lines (color : Bool) (r : Report) (exitCode : Int) : List String :=
  ["", Ink.paint color [.bold] "Ratchet Budget Check",
    Ink.paint color [.dim] (String.ofList (List.replicate 38 '─'))] ++
    r.runs.flatMap (RunReport.lines color) ++
    ["", "Violations: " ++ Numeral.text r.violationCount ++ "  Improvements: " ++
      Numeral.text r.improvementCount ++ "  Drifted runs: " ++ Numeral.text r.mismatches.length] ++
    (if 0 < r.improvementCount ∧ r.violationCount = 0 then
        [Ink.paint color [.dim] "Run `auditgate ratchet update` to lock in the improvements."]
      else []) ++
    ["Result: " ++ (if exitCode = 0 then Ink.paint color [.green, .bold] "PASS"
        else Ink.paint color [.red, .bold] "FAIL") ++
      " (exit " ++ String.ofList (Numeral.signed exitCode) ++ ")"]

/-- A report for people. -/
def text (color : Bool) (r : Report) (exitCode : Int) : String :=
  String.join ((r.lines color exitCode).map (· ++ "\n"))

/-! ## Documents -/

/-- A report for programs. -/
def envelope (r : Report) (exitCode : Int) : Json :=
  .object [("report", r.toJson), ("violations", .ofNat r.violationCount),
    ("improvements", .ofNat r.improvementCount), ("exitCode", .ofInt exitCode)]

/-- A report in a format. -/
def render (color : Bool) (format : ReportFormat) (r : Report) (exitCode : Int) : String :=
  match format with
  | .text => r.text color exitCode
  | .json => (r.envelope exitCode).prettyText

end Report

end AnalysisGate
