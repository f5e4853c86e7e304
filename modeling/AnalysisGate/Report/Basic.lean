import AnalysisGate.Severity

/-!
Reports: where counts differ from what is allowed.

A finding is one path and severity whose count differs, a violation if it is above what is allowed
and an improvement if it is below. A report fails on any violation, and on a changed
configuration unless that is ignored.
-/
namespace AnalysisGate

inductive FindingKind
  | violation
  | improvement
  deriving DecidableEq

namespace FindingKind

def name : FindingKind → String
  | violation => "violation"
  | improvement => "improvement"

end FindingKind

structure Finding where
  kind : FindingKind
  path : String
  severity : Severity
  allowed : UInt64
  actual : UInt64
  delta : Int64
  deriving DecidableEq

namespace Finding

/-- The finding of a count, if it differs from what is allowed. -/
def classify (path : String) (severity : Severity) (allowed actual : UInt64) : Option Finding :=
  -- the difference wraps where it is beyond the integers of 64 bits
  let delta := actual.toInt64 - allowed.toInt64
  if allowed < actual then some ⟨.violation, path, severity, allowed, actual, delta⟩
  else if actual < allowed then some ⟨.improvement, path, severity, allowed, actual, delta⟩
  else none

def isViolation (f : Finding) : Bool := f.kind == .violation

def toJson (f : Finding) : Json :=
  .object [("kind", .string f.kind.name), ("path", .string f.path),
    ("severity", .string f.severity.name), ("allowed", .ofCount f.allowed),
    ("actual", .ofCount f.actual), ("delta", .ofInt f.delta.toInt)]

end Finding

/-- The findings of one run, with the digests of the configuration in the budget and in the
manifest. -/
structure RunReport where
  runId : String
  signatureMatches : Bool
  expected : Option String
  actual : Option String
  findings : List Finding
  deriving DecidableEq

namespace RunReport

def violations (r : RunReport) : List Finding := r.findings.filter Finding.isViolation

def improvements (r : RunReport) : List Finding := r.findings.filter (!·.isViolation)

def toJson (r : RunReport) : Json :=
  .object [("runId", .string r.runId), ("signatureMatches", .bool r.signatureMatches),
    ("expectedSignature", .ofOption .string r.expected),
    ("actualSignature", .ofOption .string r.actual),
    ("findings", .array (r.findings.map Finding.toJson))]

end RunReport

structure Report where
  runs : List RunReport
  deriving DecidableEq

namespace Report

def violationCount (r : Report) : Nat := (r.runs.flatMap (·.violations)).length

def improvementCount (r : Report) : Nat := (r.runs.flatMap (·.improvements)).length

def hasViolations (r : Report) : Bool := 0 < r.violationCount

/-- The runs whose configuration has changed. -/
def mismatches (r : Report) : List RunReport := r.runs.filter (!·.signatureMatches)

/-- One for a report that fails, zero for one that passes. -/
def exitCode (r : Report) (ignoreSignature : Bool) : Int :=
  if r.hasViolations then 1
  else if !ignoreSignature && !r.mismatches.isEmpty then 1
  else 0

def toJson (r : Report) : Json := .object [("runs", .array (r.runs.map RunReport.toJson))]

end Report

end AnalysisGate
