import AnalysisGate.Json.Decode

/-!
Diagnostics of analyzers, and their canonical order.

The order compares every field, the path first, so two diagnostics tie only if they are equal,
and sorting a list gives the same list whatever order it comes in.
-/
namespace AnalysisGate

/-- A diagnostic as an analyzer reports it; its severity is a token that is not interpreted. -/
structure Diagnostic where
  path : String
  line : UInt32
  column : UInt32
  severity : String
  rule : Option String
  message : String
  deriving DecidableEq

namespace Diagnostic

def blank : Diagnostic := ⟨"", 0, 0, "", none, ""⟩

instance : Inhabited Diagnostic := ⟨blank⟩

/-- Path, line, column, severity, rule, message; no rule comes before every rule. -/
def canonical (a b : Diagnostic) : Ordering :=
  (compare a.path b.path).then <| (compare a.line b.line).then <|
    (compare a.column b.column).then <| (compare a.severity b.severity).then <|
      (compare a.rule b.rule).then <| compare a.message b.message

def sort (l : List Diagnostic) : List Diagnostic := l.mergeSort fun a b => (canonical a b).isLE

def toJson (d : Diagnostic) : Json :=
  .object [("path", .string d.path), ("line", .ofCount d.line.toUInt64),
    ("column", .ofCount d.column.toUInt64), ("severity", .string d.severity),
    ("rule", .ofOption .string d.rule), ("message", .string d.message)]

def shape : Shape Diagnostic where
  name := "Diagnostic"
  start := blank
  fields := [
    Shape.field "path" Reader.string fun d v => { d with path := v },
    Shape.field "line" Reader.word32 fun d v => { d with line := v },
    Shape.field "column" Reader.word32 fun d v => { d with column := v },
    Shape.field "severity" Reader.string fun d v => { d with severity := v },
    Shape.field "rule" (Reader.optional Reader.string) fun d v => { d with rule := v },
    Shape.field "message" Reader.string fun d v => { d with message := v }]

def reader : Reader Diagnostic := shape.reader

end Diagnostic

end AnalysisGate
