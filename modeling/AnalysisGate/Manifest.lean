import AnalysisGate.Severity
import AnalysisGate.Json.Fault
import AnalysisGate.Workspace.Basic

/-!
Manifests: what all analyzers of one audit report.

A manifest has runs, a run has entries for files, and an entry lists diagnostics or states totals.
It is accepted if no two runs have one id and every diagnostic has a severity. `ManifestRun.counts`
counts by path and severity; paths are normalized, and entries of one path are added up.
-/
namespace AnalysisGate

/-- A diagnostic of a manifest; fields beside the severity are kept as they are. -/
structure ManifestDiagnostic where
  severity : String
  extra : SortedMap String Json
  deriving DecidableEq

/-- What a run reports of one file: a list, or else totals. -/
structure FileReport where
  path : String
  errors : UInt64
  warnings : UInt64
  information : UInt64
  diagnostics : Option (List ManifestDiagnostic)
  deriving DecidableEq

structure ManifestRun where
  tool : String
  mode : String
  files : List FileReport
  engineOptions : Json
  deriving DecidableEq

/-- The runs of an audit. -/
structure Manifest where
  runs : List ManifestRun
  deriving DecidableEq

/-- Why runs are no manifest. -/
inductive ManifestFault
  | duplicateRun (id : String)
  | badSeverity (run path : String) (cause : SeverityError)
  deriving DecidableEq

/-! ## Documents -/

namespace ManifestDiagnostic

/-- Read members: the severity once, and of other members with one name the last. -/
def readMembers (m : Medium) :
    Option String → SortedMap String Json → List (String × Json) →
      Except DecodeError ManifestDiagnostic
  | severity, extra, [] => .ok ⟨severity.getD "", extra⟩
  | severity, extra, (k, j) :: rest =>
    if k = "severity" then
      match severity with
      | some _ => .error (.repeated k)
      | none => do readMembers m (some (← Reader.string m j)) extra rest
    else do readMembers m severity (extra.insert k (← Reader.value m j)) rest

def reader : Reader ManifestDiagnostic
  | m, .object l => readMembers m none .empty l
  | _, j => .error (.kind j "struct ManifestDiagnostic")

def sketch : Json.Sketch :=
  .record "ManifestDiagnostic" true [("severity", .optional, .ofReader Reader.string)]

end ManifestDiagnostic

namespace FileReport

def shape : Shape FileReport where
  name := "FileEntry"
  start := ⟨"", 0, 0, 0, none⟩
  fields := [
    Shape.field "path" Reader.string (fun f v => { f with path := v }) .required,
    Shape.field "errors" Reader.count fun f v => { f with errors := v },
    Shape.field "warnings" Reader.count fun f v => { f with warnings := v },
    Shape.field "information" Reader.count fun f v => { f with information := v },
    Shape.field "diagnostics" (Reader.optional (Reader.list ManifestDiagnostic.reader))
      fun f v => { f with diagnostics := v }]

def sketch : Json.Sketch :=
  shape.sketch [("diagnostics", .optional (.list ManifestDiagnostic.sketch))]

end FileReport

namespace ManifestRun

def shape : Shape ManifestRun where
  name := "ManifestRun"
  start := ⟨"", "", [], .null⟩
  fields := [
    Shape.field "tool" Reader.string (fun r v => { r with tool := v }) .required,
    Shape.field "mode" Reader.string (fun r v => { r with mode := v }) .required,
    Shape.field "perFile" (Reader.list FileReport.shape.reader) fun r v => { r with files := v },
    Shape.field "engineOptions" Reader.value fun r v => { r with engineOptions := v }]

def reader : Reader ManifestRun := shape.reader

def sketch : Json.Sketch :=
  shape.sketch [("perFile", .list FileReport.sketch), ("engineOptions", .value)]

end ManifestRun

namespace Manifest

def shape : Shape Manifest where
  name := "Manifest"
  start := ⟨[]⟩
  fields := [Shape.field "runs" (Reader.list ManifestRun.reader) fun m v => { m with runs := v }]

def sketch : Json.Sketch := shape.sketch [("runs", .list ManifestRun.sketch)]

/-- The runs that a text states. -/
def readText (text : String) : Except Json.Refusal Manifest :=
  match Json.read? text.toList with
  | none => .error (Json.refusal sketch text)
  | some j =>
    match shape.reader .stream j with
    | .ok m => .ok m
    | .error _ => .error (Json.refusal sketch text)

end Manifest

/-! ## Counts -/

/-- The id of a run. -/
def runId (tool mode : String) : String := tool ++ ":" ++ mode

/-- Slashes for backslashes. -/
def slashes (cs : List Char) : List Char := cs.map fun c => if c = '\\' then '/' else c

/-- A text without any `./` at its start. -/
def dropHere : List Char → List Char
  | '.' :: '/' :: rest => dropHere rest
  | cs => cs

/-- A path with slashes, and without `./` before it. -/
def normalizePath (path : String) : String := String.ofList (dropHere (slashes path.toList))

/-- Counts by path. -/
abbrev PathCounts := SortedMap String SeverityCounts

namespace FileReport

/-- The counts of an entry: of its list, or its totals. -/
def counts (f : FileReport) : SeverityCounts :=
  match f.diagnostics with
  | some l =>
    (l.filterMap fun d => Severity.ofToken? d.severity).foldl
      (fun c s => c.insert s (c.count s + 1)) .empty
  | none =>
    SortedMap.ofList [(.error, f.errors), (.warning, f.warnings), (.information, f.information)]

end FileReport

namespace ManifestRun

def id (r : ManifestRun) : String := runId r.tool r.mode

/-- Counts with those of the tracked severities in `added`. -/
def addCounts (tracked : SortedSet Severity) (counts added : SeverityCounts) : SeverityCounts :=
  added.entries.foldl
    (fun c e => if tracked.contains e.1 then c.insert e.1 (c.count e.1 + e.2) else c) counts

/-- Counts by path with those of one more entry. -/
def addFile (tracked : SortedSet Severity) (counts : PathCounts) (f : FileReport) : PathCounts :=
  let path := normalizePath f.path
  counts.insert path (addCounts tracked ((counts.get? path).getD .empty) f.counts)

/-- The counts of the tracked severities by path; a path without any keeps its place. -/
def counts (r : ManifestRun) (tracked : SortedSet Severity) : PathCounts :=
  r.files.foldl (addFile tracked) .empty

end ManifestRun

/-! ## Acceptance -/

namespace Manifest

/-- The first diagnostic of an entry that has no severity. -/
def checkDiagnostics (run path : String) : List ManifestDiagnostic → Except ManifestFault Unit
  | [] => .ok ()
  | d :: rest =>
    match Severity.parse d.severity with
    | .ok _ => checkDiagnostics run path rest
    | .error e => .error (.badSeverity run path e)

def checkFiles (run : String) : List FileReport → Except ManifestFault Unit
  | [] => .ok ()
  | f :: rest =>
    match checkDiagnostics run f.path (f.diagnostics.getD []) with
    | .ok () => checkFiles run rest
    | .error e => .error e

/-- The first fault of runs that follow others with the ids `seen`. -/
def checkRuns (seen : List String) : List ManifestRun → Except ManifestFault Unit
  | [] => .ok ()
  | r :: rest =>
    if seen.contains r.id then .error (.duplicateRun r.id)
    else
      match checkFiles r.id r.files with
      | .ok () => checkRuns (r.id :: seen) rest
      | .error e => .error e

/-- The manifest of runs, or their first fault. -/
def ofRuns (runs : List ManifestRun) : Except ManifestFault Manifest :=
  match checkRuns [] runs with
  | .ok () => .ok ⟨runs⟩
  | .error e => .error e

def run? (m : Manifest) (id : String) : Option ManifestRun := m.runs.find? (·.id == id)

def runIds (m : Manifest) : SortedSet String := SortedSet.ofList (m.runs.map ManifestRun.id)

end Manifest

end AnalysisGate
