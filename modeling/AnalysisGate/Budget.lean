import AnalysisGate.RatchetError
import AnalysisGate.Signature
import AnalysisGate.Timestamp
import AnalysisGate.Workspace.Change

/-!
Budgets: how many diagnostics are allowed, by run, path and severity.

A run, path or severity that a budget does not have allows none. A budget is kept in a file, which
is replaced as a whole through a temporary file; a file of another schema is refused.
-/
namespace AnalysisGate

/-- What is allowed to one run. A floor is a count below which an allowance is never tightened. -/
structure RunBudget where
  severities : SortedSet Severity
  paths : PathCounts
  targets : SeverityCounts
  signature : Option EngineSignature
  deriving DecidableEq

structure Budget where
  generatedAt : Timestamp
  manifestPath : Option String
  projectRoot : Option String
  runs : SortedMap String RunBudget
  deriving DecidableEq

namespace RunBudget

def empty : RunBudget := ⟨.empty, .empty, .empty, none⟩

/-- The severities that are compared: the standard ones if none are named. -/
def tracked (b : RunBudget) : SortedSet Severity :=
  if b.severities.isEmpty then Severity.standard else b.severities

def allowed (b : RunBudget) (path : String) (s : Severity) : UInt64 :=
  ((b.paths.get? path).getD .empty).count s

def floor (b : RunBudget) (s : Severity) : UInt64 := b.targets.count s

/-- Allowances without those of zero, and without paths that then have none. -/
def prunePaths (paths : PathCounts) : PathCounts :=
  paths.filterMap fun _ counts =>
    let kept := counts.filter fun _ n => 0 < n
    if kept.isEmpty then none else some kept

def prune (b : RunBudget) : RunBudget := { b with paths := prunePaths b.paths }

/-! ## Documents -/

def severitiesToJson (s : SortedSet Severity) : Json := .ofStrings (s.keys.map Severity.name)

def toJson (b : RunBudget) : Json :=
  .object [("severities", severitiesToJson b.severities),
    ("paths", .ofMap (fun c => .object [("severities", c.toJson)]) b.paths),
    ("targets", b.targets.toJson),
    ("engineSignature", .ofOption EngineSignature.toJson b.signature)]

/-- The allowances of one path. -/
def pathShape : Shape SeverityCounts where
  name := "PathBudget"
  start := .empty
  fields := [Shape.field "severities" SeverityCounts.reader fun _ v => v]

def shape : Shape RunBudget where
  name := "RunBudget"
  start := empty
  fields := [
    Shape.field "severities" (Reader.list Severity.reader)
      fun b v => { b with severities := SortedSet.ofList v },
    Shape.field "paths" (Reader.map pathShape.reader) fun b v => { b with paths := v },
    Shape.field "targets" SeverityCounts.reader fun b v => { b with targets := v },
    Shape.field "engineSignature" (Reader.optional EngineSignature.shape.reader)
      fun b v => { b with signature := v }]

end RunBudget

namespace Budget

/-- A budget without runs. -/
def empty (generatedAt : Timestamp) : Budget := ⟨generatedAt, none, none, .empty⟩

/-- What a budget allows in a run. -/
def allowed (b : Budget) (run path : String) (s : Severity) : UInt64 :=
  ((b.runs.get? run).getD .empty).allowed path s

/-! ## Documents -/

/-- A member that is left out if there is nothing to say. -/
def optionalMember (key : String) : Option String → List (String × Json)
  | none => []
  | some s => [(key, .string s)]

def toJson (b : Budget) : Json :=
  .object ([("schemaVersion", .ofNat RatchetError.schemaVersion),
    ("generatedAt", .string b.generatedAt.text)] ++
    optionalMember "manifestPath" b.manifestPath ++ optionalMember "projectRoot" b.projectRoot ++
    [("runs", .ofMap RunBudget.toJson b.runs)])

def timestampReader : Reader Timestamp
  | _, .string s => (Timestamp.parse s).mapError fun e => .refused e.message
  | _, j => .error (.kind j "an RFC 3339 formatted date and time string")

def shape : Shape Budget where
  name := "RatchetBudget"
  start := empty .epoch
  fields := [
    Shape.field "schemaVersion" Reader.word32 (fun b _ => b) .required,
    Shape.field "generatedAt" timestampReader (fun b v => { b with generatedAt := v }) .required,
    Shape.field "manifestPath" (Reader.optional Reader.string)
      fun b v => { b with manifestPath := v },
    Shape.field "projectRoot" (Reader.optional Reader.string)
      fun b v => { b with projectRoot := v },
    Shape.field "runs" (Reader.map RunBudget.shape.reader) fun b v => { b with runs := v }]

/-! ## Files -/

/-- The text of a budget file. -/
def fileText (b : Budget) : String := b.toJson.prettyText ++ "\n"

/-- The schema that a document does not have, as messages name it. -/
def foreignSchema? (j : Json) : Option String :=
  match j.get? "schemaVersion" with
  | none => some "(missing)"
  | some v =>
    if v = .ofNat RatchetError.schemaVersion then none else some v.compactText

/-- The budget in a text that comes from a path. -/
def parse (text : String) (origin : Path) : Except RatchetError Budget :=
  match Json.readValue? text.toList with
  | none => .error (.malformedBudget origin (Json.refusal .value text))
  | some j =>
    match foreignSchema? j with
    | some found => .error (.unsupportedSchema origin found)
    | none => (shape.reader .tree j).mapError fun e =>
        .malformedBudget origin ⟨e.message .tree, true⟩

/-- The budget in a file. -/
def load (w : Workspace) (p : Path) : Except RatchetError Budget :=
  match w.readText p with
  | .error e => .error (.file p e)
  | .ok text => parse text p

/-- Replace a budget file, and make the directory that it is in. -/
def save (b : Budget) (p : Path) : FileAction RatchetError Unit := do
  match p.parent? with
  | some directory =>
    -- a bare name stands in the current directory
    if directory.text.isEmpty then pure ()
    else FileAction.makeDirectories directory (.file p)
  | none => pure ()
  let temporary := p.withExtension "json.tmp"
  FileAction.change fun w => (w.write temporary b.fileText.toUTF8).mapError (.file p)
  FileAction.change fun w => (w.rename temporary p).mapError (.file p)

end Budget

end AnalysisGate
