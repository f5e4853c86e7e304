import AnalysisGate.Collection
import AnalysisGate.CommandLine.Command
import AnalysisGate.Config
import AnalysisGate.Ratchet

/-!
Carrying commands out.

A command looks at a tree of files and changes it, and ends with an exit code and what it prints.
What stops it is an error and its causes; changes made before it stay.
-/
namespace AnalysisGate.CommandLine

/-- How a command ends. -/
structure Outcome where
  exitCode : Int
  stdout : String
  stderr : String

/-- An error, and below it its causes. -/
structure Failure where
  message : String
  causes : List String

abbrev Action (α : Type) := FileAction Failure α

namespace Failure

/-- An error without causes. -/
def plain (message : String) : Failure := ⟨message, []⟩

/-- An error that an error of the system is the cause of. -/
def ofFile (message : String) (e : FileError) : Failure := ⟨message, [e.message]⟩

/-- An error seen from further away. -/
def context (message : String) (f : Failure) : Failure := ⟨message, f.message :: f.causes⟩

def ofChain : List String → Failure
  | [] => plain ""
  | message :: causes => ⟨message, causes⟩

/-- An error of the ratchet; a fault in a file has that fault for its cause too. -/
def ofRatchet (e : RatchetError) : Failure :=
  match e with
  | .file _ cause => ofFile e.message cause
  | .manifest (.badSeverity _ _ cause) => ⟨e.message, [cause.message]⟩
  | _ => plain e.message

/-- An error of the configuration. Of a file that is none its name is told; the lines of it that
are quoted below the name are left out. -/
def ofConfig (e : ConfigError) : Failure :=
  match e with
  | .unreadable _ cause => ofFile e.message cause
  | .invalid .. => plain e.message

/-- A cause on its lines, each further one set as deep as the first. -/
def indented (first rest cause : String) : String :=
  match Text.lines cause.toList with
  | [] => first
  | line :: lines =>
    first ++ String.ofList line ++ String.join (lines.map fun l => "\n" ++ rest ++ String.ofList l)

/-- The number of a cause, among several. -/
def numbered (i : Nat) : String :=
  let n := Numeral.digits i
  String.ofList (List.replicate (5 - n.length) ' ' ++ n ++ [':', ' '])

/-- An error as it is printed. -/
def text (f : Failure) : String :=
  let causes := match f.causes with
    | [] => []
    | [cause] => [indented "    " "    " cause]
    | causes => causes.zipIdx.map fun (cause, i) => indented (numbered i) "       " cause
  "Error: " ++ f.message ++
    (if causes.isEmpty then "" else "\n\nCaused by:\n" ++ "\n".intercalate causes) ++ "\n"

end Failure

/-! ## Ratchet commands -/

/-- A path of a project. -/
def inProject (project p : Path) : Path := project.join p

def budgetPath (project : Path) (config : ProjectConfig) (args : RatchetArgs) : Path :=
  match args.budget with
  | some p => inProject project p
  | none => config.ratchet.budgetPath project

def loadManifest (project : Path) (args : RatchetArgs) : Action Manifest :=
  FileAction.look fun w => (Manifest.load w (inProject project args.manifest)).mapError .ofRatchet

def loadBudget (p : Path) : Action Budget :=
  FileAction.look fun w => (Budget.load w p).mapError fun e =>
    (Failure.ofRatchet e).context
      ("Failed to load budget " ++ p.text ++ ". Run `auditgate ratchet init` first")

/-- A ratchet operation as part of a command. -/
def ratchetAction {α : Type} (act : FileAction RatchetError α) : Action α := fun w =>
  match act.exec w with
  | (.ok a, w) => (.ok a, w)
  | (.error e, w) => (.error (.ofRatchet e), w)

/-- The severities to track: those on the command line, or else those of the configuration. -/
def resolveSeverities (config : RatchetConfig) (tokens : List String) :
    Except Failure (SortedSet Severity) :=
  (if tokens.isEmpty then config.severitySet else Severity.parseSet tokens).mapError fun e =>
    .plain e.message

/-- Floors with those that specifications state in their place. -/
def addFloors : SeverityCounts → List String → Except Failure SeverityCounts
  | floors, [] => .ok floors
  | floors, spec :: rest =>
    match parseFloor spec with
    | .ok (s, n) => addFloors (floors.insert s n) rest
    | .error e => .error (.ofRatchet (.ofFloor e))

/-- The floors of the configuration, with those on the command line in their place. -/
def resolveFloors (config : RatchetConfig) (specs : List String) :
    Except Failure SeverityCounts :=
  match config.targetFloors with
  | .error e => .error (.plain e.message)
  | .ok floors => addFloors floors specs

/-- Print a report, or write it to a file. -/
def emit (r : Report) (args : ReportArgs) : Action Outcome := do
  let code := r.exitCode args.ignoreSignature
  let rendered := r.render false args.format code
  match args.output with
  | some p =>
    FileAction.change fun w =>
      (w.write p rendered.toUTF8).mapError (.ofFile ("Failed to write report to " ++ p.text))
    return ⟨code, "", "Report written to " ++ p.text ++ "\n"⟩
  | none => return ⟨code, String.ofList (Text.trimEnd rendered.toList) ++ "\n", ""⟩

/-- Make the budget of a project, unless it has one. -/
def init (now : Timestamp) (project : Path) (config : ProjectConfig) (args : RatchetArgs)
    (severities targets : List String) (force : Bool) : Action Outcome := do
  let p := budgetPath project config args
  FileAction.look fun w =>
    if w.pathExists p && !force then
      .error (.plain ("Budget " ++ p.text ++ " already exists. Use --force to overwrite, " ++
        "or `auditgate ratchet update` to tighten it"))
    else .ok ()
  let manifest ← loadManifest project args
  let severities ← FileAction.lift (resolveSeverities config.ratchet severities)
  let floors ← FileAction.lift (resolveFloors config.ratchet targets)
  let budget :=
    { Ratchet.build now manifest (.ofIds args.runs) severities floors with
      manifestPath := some args.manifest.text
      projectRoot := some project.text }
  ratchetAction (budget.save p)
  let paths := (budget.runs.values.flatMap (·.paths.keys)).length
  return ⟨0, "[OK] Recorded budget for " ++ Numeral.text budget.runs.size ++ " runs (" ++
    Numeral.text paths ++ " paths) in " ++ p.text ++ "\n", ""⟩

/-- Compare the counts of a project with its budget. -/
def check (project : Path) (config : ProjectConfig) (args : RatchetArgs) (report : ReportArgs) :
    Action Outcome := do
  let manifest ← loadManifest project args
  let budget ← loadBudget (budgetPath project config args)
  emit (Ratchet.report manifest budget (.ofIds args.runs)) report

/-- Tighten the budget of a project to its counts, and compare them with it. -/
def update (project : Path) (config : ProjectConfig) (args : RatchetArgs) (report : ReportArgs) :
    Action Outcome := do
  let manifest ← loadManifest project args
  let p := budgetPath project config args
  let budget ← loadBudget p
  let updated := Ratchet.update manifest budget (.ofIds args.runs)
  if updated ≠ budget then ratchetAction (updated.save p)
  emit (Ratchet.report manifest updated (.ofIds args.runs)) report

/-- Take the configurations of a project's engines into its budget. -/
def refreshSignature (project : Path) (config : ProjectConfig) (args : RatchetArgs) :
    Action Outcome := do
  let manifest ← loadManifest project args
  let p := budgetPath project config args
  let budget ← loadBudget p
  ratchetAction ((Ratchet.refresh manifest budget (.ofIds args.runs)).save p)
  return ⟨0, "[OK] Refreshed engine signatures in " ++ p.text ++ "\n", ""⟩

/-! ## Cache commands -/

def status (directory : Path) : Action Outcome := do
  let cache ← FileAction.look fun w => .ok (RunCache.load w directory)
  let line :=
    if cache.isEmpty then "  [--] No cached runs"
    else
      "  [OK] " ++ Numeral.text cache.size ++ " cached runs, " ++
        Numeral.text cache.diagnosticCount ++ " diagnostics, " ++
        Numeral.text cache.fileCount ++ " tracked files"
  return ⟨0, "\nauditgate run cache\n\n  Store: " ++ cache.storePath.text ++ "\n" ++ line ++
    "\n\n", ""⟩

def clear (directory : Path) : Action Outcome := do
  let cache ← FileAction.look fun w => .ok (RunCache.load w directory)
  let _ ← (fun w =>
    match cache.clear.persist.exec w with
    | (.ok c, w) => (.ok c, w)
    | (.error e, w) => (.error (.ofChain e.chain), w) : Action RunCache)
  return ⟨0, "Cleared " ++ Numeral.text cache.size ++ " cached run" ++
    (if cache.size = 1 then "" else "s") ++ ".\n", ""⟩

/-- The configuration of a cache with what replaces parts of it. -/
def CacheOverrides.apply (o : CacheOverrides) (c : CacheConfig) : CacheConfig :=
  { c with
    respectIgnore := o.respectIgnore.getD c.respectIgnore
    maxFiles := o.maxFiles.getD c.maxFiles
    maxBytes := o.maxBytes.getD c.maxBytes
    extensions := if o.extensions.isEmpty then c.extensions else o.extensions }

/-- The fingerprints in a document: all of it, or its member of that name. -/
def baselineOf (j : Json) : Except DecodeError FingerprintMap :=
  FingerprintMap.reader .tree ((j.get? "fingerprints").getD j)

/-- The fingerprints that an earlier collection has printed. -/
def loadBaseline (p : Path) : Action FingerprintMap :=
  FileAction.look fun w => do
    let text ← (w.readText p).mapError (.ofFile ("Failed to read baseline " ++ p.text))
    match Json.readValue? text.toList with
    | none =>
      .error ⟨"Failed to parse baseline " ++ p.text, [(Json.refusal .value text).message]⟩
    | some j =>
      (baselineOf j).mapError fun e =>
        ⟨"Baseline " ++ p.text ++ " is not a fingerprint map", [e.message .tree]⟩

def fingerprint (project : Path) (config : CacheConfig) (targets : List Path)
    (overrides : CacheOverrides) (baseline : Option Path) : Action Outcome := do
  let known ← match baseline with
    | some p => do pure (some (← loadBaseline p))
    | none => pure none
  let c := overrides.apply config
  let result ← FileAction.look fun w => .ok (Collection.collect w project targets
    ⟨c.extensions, c.respectIgnore, c.maxFilesLimit, c.maxBytesLimit, known⟩)
  let warning :=
    if result.truncated then
      "Warning: Budget reached after " ++ Numeral.text result.fingerprints.size ++
        " files; coverage is incomplete\n"
    else ""
  return ⟨0, result.toJson.prettyText ++ "\n", warning⟩

/-! ## All commands -/

def perform (now : Timestamp) (i : Invocation) : Action Outcome := do
  let config ← FileAction.look fun w => (ProjectConfig.load w i.project).mapError .ofConfig
  match i.command with
  | .init args severities targets force => init now i.project config args severities targets force
  | .check args report => check i.project config args report
  | .update args report => update i.project config args report
  | .refreshSignature args => refreshSignature i.project config args
  | .status => status (config.cache.resolve i.project)
  | .clear => clear (config.cache.resolve i.project)
  | .fingerprint targets overrides baseline =>
    fingerprint i.project config.cache targets overrides baseline

/-- The name and version of the program. -/
def versionText : String := "auditgate 0.1.0\n"

/-- Carry out a command line on a tree of files. -/
def run (now : Timestamp) (words : List String) (w : Workspace) : Outcome × Workspace :=
  match parse words with
  | .error .usage => (⟨2, "", ""⟩, w)
  | .error .version => (⟨0, versionText, ""⟩, w)
  | .error .help => (⟨0, "", ""⟩, w)
  | .ok i =>
    match (perform now i).exec w with
    | (.ok outcome, w) => (outcome, w)
    | (.error f, w) => (⟨1, "", f.text⟩, w)

end AnalysisGate.CommandLine
