import AnalysisGate.Manifest

/-!
What stops a ratchet operation.
-/
namespace AnalysisGate

inductive RatchetError
  | unsupportedSchema (p : Path) (found : String)
  | severity (cause : SeverityError)
  | target (spec : String)
  | malformedManifest (p : Path) (cause : Json.Refusal)
  | manifest (fault : ManifestFault)
  | malformedBudget (p : Path) (cause : Json.Refusal)
  | file (p : Path) (cause : FileError)

namespace ManifestFault

def message : ManifestFault → String
  | duplicateRun id => "Duplicate run id '" ++ id ++ "' in manifest"
  | badSeverity run path e =>
    "Manifest run '" ++ run ++ "' has a diagnostic for " ++ path ++ " with an " ++ e.message

end ManifestFault

namespace RatchetError

def ofFloor : FloorError → RatchetError
  | .severity e => .severity e
  | .shape spec => .target spec

/-- The schema of budgets that is read and written. -/
def schemaVersion : Nat := 1

def message : RatchetError → String
  | unsupportedSchema p found =>
    "Unsupported budget schema version " ++ found ++ " in " ++ p.text ++
      " (supported: " ++ Numeral.text schemaVersion ++ ")"
  | severity e => e.message
  | target spec => "Invalid target '" ++ spec ++ "': expected SEVERITY=COUNT, e.g. error=0"
  | malformedManifest p cause => "Malformed manifest " ++ p.text ++ ": " ++ cause.message
  | manifest fault => fault.message
  | malformedBudget p cause => "Malformed budget " ++ p.text ++ ": " ++ cause.message
  | file p e => "IO error on " ++ p.text ++ ": " ++ e.message

/-- What is said of an error, unless it is that a text is no document. -/
def message? : RatchetError → Option String
  | malformedManifest _ ⟨_, false⟩ | malformedBudget _ ⟨_, false⟩ => none
  | e => some e.message

end RatchetError

namespace Manifest

/-- The manifest in a text that comes from a path. -/
def parse (text : String) (origin : Path) : Except RatchetError Manifest :=
  match readText text with
  | .error cause => .error (.malformedManifest origin cause)
  | .ok m => (ofRuns m.runs).mapError .manifest

/-- The manifest in a file. -/
def load (w : Workspace) (p : Path) : Except RatchetError Manifest :=
  match w.readText p with
  | .error e => .error (.file p e)
  | .ok text => parse text p

end Manifest

end AnalysisGate
