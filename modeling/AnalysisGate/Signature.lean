import AnalysisGate.Digest.Sha256
import AnalysisGate.Manifest

/-!
Signatures of the configuration that an engine runs with.

A signature is a digest of the tool, the mode and the canonical form of the engine's options. In
that form the items of an `include` or `exclude` list stand once each and in the order of their
texts, so neither order nor repetition there changes a signature; every other list keeps its
order.
-/
namespace AnalysisGate

structure EngineSignature where
  tool : String
  mode : String
  engineOptions : Json
  hash : String
  deriving DecidableEq

namespace Json

/-- Whether the lists under a key are sets. -/
def isSetKey (key : String) : Bool := key == "include" || key == "exclude"

/-- The items of a list by their texts, each once. -/
def sortItems (items : List Json) : List Json :=
  (SortedMap.ofList (items.map fun j => (j.compactText, j))).values

/-- A list as a set; all else as it is. -/
def sortSet : Json → Json
  | .array items => .array (sortItems items)
  | j => j

mutual

/-- The form that equal configurations share. -/
def canonical : Json → Json
  | .object members => .object (canonicalMembers members)
  | .array items => .array (canonicalItems items)
  | .null => .null
  | .bool b => .bool b
  | .number n => .number n
  | .string s => .string s
  | .beyond => .beyond

def canonicalItems : List Json → List Json
  | [] => []
  | j :: rest => canonical j :: canonicalItems rest

def canonicalMembers : List (String × Json) → List (String × Json)
  | [] => []
  | (k, j) :: rest =>
    (k, if isSetKey k then sortSet (canonical j) else canonical j) :: canonicalMembers rest

end

end Json

namespace EngineSignature

/-- The text that the digest is taken of. -/
def signedText (tool mode : String) (engineOptions : Json) : String :=
  (Json.object [("engineOptions", engineOptions.canonical), ("mode", .string mode),
    ("tool", .string tool)]).compactText

def hashOf (tool mode : String) (engineOptions : Json) : String :=
  Sha256.hex (signedText tool mode engineOptions)

def ofOptions (tool mode : String) (engineOptions : Json) : EngineSignature :=
  ⟨tool, mode, engineOptions.canonical, hashOf tool mode engineOptions⟩

/-- The signature of the configuration of a run. -/
def ofRun (r : ManifestRun) : EngineSignature := ofOptions r.tool r.mode r.engineOptions

def toJson (s : EngineSignature) : Json :=
  .object [("tool", .string s.tool), ("mode", .string s.mode),
    ("engineOptions", s.engineOptions), ("hash", .string s.hash)]

def shape : Shape EngineSignature where
  name := "EngineSignature"
  start := ⟨"", "", .null, ""⟩
  fields := [
    Shape.field "tool" Reader.string (fun s v => { s with tool := v }) .required,
    Shape.field "mode" Reader.string (fun s v => { s with mode := v }) .required,
    Shape.field "engineOptions" Reader.value fun s v => { s with engineOptions := v },
    Shape.field "hash" Reader.string (fun s v => { s with hash := v }) .required]

end EngineSignature

end AnalysisGate
