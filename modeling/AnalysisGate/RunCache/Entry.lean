import AnalysisGate.Diagnostic
import AnalysisGate.Fingerprint
import AnalysisGate.Options

/-!
What a run cache keeps of one run, and its form in a store.

In the form the options stand among the other fields. An absent field has its empty value; a
field of another name is passed over, if it has a value at all.
-/
namespace AnalysisGate

/-- What an analyzer gives, as it is handed to a cache. -/
structure AnalyzerRun where
  command : List String
  exitCode : Int32
  durationMs : UInt64
  diagnostics : List Diagnostic
  options : EngineOptions
  toolSummary : Option Json

/-- A run with the fingerprints of the files that it looked at. -/
structure CacheEntry where
  command : List String
  exitCode : Int32
  durationMs : UInt64
  diagnostics : List Diagnostic
  fingerprints : FingerprintMap
  options : EngineOptions
  toolSummary : Option Json
  deriving DecidableEq

namespace CacheEntry

def empty : CacheEntry := ⟨[], 0, 0, [], .empty, .empty, none⟩

/-- The entry of a run; its diagnostics are put in canonical order. -/
def ofRun (fingerprints : FingerprintMap) (run : AnalyzerRun) : CacheEntry where
  command := run.command
  exitCode := run.exitCode
  durationMs := run.durationMs
  diagnostics := Diagnostic.sort run.diagnostics
  fingerprints
  options := run.options
  toolSummary := run.toolSummary

def toJson (e : CacheEntry) : Json :=
  .object ([("command", .ofStrings e.command), ("exitCode", .ofInt e.exitCode.toInt),
    ("durationMs", .ofCount e.durationMs),
    ("diagnostics", .array (e.diagnostics.map Diagnostic.toJson)),
    ("fingerprints", e.fingerprints.toJson)] ++ e.options.members ++
    [("toolSummary", .ofOption id e.toolSummary)])

/-- A field of the options among those of an entry. -/
def optionField (f : Field EngineOptions) : Field CacheEntry where
  name := f.name
  presence := f.presence
  read := fun m j e => (f.read m j e.options).map fun o => { e with options := o }

def shape : Shape CacheEntry where
  name := "CacheEntry"
  start := empty
  fields := [
    Shape.field "command" Reader.strings fun e v => { e with command := v },
    Shape.field "exitCode" Reader.int32 fun e v => { e with exitCode := v },
    Shape.field "durationMs" Reader.count fun e v => { e with durationMs := v },
    Shape.field "diagnostics" (Reader.list Diagnostic.reader)
      fun e v => { e with diagnostics := v },
    Shape.field "fingerprints" FingerprintMap.reader fun e v => { e with fingerprints := v }] ++
    EngineOptions.shape.fields.map optionField ++ [
    Shape.field "toolSummary" (Reader.optional Reader.value)
      fun e v => { e with toolSummary := v }]

/-- Whether every member has a value, or a field of the entry to judge it. -/
def hasValues (l : List (String × Json)) : Bool :=
  l.all fun (k, j) => shape.fields.any (·.name == k) || j.value?.isSome

/-- An entry has to be an object, in which even members that are no fields have values. -/
def reader : Reader CacheEntry
  -- the faults of members that are no fields come before all others
  | m, .object l => if hasValues l then shape.ofMembers m l else .error .beyond
  | _, j => .error (.kind j "struct CacheEntry")

end CacheEntry

end AnalysisGate
