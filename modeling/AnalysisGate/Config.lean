import AnalysisGate.RunCache.Store
import AnalysisGate.Severity
import AnalysisGate.Toml.Reader
import AnalysisGate.Workers

/-!
The configuration file of a project.

A project without the file has the standard configuration. A file that cannot be read, or that is
not a configuration, is an error, and nothing in it is used.
-/
namespace AnalysisGate

/-- What a project says of its cache. A limit of zero is none. -/
structure CacheConfig where
  directory : Option Path
  maxFiles : UInt64
  maxBytes : UInt64
  workers : Workers
  respectIgnore : Bool
  extensions : List String
  deriving DecidableEq

/-- What a project says of its budget. The tokens are looked at when they are used. -/
structure RatchetConfig where
  budget : Option Path
  severities : List String
  targets : SortedMap String UInt64
  deriving DecidableEq

structure ProjectConfig where
  cache : CacheConfig
  ratchet : RatchetConfig
  deriving DecidableEq

namespace CacheConfig

def standard : CacheConfig := ⟨none, 0, 0, .sequential, true, ["py", "pyi"]⟩

def shape : Shape CacheConfig where
  name := "CacheConfig"
  start := standard
  fields := [
    Shape.field "dir" (Reader.optional Reader.path) fun c v => { c with directory := v.map .mk },
    Shape.field "max_files" Reader.size fun c v => { c with maxFiles := v },
    Shape.field "max_bytes" Reader.count fun c v => { c with maxBytes := v },
    Shape.field "hash_workers" Workers.reader fun c v => { c with workers := v },
    Shape.field "respect_gitignore" Reader.bool fun c v => { c with respectIgnore := v },
    Shape.field "extensions" Reader.strings fun c v => { c with extensions := v }]

/-- A limit, unless it is zero. -/
def limit (n : UInt64) : Option UInt64 := if n = 0 then none else some n

def maxFilesLimit (c : CacheConfig) : Option UInt64 := limit c.maxFiles

def maxBytesLimit (c : CacheConfig) : Option UInt64 := limit c.maxBytes

/-- The cache directory of a project. -/
def resolve (c : CacheConfig) (root : Path) : Path := CachePaths.resolve root c.directory

end CacheConfig

namespace RatchetConfig

def standard : RatchetConfig := ⟨none, [], .empty⟩

def shape : Shape RatchetConfig where
  name := "RatchetConfig"
  start := standard
  fields := [
    Shape.field "budget" (Reader.optional Reader.path) fun c v => { c with budget := v.map .mk },
    Shape.field "severities" Reader.strings fun c v => { c with severities := v },
    Shape.field "targets" (Reader.map Reader.count) fun c v => { c with targets := v }]

/-- The budget file of a project. -/
def budgetPath (c : RatchetConfig) (root : Path) : Path :=
  root.join (c.budget.getD ⟨"ratchet_budget.json"⟩)

/-- The severities that the tokens denote. -/
def severitySet (c : RatchetConfig) : Except SeverityError (SortedSet Severity) :=
  Severity.parseSet c.severities

/-- The floors that the tokens denote, taken in the order of the tokens; the last one of a
severity holds. -/
def targetFloors (c : RatchetConfig) : Except SeverityError SeverityCounts :=
  c.targets.entries.foldlM
    (fun m e => (Severity.parse e.1).map fun s => m.insert s e.2) SortedMap.empty

end RatchetConfig

/-- Why a project has no configuration. -/
inductive ConfigError
  | unreadable (p : Path) (cause : FileError)
  | invalid (p : Path) (detail : Option String)
  deriving DecidableEq

namespace ConfigError

def message : ConfigError → String
  | unreadable p _ => "Failed to read " ++ p.text
  | invalid p _ => "Invalid configuration in " ++ p.text

/-- What lies behind an error, if it can be told. -/
def detail? : ConfigError → Option String
  | unreadable _ e => some e.message
  | invalid _ detail => detail

end ConfigError

namespace ProjectConfig

def standard : ProjectConfig := ⟨.standard, .standard⟩

def shape : Shape ProjectConfig where
  name := "ProjectConfig"
  start := standard
  fields := [
    Shape.field "cache" CacheConfig.shape.reader fun c v => { c with cache := v },
    Shape.field "ratchet" RatchetConfig.shape.reader fun c v => { c with ratchet := v }]

/-- A value of a type that a TOML text states, or what is wrong with it. -/
def readToml {α : Type} (read : Reader α) (text : String) : Except (Option String) α :=
  match Toml.read? text with
  | none => .error none
  | some j => (read .toml j).mapError fun e => some (e.message .toml)

/-- The configuration file of a project. -/
def file (root : Path) : Path := root.join ⟨"auditgate.toml"⟩

def load (w : Workspace) (root : Path) : Except ConfigError ProjectConfig :=
  let p := file root
  if !w.pathExists p then .ok standard
  else
    match w.readText p with
    | .error e => .error (.unreadable p e)
    | .ok text => (readToml shape.reader text).mapError (.invalid p)

end ProjectConfig

end AnalysisGate
