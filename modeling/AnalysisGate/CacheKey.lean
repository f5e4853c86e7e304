import AnalysisGate.Digest.Sha256
import AnalysisGate.Fingerprint
import AnalysisGate.Options

/-!
Keys of cached runs.

A key names one invocation of an analyzer: its tool and mode, the set of its target paths, and
every flag that can change its output, in order. Its text ends in a digest of all four, so the
text of a key is the text of no other.
-/
namespace AnalysisGate

structure CacheKey where
  tool : String
  mode : String
  paths : SortedSet String
  flags : List String
  deriving DecidableEq

namespace CacheKey

/-- A key without flags; the order of the paths and repetitions do not matter. -/
def ofPaths (tool mode : String) (paths : List String) : CacheKey :=
  ⟨tool, mode, SortedSet.ofList paths, []⟩

/-- The spelling of a flag. -/
def flagText (name value : String) : String := name ++ "=" ++ value

def withFlags (k : CacheKey) (flags : List String) : CacheKey :=
  { k with flags := k.flags ++ flags }

def withFlag (k : CacheKey) (name value : String) : CacheKey := k.withFlags [flagText name value]

/-- The flags of all options that can change an analyzer's output. -/
def optionFlags (o : EngineOptions) : List String :=
  o.pluginArgs.map (flagText "plugin-arg") ++
    o.profile.toList.map (flagText "profile") ++
    o.included.map (flagText "include") ++
    o.excluded.map (flagText "exclude") ++
    o.overrides.entries.map (fun e => flagText "override" (e.1 ++ ":" ++ e.2.compactText)) ++
    o.categories.entries.map fun e => flagText "category" (e.1 ++ ":" ++ e.2)

def withOptions (k : CacheKey) (o : EngineOptions) : CacheKey := k.withFlags (optionFlags o)

/-- The flags of a configuration file and of what it holds. -/
def withConfigFile (k : CacheKey) (w : Workspace) (p : Path) : CacheKey :=
  (k.withFlag "config-file" p.text).withFlag "config-fingerprint"
    (Fingerprint.ofFile w p).toJson.compactText

/-- The flag of a tool's version, which may not be known. -/
def withToolVersion (k : CacheKey) (version : Option String) : CacheKey :=
  k.withFlag "tool-version" (version.getD "unknown")

def toJson (k : CacheKey) : Json :=
  .object [("tool", .string k.tool), ("mode", .string k.mode), ("paths", .ofStrings k.paths.keys),
    ("flags", .ofStrings k.flags)]

/-- The text that the digest of a key is taken of. -/
def canonicalText (k : CacheKey) : String := k.toJson.compactText

/-- The text of a key: tool, mode and digest. -/
def text (k : CacheKey) : String :=
  k.tool ++ ":" ++ k.mode ++ ":" ++ Sha256.hex k.canonicalText

end CacheKey

end AnalysisGate
