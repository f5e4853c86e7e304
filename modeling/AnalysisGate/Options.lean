import AnalysisGate.Path
import AnalysisGate.Json.Decode

/-!
Options of an analyzer, merged from layers.

Each layer sets some options: defaults, the engine, the profile, and the directories that hold a
path, the nearest last. A later layer replaces what an earlier one sets, and its named values one
by one. The result is one snapshot that nothing changes afterwards.
-/
namespace AnalysisGate

/-- What one layer sets. -/
structure OptionsLayer where
  profile : Option String
  configFile : Option String
  pluginArgs : Option (List String)
  included : Option (List String)
  excluded : Option (List String)
  overrides : SortedMap String Json
  categories : SortedMap String String
  deriving DecidableEq

/-- The options that hold for a run. -/
structure EngineOptions where
  profile : Option String
  configFile : Option String
  pluginArgs : List String
  included : List String
  excluded : List String
  overrides : SortedMap String Json
  categories : SortedMap String String
  deriving DecidableEq

namespace OptionsLayer

def empty : OptionsLayer := ⟨none, none, none, none, none, .empty, .empty⟩

instance : Inhabited OptionsLayer := ⟨empty⟩

def shape : Shape OptionsLayer where
  name := "OptionsLayer"
  start := empty
  fields := [
    Shape.field "profile" (Reader.optional Reader.string) fun o v => { o with profile := v },
    Shape.field "config_file" (Reader.optional Reader.string) fun o v => { o with configFile := v },
    Shape.field "plugin_args" (Reader.optional Reader.strings)
      fun o v => { o with pluginArgs := v },
    Shape.field "include" (Reader.optional Reader.strings) fun o v => { o with included := v },
    Shape.field "exclude" (Reader.optional Reader.strings) fun o v => { o with excluded := v },
    Shape.field "overrides" (Reader.map Reader.value) fun o v => { o with overrides := v },
    Shape.field "category_mapping" (Reader.map Reader.string) fun o v => { o with categories := v }]

def reader : Reader OptionsLayer := shape.reader

end OptionsLayer

namespace EngineOptions

def empty : EngineOptions := ⟨none, none, [], [], [], .empty, .empty⟩

instance : Inhabited EngineOptions := ⟨empty⟩

/-- The options after one more layer. -/
def apply (o : EngineOptions) (layer : OptionsLayer) : EngineOptions where
  profile := layer.profile.or o.profile
  configFile := layer.configFile.or o.configFile
  pluginArgs := layer.pluginArgs.getD o.pluginArgs
  included := layer.included.getD o.included
  excluded := layer.excluded.getD o.excluded
  overrides := o.overrides.merge layer.overrides
  categories := o.categories.merge layer.categories

/-- The fields as documents have them. -/
def members (o : EngineOptions) : List (String × Json) :=
  [("profile", .ofOption .string o.profile), ("configFile", .ofOption .string o.configFile),
    ("pluginArgs", .ofStrings o.pluginArgs), ("include", .ofStrings o.included),
    ("exclude", .ofStrings o.excluded), ("overrides", .ofMap id o.overrides),
    ("categoryMapping", .ofMap .string o.categories)]

def toJson (o : EngineOptions) : Json := .object o.members

def shape : Shape EngineOptions where
  name := "EngineOptions"
  start := empty
  fields := [
    Shape.field "profile" (Reader.optional Reader.string) fun o v => { o with profile := v },
    Shape.field "configFile" (Reader.optional Reader.string) fun o v => { o with configFile := v },
    Shape.field "pluginArgs" Reader.strings fun o v => { o with pluginArgs := v },
    Shape.field "include" Reader.strings fun o v => { o with included := v },
    Shape.field "exclude" Reader.strings fun o v => { o with excluded := v },
    Shape.field "overrides" (Reader.map Reader.value) fun o v => { o with overrides := v },
    Shape.field "categoryMapping" (Reader.map Reader.string) fun o v => { o with categories := v }]

end EngineOptions

/-! ## Layers -/

/-- All layers of an engine; those of directories in the order in which they are registered. -/
structure OptionsLayers where
  defaults : OptionsLayer
  engine : OptionsLayer
  profile : OptionsLayer
  directories : List (Path × OptionsLayer)

namespace OptionsLayers

/-- The options without any directory. -/
def build (l : OptionsLayers) : EngineOptions :=
  ((EngineOptions.empty.apply l.defaults).apply l.engine).apply l.profile

/-- The layers of the directories that hold a path, the nearest last and those of one directory in
the order in which they are registered. -/
def matching (l : OptionsLayers) (p : Path) : List (Path × OptionsLayer) :=
  (l.directories.filter fun e => p.startsWith e.1).mergeSort fun a b =>
    decide (a.1.components.length ≤ b.1.components.length)

/-- The options for a path. -/
def buildFor (l : OptionsLayers) (p : Path) : EngineOptions :=
  (l.matching p).foldl (fun o e => o.apply e.2) l.build

end OptionsLayers

end AnalysisGate
