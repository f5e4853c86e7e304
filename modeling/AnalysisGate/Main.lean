import AnalysisGate.CommandLine.Run
import Std.Time.DateTime.Timestamp

/-!
The command-line program.

It takes the files below the current directory, and those elsewhere that the command line names,
as one tree, carries the command out on that tree, and writes back what has changed.
-/
namespace AnalysisGate.Program

/-- The path of a place in the tree. -/
def pathOf (place : Place) : String := "/" ++ "/".intercalate place

/-- The names that lead to an absolute path. -/
def placeOf (text : String) : Place :=
  ((Path.pieces text.toList).filter (· ≠ [])).map String.ofList

def nanos (t : IO.FS.SystemTime) : Int := t.sec * 1000000000 + t.nsec.toNat

/-- The entry at a place, and all entries below it. -/
partial def readEntry (entries : SortedMap Place Entry) (place : Place) (e : IO.FS.DirEntry) :
    IO (SortedMap Place Entry) := do
  let info ← e.path.symlinkMetadata
  match info.type with
  | .file =>
    return entries.insert place (.file (← IO.FS.readBinFile e.path) (nanos info.modified))
  | .dir =>
    let mut found := entries.insert place .directory
    for child in ← e.path.readDir do
      found ← readEntry found (place ++ [child.fileName]) child
    return found
  | .symlink =>
    let target ← try pure (← IO.FS.realPath e.path).toString catch _ => pure (pathOf place)
    return entries.insert place (.link target)
  | .other => return entries.insert place .device

/-- The tree with all that stands at and below an absolute path. -/
def readTree (entries : SortedMap Place Entry) (text : String) : IO (SortedMap Place Entry) := do
  let place := placeOf text
  let above := (List.range place.length).drop 1
  let entries := above.foldl (fun m n => m.insert (place.take n) .directory) entries
  match place.getLast? with
  | none => return entries
  | some name =>
    try readEntry entries place ⟨pathOf place.dropLast, name⟩ catch _ => return entries

/-- The texts in a command line that may be paths: words, and what is attached to an option. -/
def candidates (words : List String) : List String :=
  words.flatMap fun w =>
    [w, (w.splitOn "=").getLastD "", String.ofList (w.toList.drop 2)]

/-- The tree with what a path outside the current directory leads to. -/
def readOutside (here : String) (entries : SortedMap Place Entry) (text : String) :
    IO (SortedMap Place Entry) := do
  let real ← try pure (← IO.FS.realPath ((⟨here⟩ : Path).join ⟨text⟩).text).toString
    catch _ => pure here
  if (placeOf here).isPrefixOf (placeOf real) then return entries else readTree entries real

def sameEntry : Entry → Entry → Bool
  | .file a _, .file b _ => a.data == b.data
  | .directory, .directory | .pipe, .pipe | .device, .device => true
  | .link a, .link b => a == b
  | _, _ => false

/-- Write what is new or different in a tree. -/
def writeBack (before after : Workspace) : IO Unit := do
  for (place, _) in before.entries.entries do
    if !after.entries.contains place then
      IO.FS.removeFile (pathOf place)
  for (place, e) in after.entries.entries do
    if !(before.entries.get? place).any (sameEntry e) then
      match e with
      | .file bytes _ => IO.FS.writeBinFile (pathOf place) bytes
      | .directory => IO.FS.createDirAll (pathOf place)
      | _ => pure ()

def run (words : List String) : IO UInt32 := do
  let here := (← IO.currentDir).toString
  let entries ← (candidates words).foldlM (readOutside here) (← readTree .empty here)
  let clock := (← Std.Time.Timestamp.now).toNanosecondsSinceUnixEpoch.toInt
  let before : Workspace := ⟨entries, placeOf here, clock⟩
  let (outcome, after) := CommandLine.run (Timestamp.ofUnix clock) words before
  writeBack before after
  IO.print outcome.stdout
  IO.eprint outcome.stderr
  return UInt32.ofNat outcome.exitCode.toNat

end AnalysisGate.Program

def main (words : List String) : IO UInt32 := AnalysisGate.Program.run words
