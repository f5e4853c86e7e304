import AnalysisGate.CacheKey
import AnalysisGate.Json.Reader
import AnalysisGate.RunCache.Entry
import AnalysisGate.Workspace.Change

/-!
A cache of runs, and the store file that it is kept in.

A cache is read from its directory as a whole and written back as a whole, through a temporary
file that then replaces the store. Reading never fails: a store that is missing or damaged is
empty. A look-up finds an entry only under the very fingerprints that it was recorded with.
-/
namespace AnalysisGate

namespace CachePaths

/-- The directory of a project's state. -/
def stateDirectory : Path := ⟨".auditgate"⟩

def standard (root : Path) : Path := (root.join stateDirectory).join ⟨"cache"⟩

/-- The directory that a project is told to use, or the standard one. -/
def resolve (root : Path) : Option Path → Path
  | some p => root.join p
  | none => standard root

def store (directory : Path) : Path := directory.join ⟨"run_cache.json"⟩

def lock (directory : Path) : Path := directory.join ⟨"run_cache.lock"⟩

end CachePaths

/-- Why a cache is not written. -/
inductive StoreError
  | makeDirectory (p : Path) (cause : FileError)
  | openLock (p : Path) (cause : FileError)
  | write (p : Path) (cause : FileError)
  | replace (p : Path) (cause : FileError)
  deriving DecidableEq

namespace StoreError

/-- What went wrong, and the cause of it. -/
def chain : StoreError → List String
  | makeDirectory p e => ["Failed to create cache directory " ++ p.text, e.message]
  | openLock p e => ["Failed to open lock file " ++ p.text, e.message]
  | write p e => ["Failed to write " ++ p.text, e.message]
  | replace p e => ["Failed to replace " ++ p.text, e.message]

end StoreError

/-- A cache in memory. It is dirty when it may differ from what was last read or written. -/
structure RunCache where
  directory : Path
  entries : SortedMap String CacheEntry
  dirty : Bool

namespace RunCache

def storePath (c : RunCache) : Path := CachePaths.store c.directory

def size (c : RunCache) : Nat := c.entries.size

def isEmpty (c : RunCache) : Bool := c.entries.isEmpty

/-! ## The store -/

def entriesReader : Reader (SortedMap String CacheEntry) := Reader.map CacheEntry.reader

/-- The entries that the bytes of a store stand for. -/
def decode (bytes : ByteArray) : Option (SortedMap String CacheEntry) := do
  let text ← Utf8.decode? bytes
  let j ← Json.read? text.toList
  (entriesReader .stream j).toOption

def encode (entries : SortedMap String CacheEntry) : String :=
  (Json.ofMap CacheEntry.toJson entries).prettyText

/-- The entries in a store file; none if it is missing or damaged. -/
def readStore (w : Workspace) (store : Path) : SortedMap String CacheEntry :=
  match w.read store with
  | .ok bytes => (decode bytes).getD .empty
  | .error _ => .empty

/-- The cache in a directory. -/
def load (w : Workspace) (directory : Path) : RunCache :=
  ⟨directory, readStore w (CachePaths.store directory), false⟩

/-- Open the lock file of a cache, and make it first if it is missing. -/
def openLock (p : Path) : FileAction StoreError Unit :=
  FileAction.change fun w => (w.create p).mapError (.openLock p)

/-- The file that a new store is written to before it replaces the old one. -/
def temporaryPath (c : RunCache) : Path := c.storePath.withExtension "json.tmp"

/-- Make the directory of a cache, and hold its lock. -/
def prepare (c : RunCache) : FileAction StoreError Unit := do
  FileAction.makeDirectories c.directory (.makeDirectory c.directory)
  openLock (CachePaths.lock c.directory)

def writeTemporary (c : RunCache) : FileAction StoreError Unit :=
  FileAction.change fun w =>
    (w.write c.temporaryPath (encode c.entries).toUTF8).mapError (.write c.temporaryPath)

def replaceStore (c : RunCache) : FileAction StoreError Unit :=
  FileAction.change fun w => (w.rename c.temporaryPath c.storePath).mapError (.replace c.storePath)

/-- Write the store unless nothing has changed. -/
def persist (c : RunCache) : FileAction StoreError RunCache := do
  if !c.dirty then return c
  else
    c.prepare
    c.writeTemporary
    c.replaceStore
    return { c with dirty := false }

/-! ## Entries -/

/-- The entry of a key, if it was recorded with these fingerprints. -/
def lookup (c : RunCache) (k : CacheKey) (current : FingerprintMap) : Option CacheEntry :=
  (c.entries.get? k.text).filter fun e => e.fingerprints = current

/-- The cache with a run in place of what it had for a key. -/
def record (c : RunCache) (k : CacheKey) (current : FingerprintMap) (run : AnalyzerRun) :
    RunCache :=
  { c with entries := c.entries.insert k.text (.ofRun current run), dirty := true }

/-- The cache without an entry for a key, and whether it had one. -/
def invalidate (c : RunCache) (k : CacheKey) : RunCache × Bool :=
  if c.entries.contains k.text then
    ({ c with entries := c.entries.erase k.text, dirty := true }, true)
  else (c, false)

/-- The cache without entries. -/
def clear (c : RunCache) : RunCache :=
  if c.entries.isEmpty then c else { c with entries := .empty, dirty := true }

/-- The number of diagnostics in all entries. -/
def diagnosticCount (c : RunCache) : Nat :=
  (c.entries.values.flatMap (·.diagnostics)).length

/-- The number of fingerprints in all entries. -/
def fileCount (c : RunCache) : Nat := (c.entries.values.flatMap (·.fingerprints.keys)).length

end RunCache

end AnalysisGate
