import AnalysisGate.Fingerprint
import AnalysisGate.Repository.Listing
import AnalysisGate.Text.Blank

/-!
Fingerprints of all files that an analysis looks at.

Targets are files, which are taken as they are named, and directories, which are searched for
files of the wanted extensions. What is found may be restricted to what a repository lists, and to
a number of files or bytes; it is taken in the order of the keys, so the restriction keeps the
longest beginning that fits.
-/
namespace AnalysisGate

/-- What to collect, beside the targets. -/
structure CollectOptions where
  extensions : List String
  respectIgnore : Bool
  maxFiles : Option UInt64
  maxBytes : Option UInt64
  baseline : Option FingerprintMap

structure Collection where
  fingerprints : FingerprintMap
  truncated : Bool
  hashed : Nat
  reused : Nat

namespace Collection

/-! ## Candidates -/

/-- The files that are found, by key, and the keys of those that a target names. -/
structure Candidates where
  files : SortedMap String Path
  named : SortedSet String

/-- Whether a file has one of the wanted extensions, or none are wanted. -/
def hasExtension (wanted : List String) (p : Path) : Bool :=
  wanted.isEmpty ||
    match p.extension? with
    | some e => wanted.any (Text.sameFolded · e)
    | none => false

def isHidden (name : String) : Bool := name.toList.head? == some '.'

/-- Whether an entry is a file or a link to one. -/
def isSource (w : Workspace) (e : Entry) (p : Path) : Bool :=
  match e with
  | .file _ _ => true
  | .link _ => w.isRegular p
  | _ => false

/-- The files that a search finds in a directory and in those below it: nothing behind a hidden
name, and nothing below a link. -/
def searchFrom (w : Workspace) (wanted : List String) (place : Place) (directory : Path) :
    List Path :=
  -- a directory is opened by its path
  if Workspace.pathLimit ≤ directory.text.utf8ByteSize then []
  else
    (w.children place).attach.flatMap fun ⟨(name, e), _⟩ =>
      let p := directory.join ⟨name⟩
      if isHidden name then []
      else
        match e with
        | .directory => searchFrom w wanted (place ++ [name]) p
        | e => if isSource w e p && hasExtension wanted p then [p] else []
termination_by w.depth - place.length
decreasing_by
  have hdeep := Workspace.length_le_depth (Workspace.mem_children.1 (by assumption))
  rw [List.length_append, List.length_singleton] at hdeep ⊢
  omega

/-- The files that a search of a directory finds. -/
def search (w : Workspace) (wanted : List String) (directory : Path) : List Path :=
  -- a dash alone is the standard input, which has no files
  if directory.components = [.name "-"] then []
  else
    match w.placeOf directory with
    | .error _ => []
    | .ok place => searchFrom w wanted place directory

/-- The candidates with those of one more target. -/
def Candidates.addTarget (w : Workspace) (root : Path) (wanted : List String) (c : Candidates)
    (target : Path) : Candidates :=
  let p := root.join target
  if w.isDirectory p then
    { c with files := (search w wanted p).foldl (fun m q => m.insert (root.key q) q) c.files }
  else
    { files := c.files.insert (root.key p) p, named := c.named.add (root.key p) }

def candidates (w : Workspace) (root : Path) (wanted : List String) (targets : List Path) :
    Candidates :=
  targets.foldl (Candidates.addTarget w root wanted) ⟨.empty, .empty⟩

/-- The candidates that a repository lists or that a target names. -/
def Candidates.listed (c : Candidates) (listing : List String) : SortedMap String Path :=
  c.files.filter fun key _ => listing.contains key || c.named.contains key

/-- The candidates to take: all of them, or those that the repository of the root has or would
take, if there is one. -/
def selected (w : Workspace) (root : Path) (targets : List Path) (o : CollectOptions) :
    SortedMap String Path :=
  let c := candidates w root o.extensions targets
  if o.respectIgnore then
    match Repository.listingFrom w root with
    | some listing => c.listed listing
    | none => c.files
  else c.files

/-! ## Limits -/

/-- The size of a file; what has no size counts as empty. -/
def fileSize (w : Workspace) (p : Path) : Nat :=
  match w.stat p with
  | .ok (.regular size _) => size
  | _ => 0

/-- Whether a number is within a limit. -/
def within (limit : Option UInt64) (n : Nat) : Bool :=
  match limit with
  | none => true
  | some m => n ≤ m.toNat

/-- The longest beginning of at most `maxFiles` files and `maxBytes` bytes after what has been
taken, and whether anything is left out. -/
def takeWithin {α : Type} (maxFiles maxBytes : Option UInt64) (size : α → Nat) :
    Nat → Nat → List α → List α × Bool
  | _, _, [] => ([], false)
  | files, bytes, a :: rest =>
    -- a sum beyond the largest word stays there
    let bytes := min (bytes + size a) (UInt64.size - 1)
    if within maxFiles (files + 1) && within maxBytes bytes then
      let (kept, truncated) := takeWithin maxFiles maxBytes size (files + 1) bytes rest
      (a :: kept, truncated)
    else ([], true)

/-! ## Fingerprints -/

/-- A collection with the fingerprint of one more file. -/
def add (w : Workspace) (baseline : Option FingerprintMap) (c : Collection) (e : String × Path) :
    Collection :=
  let (f, probe) := Fingerprint.probe w (baseline.bind (·.get? e.1)) e.2
  { c with
    fingerprints := c.fingerprints.insert e.1 f
    hashed := if probe = .hashed then c.hashed + 1 else c.hashed
    reused := if probe = .reused then c.reused + 1 else c.reused }

/-- The fingerprints of all files under the targets. -/
def collect (w : Workspace) (root : Path) (targets : List Path) (o : CollectOptions) :
    Collection :=
  let (kept, truncated) := takeWithin o.maxFiles o.maxBytes (fun e => fileSize w e.2) 0 0
    (selected w root targets o).entries
  kept.foldl (add w o.baseline) ⟨.empty, truncated, 0, 0⟩

def toJson (c : Collection) : Json :=
  .object [("fingerprints", c.fingerprints.toJson), ("hashed", .ofNat c.hashed),
    ("reused", .ofNat c.reused), ("truncated", .bool c.truncated)]

end Collection

end AnalysisGate
