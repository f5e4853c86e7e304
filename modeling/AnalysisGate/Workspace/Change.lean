import AnalysisGate.Workspace.Basic

/-!
Changing a tree of files.

Each operation gives the tree after it, or says why it fails; a failing operation changes
nothing, but for one that makes several directories (`makeAll`). `FileAction` strings operations
together: the tree keeps what the operations before a failure have done.
-/
namespace AnalysisGate.Workspace

def put (w : Workspace) (place : Place) (e : Entry) : Workspace :=
  { w with entries := w.entries.insert place e }

/-- The tree without an entry and all that stands below it. -/
def removeAt (w : Workspace) (place : Place) : Workspace :=
  { w with entries := w.entries.filter fun p _ => !place.isPrefixOf p }

def endsInSlash (p : Path) : Bool := p.text.toList.getLast? == some '/'

/-- The steps of a path without the slashes at its end. -/
def plainSteps (p : Path) : List String :=
  ((Path.pieces p.text.toList).filter (· ≠ [])).map String.ofList

/-- Whether steps end in a name that can be given to a new entry. -/
def endsInName (names : List String) : Bool :=
  match names.getLast? with
  | none | some "." | some ".." => false
  | some _ => true

/-- The place that a path opened for writing leads to: a file, or a free place for one. -/
def openForWriting (w : Workspace) (p : Path) : Except FileError Place := do
  if p.text.isEmpty then .error .notFound
  else if endsInSlash p || !endsInName (plainSteps p) then
    match ← w.locateSteps true p ((plainSteps p).dropLast ++ ["."]) with
    | _ => .error .isDirectory
  else
    match ← w.locate true p with
    | .free directory name => return directory ++ [name]
    | .found place =>
      match w.statAt place with
      | .directory => .error .isDirectory
      | _ => return place

/-- Replace the bytes of a file, or make one of them. -/
def write (w : Workspace) (p : Path) (bytes : ByteArray) : Except FileError Workspace := do
  let place ← w.openForWriting p
  match w.entries.get? place with
  | none | some (.file _ _) => return w.put place (.file bytes w.clock)
  | some _ => return w

/-- Make an empty file unless there is one. -/
def create (w : Workspace) (p : Path) : Except FileError Workspace := do
  let place ← w.openForWriting p
  match w.entries.get? place with
  | none => return w.put place (.file .empty w.clock)
  | some _ => return w

/-- Make an entry at a free place. -/
def add (w : Workspace) (p : Path) (e : Entry) : Except FileError Workspace := do
  if (plainSteps p).isEmpty && !p.text.isEmpty then .error .alreadyExists
  else
    match ← w.locateSteps false p (plainSteps p) with
    | .found _ => .error .alreadyExists
    | .free directory name => return w.put (directory ++ [name]) e

def makeDirectory (w : Workspace) (p : Path) : Except FileError Workspace := w.add p .directory

/-- Make a directory, unless there is one; where what is above it is missing, make that first. What
has been made before a failure stays. -/
def makeAfter (w : Workspace) (p : Path) (makeAbove : Except (FileError × Workspace) Workspace) :
    Except (FileError × Workspace) Workspace :=
  match w.makeDirectory p with
  | .ok w => .ok w
  | .error .notFound => do
    let w ← makeAbove
    match w.makeDirectory p with
    | .ok w => .ok w
    | .error e => if w.isDirectory p then .ok w else .error (e, w)
  | .error e => if w.isDirectory p then .ok w else .error (e, w)

/-- Make the directory that reversed components name, and those above it that are missing. -/
def makeComponents (w : Workspace) : List Component → Except (FileError × Workspace) Workspace
  | [] => .ok w
  | c :: above =>
    w.makeAfter (Path.ofComponents (c :: above).reverse) (w.makeComponents above)

/-- Make a directory and those above it that are missing. The path itself is taken as it is
written, so one that ends in `.` names a directory only if that is there already. -/
def makeAll (w : Workspace) (p : Path) : Except (FileError × Workspace) Workspace :=
  match p.components.reverse with
  | [] => .ok w
  | _ :: above => w.makeAfter p (w.makeComponents above)

/-- The tree with a directory and those above it, if they can all be made. -/
def makeDirectories (w : Workspace) (p : Path) : Except FileError Workspace :=
  (w.makeAll p).mapError Prod.fst

/-- The tree that the making of directories leaves, whatever comes of it. -/
def left : Except (FileError × Workspace) Workspace → Workspace
  | .ok w | .error (_, w) => w

/-- The tree with a directory and those above it, or with those of them that could be made. -/
def making (w : Workspace) (p : Path) : Workspace := left (w.makeAll p)

/-- Move an entry that is no directory, in place of what stands at its new path. -/
def rename (w : Workspace) (source target : Path) : Except FileError Workspace := do
  match ← w.locate false source with
  | .free _ _ => .error .notFound
  | .found place =>
    let names := plainSteps target
    if !endsInName names then
      match ← w.locateSteps true target names with
      | _ => .error .busy
    else
      match ← w.locateSteps false target names with
      | .free directory name =>
        if endsInSlash target then .error .notDirectory
        else move place (directory ++ [name])
      | .found other =>
        if endsInSlash target then .error .notDirectory
        else if w.isDirectoryAt other then .error .isDirectory
        else move place other
where
  /-- Put the entry at one place to another. -/
  move (place other : Place) : Except FileError Workspace :=
    match w.entries.get? place with
    | none => .error .notFound
    | some e =>
      if place = other then .ok w
      else .ok { w with entries := (w.entries.erase place).insert other e }

/-- Remove an entry, and all below it if it is a directory. -/
def remove (w : Workspace) (p : Path) : Except FileError Workspace := do
  match ← w.locate false p with
  | .free _ _ => .error .notFound
  | .found place => return w.removeAt place

/-- Give a file the time of its last change. -/
def touch (w : Workspace) (p : Path) (modified : Int) : Except FileError Workspace := do
  let place ← w.placeOf p
  match w.entries.get? place with
  | some (.file bytes _) => return w.put place (.file bytes modified)
  | _ => return w

end AnalysisGate.Workspace

namespace AnalysisGate

/-- A step on a tree of files that can fail; what was done before a failure stays done. -/
abbrev FileAction (ε α : Type) := ExceptT ε (StateM Workspace) α

namespace FileAction

variable {ε α : Type}

/-- A look at the tree. -/
def look (f : Workspace → Except ε α) : FileAction ε α := do
  match f (← get) with
  | .ok a => return a
  | .error e => throw e

/-- A change of the tree. -/
def change (f : Workspace → Except ε Workspace) : FileAction ε Unit := do
  match f (← get) with
  | .ok w => set w
  | .error e => throw e

/-- Make a directory and those above it. A failure is told in other words, and leaves those of them
that could be made. -/
def makeDirectories (p : Path) (word : FileError → ε) : FileAction ε Unit := do
  match (← get).makeAll p with
  | .ok w => set w
  | .error (e, w) =>
    set w
    throw (word e)

/-- An outcome that needs no tree. -/
def lift (r : Except ε α) : FileAction ε α :=
  match r with
  | .ok a => pure a
  | .error e => throw e

def exec (act : FileAction ε α) (w : Workspace) : Except ε α × Workspace := (act.run).run w

end FileAction

end AnalysisGate
