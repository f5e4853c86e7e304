import AnalysisGate.Path
import AnalysisGate.Text.Utf8

/-!
A tree of files as a value.

Every entry stands at its place: the names that lead to it from the root of the tree. A path is
resolved step by step from the current directory, through symbolic links, to the place of an
entry or to a free place in a directory; `FileError` says why it is not. Reading a tree never
changes it.

A tree has no permissions: every file can be read and replaced, and every directory searched and
changed. An operation fails only for what `FileError` names.
-/
namespace AnalysisGate

/-- Why an operation on a file fails. -/
inductive FileError
  | notFound
  | notDirectory
  | isDirectory
  | alreadyExists
  | busy
  | nameTooLong
  | tooManyLinks
  | invalidName
  | notText
  deriving DecidableEq

/-- The system's words for a failure. -/
def FileError.message : FileError → String
  | notFound => "No such file or directory (os error 2)"
  | notDirectory => "Not a directory (os error 20)"
  | isDirectory => "Is a directory (os error 21)"
  | alreadyExists => "File exists (os error 17)"
  | busy => "Device or resource busy (os error 16)"
  | nameTooLong => "File name too long (os error 36)"
  | tooManyLinks => "Too many levels of symbolic links (os error 40)"
  | invalidName => "file name contained an unexpected NUL byte"
  | notText => "stream did not contain valid UTF-8"

/-- What stands at a place. A file has its bytes and the time of its last change, in nanoseconds
from 1970. -/
inductive Entry
  | file (bytes : ByteArray) (modified : Int)
  | directory
  | link (target : String)
  | pipe
  | device

/-- The names that lead to an entry from the root. -/
abbrev Place := List String

/-- A tree of files, the current directory in it, and the time that the next change gets. -/
structure Workspace where
  entries : SortedMap Place Entry
  here : Place
  clock : Int

/-- What a look at an entry tells. -/
inductive Stat
  | regular (size : Nat) (modified : Int)
  | directory
  | other

namespace Workspace

/-! ## Resolution -/

/-- Where a path leads: to an entry, or to a free name in a directory. -/
inductive Target
  | found (place : Place)
  | free (directory : Place) (name : String)

def isDirectoryAt (w : Workspace) (place : Place) : Bool :=
  place.isEmpty ||
    match w.entries.get? place with
    | some .directory => true
    | _ => false

/-- The steps of a path: its names, with a last `.` where a slash ends it. -/
def steps (text : String) : List String :=
  let ps := Path.pieces text.toList
  let names := (ps.filter (· ≠ [])).map String.ofList
  if ps.getLast? = some [] then names ++ ["."] else names

def isAbsoluteText (text : String) : Bool := text.toList.head? == some '/'

/-- A name may have this many bytes. -/
def nameLimit : Nat := 255

/-- A path has fewer bytes than this. -/
def pathLimit : Nat := 4096

/-- This many links are followed on the way of one path. -/
def linkLimit : Nat := 40

/-- Follow steps from a place. A link in the last step is followed only if `follow` says so. -/
def walk (w : Workspace) (follow : Bool) (links : Nat) (place : Place) (names : List String) :
    Except FileError Target :=
  match names with
  | [] => .ok (.found place)
  | name :: rest =>
    -- even `.` and `..` can follow a directory only
    if !w.isDirectoryAt place then .error .notDirectory
    else if name = "." then walk w follow links place rest
    else if name = ".." then walk w follow links place.dropLast rest
    else if nameLimit < name.utf8ByteSize then .error .nameTooLong
    else
      match w.entries.get? (place ++ [name]) with
      | none => if rest.isEmpty then .ok (.free place name) else .error .notFound
      | some (.link target) =>
        if rest.isEmpty && !follow then .ok (.found (place ++ [name]))
        else
          match links with
          | 0 => .error .tooManyLinks
          | links + 1 =>
            -- a relative target is read from the directory that the link stands in
            if target.isEmpty then .error .notFound
            else walk w follow links (if isAbsoluteText target then [] else place)
              (steps target ++ rest)
      | some _ => walk w follow links (place ++ [name]) rest
termination_by (links, names.length)

/-- The text of a path that the system takes at all. -/
def checkText (text : String) : Except FileError Unit :=
  if text.toList.contains '\x00' then .error .invalidName
  else if text.isEmpty then .error .notFound
  else if pathLimit ≤ text.utf8ByteSize then .error .nameTooLong
  else .ok ()

/-- Where the steps of a path lead from the current directory. -/
def locateSteps (w : Workspace) (follow : Bool) (p : Path) (names : List String) :
    Except FileError Target := do
  checkText p.text
  w.walk follow linkLimit (if p.isAbsolute then [] else w.here) names

def locate (w : Workspace) (follow : Bool) (p : Path) : Except FileError Target :=
  w.locateSteps follow p (steps p.text)

/-- The place of the entry that a path leads to. -/
def placeOf (w : Workspace) (p : Path) : Except FileError Place := do
  match ← w.locate true p with
  | .found place => return place
  | .free _ _ => .error .notFound

/-! ## Looking -/

def statAt (w : Workspace) (place : Place) : Stat :=
  if place.isEmpty then .directory
  else
    match w.entries.get? place with
    | some (.file bytes modified) => .regular bytes.size modified
    | some .directory => .directory
    | _ => .other

/-- What a path leads to, through every link. -/
def stat (w : Workspace) (p : Path) : Except FileError Stat := (w.placeOf p).map w.statAt

def pathExists (w : Workspace) (p : Path) : Bool := (w.stat p).isOk

def isDirectory (w : Workspace) (p : Path) : Bool :=
  match w.stat p with
  | .ok .directory => true
  | _ => false

def isRegular (w : Workspace) (p : Path) : Bool :=
  match w.stat p with
  | .ok (.regular _ _) => true
  | _ => false

/-- The bytes of a file. A pipe and a device give none. -/
def read (w : Workspace) (p : Path) : Except FileError ByteArray := do
  let place ← w.placeOf p
  if place.isEmpty then .error .isDirectory
  else
    match w.entries.get? place with
    | some (.file bytes _) => return bytes
    | some .directory => .error .isDirectory
    | _ => return .empty

/-- The text of a file. -/
def readText (w : Workspace) (p : Path) : Except FileError String := do
  match Utf8.decode? (← w.read p) with
  | some s => return s
  | none => .error .notText

/-- The entries below a place, by the names that lead to them from there. -/
def below (w : Workspace) (place : Place) : List (List String × Entry) :=
  w.entries.entries.filterMap fun e =>
    match Path.dropStart? place e.1 with
    | some (name :: rest) => some (name :: rest, e.2)
    | _ => none

/-- What stands in a directory, by name. -/
def children (w : Workspace) (place : Place) : List (String × Entry) :=
  w.entries.entries.filterMap fun e =>
    match Path.dropStart? place e.1 with
    | some [name] => some (name, e.2)
    | _ => none

theorem mem_children {w : Workspace} {place : Place} {name : String} {e : Entry} :
    (name, e) ∈ w.children place ↔ w.entries.get? (place ++ [name]) = some e := by
  rw [SortedMap.get?_eq_some_iff, children, List.mem_filterMap]
  constructor
  · rintro ⟨⟨place', e'⟩, hmem, h⟩
    split at h
    · next hdrop =>
      cases h
      rwa [← Path.dropStart?_eq_some.1 hdrop]
    · cases h
  · intro hmem
    exact ⟨(place ++ [name], e), hmem, by rw [Path.dropStart?_eq_some.2 rfl]⟩

/-- How many names lead to the deepest entry. -/
def depth (w : Workspace) : Nat :=
  w.entries.entries.foldr (fun e n => max e.1.length n) 0

theorem length_le_depth {w : Workspace} {place : Place} {e : Entry}
    (h : w.entries.get? place = some e) : place.length ≤ w.depth := by
  have hmem := SortedMap.get?_eq_some_iff.1 h
  unfold depth
  generalize w.entries.entries = l at hmem
  induction l with
  | nil => cases hmem
  | cons a rest ih =>
    rw [List.foldr_cons]
    rcases List.mem_cons.1 hmem with rfl | hrest
    · exact Nat.le_max_left _ _
    · exact Nat.le_trans (ih hrest) (Nat.le_max_right _ _)

end Workspace

end AnalysisGate
