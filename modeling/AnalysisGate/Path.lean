import AnalysisGate.SortedMap

/-!
Paths as they are written.

A path keeps its text; what it names is decided by its components. Repeated and trailing slashes
and every `.` but a leading one of a relative path add no component. `Path.key` names a path by
its components below a root.
-/
namespace AnalysisGate

/-- A path, as it is written. -/
structure Path where
  text : String
  deriving DecidableEq

/-- One step of a path. -/
inductive Component
  | root
  | here
  | up
  | name (s : String)
  deriving DecidableEq

namespace Path

instance : Inhabited Path := ⟨⟨""⟩⟩

/-- The parts between slashes, empty ones included. -/
def pieces : List Char → List (List Char)
  | [] => [[]]
  | c :: rest =>
    if c = '/' then [] :: pieces rest
    else
      match pieces rest with
      | [] => [[c]]
      | p :: ps => (c :: p) :: ps

def isAbsolute (p : Path) : Bool := p.text.toList.head? == some '/'

/-- The component of a piece that is not the first. -/
def component? (piece : List Char) : Option Component :=
  if piece = [] ∨ piece = ['.'] then none
  else if piece = ['.', '.'] then some .up
  else some (.name (String.ofList piece))

def components (p : Path) : List Component :=
  let ps := pieces p.text.toList
  let start :=
    if p.isAbsolute then [Component.root]
    else if ps.head? = some ['.'] then [Component.here]
    else []
  start ++ ps.filterMap component?

/-- The text of a list of components. -/
def ofComponents : List Component → Path
  | [] => ⟨""⟩
  | .root :: rest => ⟨"/" ++ "/".intercalate (rest.map name)⟩
  | cs => ⟨"/".intercalate (cs.map name)⟩
where
  /-- How a component is spelled. -/
  name : Component → String
    | .root => ""
    | .here => "."
    | .up => ".."
    | .name s => s

/-- `p` as seen from `base`: itself if it is absolute. -/
def join (base p : Path) : Path :=
  if p.isAbsolute then p
  else if base.text.isEmpty || base.text.toList.getLast? == some '/' then
    ⟨base.text ++ p.text⟩
  else ⟨base.text ++ "/" ++ p.text⟩

/-- What remains of a list after another that it starts with. -/
def dropStart? {α : Type} [DecidableEq α] : List α → List α → Option (List α)
  | [], rest => some rest
  | a :: start, b :: rest => if a = b then dropStart? start rest else none
  | _ :: _, [] => none

theorem dropStart?_eq_some {α : Type} [DecidableEq α] {start l rest : List α} :
    dropStart? start l = some rest ↔ l = start ++ rest := by
  induction start generalizing l with
  | nil => simp [dropStart?, eq_comm]
  | cons a start ih =>
    cases l with
    | nil => simp [dropStart?]
    | cons b l =>
      by_cases h : a = b
      · subst h
        simp [dropStart?, ih]
      · simp [dropStart?, h, Ne.symm h]

theorem isSome_dropStart? {α : Type} [DecidableEq α] {start l : List α} :
    (dropStart? start l).isSome = true ↔ start <+: l := by
  rw [Option.isSome_iff_exists]
  exact exists_congr fun _ => dropStart?_eq_some.trans eq_comm

/-- Whether the components of `p` start with those of `dir`. -/
def startsWith (p dir : Path) : Bool := (dropStart? dir.components p.components).isSome

/-- The path without its last component. -/
def parent? (p : Path) : Option Path :=
  match p.components.getLast? with
  | none | some .root => none
  | some _ => some (ofComponents p.components.dropLast)

/-- The last component, if it is a name. -/
def fileName? (p : Path) : Option String :=
  match p.components.getLast? with
  | some (.name s) => some s
  | _ => none

/-- A name parted at its last dot, if something stands before the dot. -/
def splitName (cs : List Char) : List Char × Option (List Char) :=
  let after := (cs.reverse.takeWhile (· != '.')).reverse
  let before := cs.take (cs.length - after.length)
  match before.dropLast with
  | [] => (cs, none)
  | stem => (stem, some after)

/-- What follows the last dot of the file name. -/
def extension? (p : Path) : Option String :=
  p.fileName?.bind fun s => (splitName s.toList).2.map String.ofList

/-- A reversed text without the slashes and single dots that it starts with. -/
def trimTail : List Char → List Char
  | '/' :: rest => trimTail rest
  | '.' :: '/' :: rest => trimTail rest
  | cs => cs

/-- The path with another extension on its file name, if it has one. -/
def withExtension (p : Path) (extension : String) : Path :=
  match p.fileName? with
  | none => p
  | some s =>
    let text := (trimTail p.text.toList.reverse).reverse
    let stem := (splitName s.toList).1
    ⟨String.ofList (text.take (text.length - (s.toList.length - stem.length))) ++ "." ++ extension⟩

/-! ## Keys -/

/-- A key with one more component. -/
def extendKey (key : List Char) : Component → List Char
  | .here => key
  | .root => key ++ ['/']
  | .up => separated key ++ ['.', '.']
  | .name s => separated key ++ s.toList
where
  /-- A key that another part can follow. -/
  separated (key : List Char) : List Char :=
    if key.isEmpty || key.getLast? == some '/' then key else key ++ ['/']

/-- The name of a path below a root: its components after those of the root, or all of them if it
is not below the root. -/
def key (root p : Path) : String :=
  let cs := p.components
  String.ofList (((dropStart? root.components cs).getD cs).foldl extendKey [])

end Path

end AnalysisGate
