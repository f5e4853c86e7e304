import AnalysisGate.Workspace.Change
import AnalysisGate.Repository.Ignore
import AnalysisGate.Repository.Index

/-!
The files that a repository has or would take.

A repository is a directory with a `.git` directory of the usual make. Seen from a directory in
it, its listing has every tracked path below that directory, whether it exists or not, and every
file or link below it that is not ignored. Ignored directories and repositories inside are not
entered.
-/
namespace AnalysisGate.Repository

/-- Whether a place is a directory of the make of `.git`. -/
def isStore (w : Workspace) (place : Place) : Bool :=
  w.isDirectoryAt place && w.isDirectoryAt (place ++ ["objects"]) &&
    w.isDirectoryAt (place ++ ["refs"]) &&
    match w.entries.get? (place ++ ["HEAD"]) with
    | some (.file _ _) => true
    | _ => false

/-- The bytes of a file at a place, or none. -/
def bytesAt (w : Workspace) (place : Place) : ByteArray :=
  match w.entries.get? place with
  | some (.file bytes _) => bytes
  | _ => .empty

/-- The innermost repository around a place; none inside its store, or where a file stands in for
the store. -/
def discover (w : Workspace) (place : Place) : Option Place :=
  if isStore w (place ++ [".git"]) then some place
  else if isStore w place then none
  else
    match w.entries.get? (place ++ [".git"]) with
    | some (.file _ _) => none
    | _ =>
      if _h : place = [] then none
      else discover w place.dropLast
termination_by place.length
decreasing_by
  have := List.length_pos_iff.2 _h
  simp only [List.length_dropLast]
  omega

def rulesAt (w : Workspace) (place : Place) : List Rule := Rule.ofBytes (bytesAt w place)

/-- The ways to part the names of a path into a directory and the rest, deepest first. -/
def splits (names : List String) : List (List String × List String) :=
  ((List.range names.length).map fun i => (names.take i, names.drop i)).reverse

/-- Whether the ignore files of a repository ignore a path, its directories apart. -/
def isIgnored (w : Workspace) (repository : Place) (isDirectory : Bool) (names : List String) :
    Bool :=
  let own := (splits names).findSome? fun (directory, rest) =>
    Rule.verdict (rulesAt w (repository ++ directory ++ [".gitignore"])) isDirectory rest
  let shared :=
    Rule.verdict (rulesAt w (repository ++ [".git", "info", "exclude"])) isDirectory names
  (own.or shared).getD false

/-- Whether a directory is left out with all that it holds. -/
def isClosed (w : Workspace) (repository : Place) (tracked : List (List String))
    (names : List String) : Bool :=
  isIgnored w repository true names ||
    (isStore w (repository ++ names ++ [".git"]) && !tracked.any names.isPrefixOf)

def isListable : Entry → Bool
  | .file _ _ | .link _ => true
  | _ => false

/-- The names of a tracked path. -/
def names (path : String) : List String :=
  (Path.pieces path.toList).map String.ofList

/-- The tracked paths of a repository. -/
def tracked (w : Workspace) (repository : Place) : List String :=
  Index.decode (bytesAt w (repository ++ [".git", "index"]))

/-- The paths, relative to a place, that the repository around it lists. -/
def listing (w : Workspace) (place : Place) : Option (List String) :=
  (discover w place).map fun repository =>
    let base := place.drop repository.length
    let kept := (tracked w repository).map names
    -- a tracked path is listed even if it is gone
    let own := kept.filterMap (Path.dropStart? base)
    let others := (w.below place).filterMap fun (names, e) =>
      let path := base ++ names
      let directories := (List.range path.length).map path.take
      if isListable e && !names.contains ".git" && !kept.contains path &&
          (directories.drop 1).all (fun d => !isClosed w repository kept d) &&
          !isIgnored w repository false path then
        some names
      else none
    (own ++ others).map fun l => "/".intercalate l

/-- The paths that the repository around the directory of a path lists, relative to it. -/
def listingFrom (w : Workspace) (p : Path) : Option (List String) :=
  match w.placeOf p with
  | .ok place => if w.isDirectoryAt place then listing w place else none
  | .error _ => none

/-! ## Making a repository -/

/-- The text that a new repository has for its shared rules. -/
def excludeTemplate : String :=
  "# git ls-files --others --exclude-from=.git/info/exclude\n" ++
  "# Lines that start with '#' are comments.\n" ++
  "# For a project mostly in C, the following would be a good set of\n" ++
  "# exclude patterns (uncomment them if you want to use them):\n" ++
  "# *.[oa]\n" ++
  "# *~\n"

/-- Make a directory a repository that tracks nothing. -/
def make (w : Workspace) (place : Place) : Workspace :=
  let store := place ++ [".git"]
  let directories := [[], ["objects"], ["objects", "info"], ["objects", "pack"], ["refs"],
    ["refs", "heads"], ["refs", "tags"], ["info"], ["hooks"], ["branches"]]
  let w := directories.foldl (fun w d => w.put (store ++ d) .directory) w
  let w := w.put (store ++ ["HEAD"]) (.file "ref: refs/heads/master\n".toUTF8 w.clock)
  w.put (store ++ ["info", "exclude"]) (.file excludeTemplate.toUTF8 w.clock)

/-- Whether a path stands in a repository of its own, of which nothing is tracked from outside. -/
def isEmbedded (w : Workspace) (repository : Place) (tracked : List (List String))
    (names : List String) : Bool :=
  ((List.range names.length).drop 1).any fun n =>
    isStore w (repository ++ names.take n ++ [".git"]) && !tracked.any (names.take n).isPrefixOf

def isListableAt (w : Workspace) (place : Place) : Bool := (w.entries.get? place).any isListable

/-- Track the files that paths name and those below the directories that they name, ignored or
not, and no longer those that are gone. Nothing changes if one of the paths leads nowhere. -/
def track (w : Workspace) (place : Place) (paths : List Path) : Workspace :=
  match discover w place with
  | none => w
  | some repository =>
    let kept := (tracked w repository).map names
    let named := paths.map fun p =>
      (place ++ (Workspace.steps p.text).filter (· ≠ ".")).drop repository.length
    let isNamed (l : List String) : Bool := named.any (·.isPrefixOf l)
    let leads (l : List String) : Bool :=
      w.isDirectoryAt (repository ++ l) || isListableAt w (repository ++ l) ||
        kept.any l.isPrefixOf
    if named.all leads then
      let found := (w.below repository).filterMap fun (l, e) =>
        if isListable e && isNamed l && !l.contains ".git" && !isEmbedded w repository kept l then
          some l
        else none
      let present := kept.filter fun l => !isNamed l || isListableAt w (repository ++ l)
      let all := SortedSet.ofList ((present ++ found).map ("/".intercalate ·))
      w.put (repository ++ [".git", "index"]) (.file (Index.encode all.keys) w.clock)
    else w

end AnalysisGate.Repository
