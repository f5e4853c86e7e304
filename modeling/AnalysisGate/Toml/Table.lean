import AnalysisGate.Json.Basic

/-!
Tables as they grow while a TOML text is read.

A table comes about in one of three ways: stated by a header of its own, passed through on the
way to the table of a longer header, or through a dotted key. Which of them decides what may
still be added to it: a passed table can be stated once, a dotted one takes further dotted keys
and a stated one takes none. Every key of a table is given once.
-/
namespace AnalysisGate.Toml

/-- How a table came about. -/
inductive Origin
  | stated
  | passed
  | dotted
  deriving DecidableEq

/-- What a key of a table holds: a value, a table, or an array of tables that headers add to. -/
inductive Node
  | value (j : Json)
  | table (origin : Origin) (members : List (String × Node))
  | tables (items : List (List (String × Node)))

abbrev Members := List (String × Node)

namespace Members

def node? (key : String) (t : Members) : Option Node := (t.find? (·.1 == key)).map (·.2)

/-- A table with another node at a key, which it keeps in its place; a new key goes last. -/
def put (key : String) (n : Node) (t : Members) : Members :=
  if t.any (·.1 == key) then t.map fun e => if e.1 == key then (key, n) else e
  else t ++ [(key, n)]

def remove (key : String) (t : Members) : Members := t.filter (·.1 != key)

/-- A table with a node at a key that it lacks. -/
def add? (key : String) (n : Node) (t : Members) : Option Members :=
  match t.node? key with
  | some _ => none
  | none => some (t ++ [(key, n)])

/-- A list with another last item. -/
def replaceLast (items : List Members) (t : Members) : List Members := items.dropLast ++ [t]

/-- Give a value to a dotted key: the tables on the way are dotted, or passed but for the last. -/
def assign? (key : String) (j : Json) : List String → Members → Option Members
  | [], t => t.add? key (.value j)
  | k :: path, t =>
    match t.node? k with
    | none => (assign? key j path []).map fun u => t ++ [(k, .table .dotted u)]
    | some (.value _) => none
    | some (.table origin u) =>
      -- a table with a header of its own is closed to dotted keys
      if origin = .stated ∨ (path = [] ∧ origin ≠ .dotted) then none
      else (assign? key j path u).map fun u => t.put k (.table origin u)
    | some (.tables items) =>
      match items.getLast? with
      | none => none
      | some u =>
        if path = [] then none
        else (assign? key j path u).map fun u => t.put k (.tables (replaceLast items u))

/-- Change the table that headers reach by a path: in an array of tables its last one, and a
passed table where there is none. -/
def change? (f : Members → Option Members) : List String → Members → Option Members
  | [], t => f t
  | k :: path, t =>
    match t.node? k with
    | none => (change? f path []).map fun u => t ++ [(k, .table .passed u)]
    | some (.value _) => none
    | some (.table origin u) =>
      (change? f path u).map fun u => t.put k (.table origin u)
    | some (.tables items) =>
      match items.getLast? with
      | none => none
      | some u => (change? f path u).map fun u => t.put k (.tables (replaceLast items u))

/-- The table that headers reach by a path, empty if it is new. -/
def reach : List String → Members → Members
  | [], t => t
  | k :: path, t =>
    match t.node? k with
    | some (.table _ u) => reach path u
    | some (.tables items) => reach path (items.getLast?.getD [])
    | _ => []

end Members

/-! ## Documents -/

mutual

def Node.toJson : Node → Json
  | .value j => j
  | .table _ t => .object (membersToJson t)
  | .tables items => .array (tablesToJson items)

def membersToJson : List (String × Node) → List (String × Json)
  | [] => []
  | (k, n) :: rest => (k, n.toJson) :: membersToJson rest

def tablesToJson : List (List (String × Node)) → List Json
  | [] => []
  | t :: rest => .object (membersToJson t) :: tablesToJson rest

end

/-- A document on the way: the tables that are complete, and the one that lines are added to,
with the path of its header. -/
structure Draft where
  root : Members
  current : Members
  path : List String
  isItem : Bool

namespace Draft

def start : Draft := ⟨[], [], [], false⟩

/-- The path and the last part of a key. -/
def splitKey (key : List String) : List String × String := (key.dropLast, key.getLast?.getD "")

/-- A table with the current one at its last key. -/
def close? (d : Draft) (last : String) (t : Members) : Option Members :=
  if d.isItem then
    match t.node? last with
    | some (.tables items) => some (t.put last (.tables (items ++ [d.current])))
    | _ => none
  else t.add? last (.table .stated d.current)

/-- Put the current table where its header says. -/
def finish? (d : Draft) : Option Members :=
  match d.path with
  | [] => some d.current
  | key =>
    let (path, last) := splitKey key
    d.root.change? (d.close? last) path

/-- A value at a dotted key of the current table. -/
def assign? (d : Draft) (key : List String) (j : Json) : Option Draft :=
  let (path, last) := splitKey key
  (d.current.assign? last j path).map fun t => { d with current := t }

/-- The header of a table: a passed table becomes a stated one. -/
def table? (d : Draft) (key : List String) : Option Draft := do
  let root ← d.finish?
  let (path, last) := splitKey key
  let held := (root.reach path).node? last
  let current ← match held with
    | none => some []
    | some (.table .passed t) => some t
    | some _ => none
  let root ← root.change? (fun t => some (t.remove last)) path
  return ⟨root, current, key, false⟩

/-- The header of a further table in an array of tables. -/
def item? (d : Draft) (key : List String) : Option Draft := do
  let root ← d.finish?
  let (path, last) := splitKey key
  let root ← root.change? (fun t =>
    match t.node? last with
    | none => some (t ++ [(last, .tables [])])
    | some (.tables _) => some t
    | some _ => none) path
  return ⟨root, [], key, true⟩

end Draft

end AnalysisGate.Toml
