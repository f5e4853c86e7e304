import AnalysisGate.Json.Writer
import AnalysisGate.Text.Quoted

/-!
Reading typed values from documents.

A record is read by its `Shape`: the fields in their order, each with a reader of its own. An
object gives fields by name, in the order in which it has them, so the first fault in document
order is the one reported; a field that is not in the object is missed only at the end. An array
gives the fields by position.
-/
namespace AnalysisGate

/-- Where a document comes from: text that is read as it goes, a value that has been read before,
or a configuration file. It decides what is said of an array that is too long for a record, and
how a double is spelled in a message. -/
inductive Medium
  | stream
  | tree
  | toml
  deriving DecidableEq

/-- Why a document is not a value of the type that is asked for. -/
inductive DecodeError
  /-- A record lacks a field. -/
  | missing (field : String)
  /-- A record has a field twice. -/
  | repeated (field : String)
  /-- A part is of the wrong kind. -/
  | kind (found : Json) (wanted : String)
  /-- An integer is out of the range that is asked for. -/
  | range (found : Number) (wanted : String)
  /-- An array is too short for the fields of a record. -/
  | short (length : Nat) (shape : String) (fields : Nat)
  /-- An array is too long for the fields of a record. -/
  | long (length : Nat)
  /-- A part fits no alternative of a type. -/
  | noVariant (type : String)
  /-- The type itself refuses the part. -/
  | refused (reason : String)
  /-- A part stands for no value. -/
  | beyond

namespace DecodeError

/-- Doubles in messages about configuration files are positional throughout. -/
def plainStyle : Decimal.Style where
  leastPositional := -400
  mostPositional := 400
  keepPoint := true

def doubleText (medium : Medium) (bits : UInt64) : String :=
  match medium with
  | .toml =>
    if Binary64.isFinite bits then String.ofList (Decimal.write plainStyle bits)
    else if Binary64.isInfinite bits then
      if Binary64.isNegative bits then "-inf.0" else "inf.0"
    else "NaN.0"
  | _ => String.ofList (Decimal.write Json.doubleStyle bits)

def numberText (medium : Medium) : Number → String
  | .double bits => "floating point `" ++ doubleText medium bits ++ "`"
  | n => "integer `" ++ String.ofList (Json.numberText n) ++ "`"

/-- What a part is, as messages name it. -/
def describe (medium : Medium) : Json → String
  | .null => "null"
  | .bool b => "boolean `" ++ (if b then "true" else "false") ++ "`"
  | .number n => numberText medium n
  | .string s => "string " ++ Text.quoted s
  | .array _ => "sequence"
  | .object _ => "map"
  | .beyond => "value"

def message (medium : Medium) : DecodeError → String
  | missing field => "missing field `" ++ field ++ "`"
  | repeated field => "duplicate field `" ++ field ++ "`"
  | kind found wanted => "invalid type: " ++ describe medium found ++ ", expected " ++ wanted
  | range found wanted => "invalid value: " ++ numberText medium found ++ ", expected " ++ wanted
  | short length shape fields =>
    "invalid length " ++ Numeral.text length ++ ", expected struct " ++ shape ++ " with " ++
      Numeral.text fields ++ (if fields = 1 then " element" else " elements")
  | long length =>
    match medium with
    | .tree => "invalid length " ++ Numeral.text length ++ ", expected fewer elements in array"
    | _ => "trailing characters"
  | noVariant type => "data did not match any variant of untagged enum " ++ type
  | refused reason => reason
  | beyond => "number out of range"

end DecodeError

/-- A reader of values of a type. -/
abbrev Reader (α : Type) := Medium → Json → Except DecodeError α

namespace Reader

variable {α β : Type}

def string : Reader String
  | _, .string s => .ok s
  | _, j => .error (.kind j "a string")

def path : Reader String
  | _, .string s => .ok s
  | _, j => .error (.kind j "path string")

def bool : Reader Bool
  | _, .bool b => .ok b
  | _, j => .error (.kind j "a boolean")

/-- An integer that `convert` takes, under the name of its range. -/
def integer (wanted : String) (convert : Number → Option α) : Reader α
  | _, .number (.double x) => .error (.kind (.number (.double x)) wanted)
  | _, .number n =>
    match convert n with
    | some a => .ok a
    | none => .error (.range n wanted)
  | _, j => .error (.kind j wanted)

def natural? : Number → Option UInt64
  | .natural n => some n
  | _ => none

def count : Reader UInt64 := integer "u64" natural?

def size : Reader UInt64 := integer "usize" natural?

def word32 : Reader UInt32 :=
  integer "u32" fun n => (natural? n).bind fun m =>
    if m.toNat < UInt32.size then some m.toUInt32 else none

def int32 : Reader Int32 :=
  integer "i32" fun n => n.int?.bind fun i =>
    if -0x80000000 ≤ i ∧ i < 0x80000000 then some (Int32.ofInt i) else none

/-- Null is nothing; all else is something. -/
def optional (read : Reader α) : Reader (Option α)
  | _, .null => .ok none
  | m, j => (read m j).map some

def items (read : Reader α) (m : Medium) : List Json → Except DecodeError (List α)
  | [] => .ok []
  | j :: rest => do return (← read m j) :: (← items read m rest)

def list (read : Reader α) : Reader (List α)
  | m, .array l => items read m l
  | _, j => .error (.kind j "a sequence")

def strings : Reader (List String) := list string

/-- Members in their order, each put into a map; of equal keys the last stays. -/
def members {κ : Type} [Ord κ] [Std.TransOrd κ] [Std.LawfulEqOrd κ]
    (key : String → Except DecodeError κ) (read : Reader α) (m : Medium) :
    SortedMap κ α → List (String × Json) → Except DecodeError (SortedMap κ α)
  | acc, [] => .ok acc
  | acc, (k, j) :: rest => do
    let k ← key k
    let a ← read m j
    members key read m (acc.insert k a) rest

def mapWith {κ : Type} [Ord κ] [Std.TransOrd κ] [Std.LawfulEqOrd κ]
    (key : String → Except DecodeError κ) (read : Reader α) : Reader (SortedMap κ α)
  | m, .object l => members key read m .empty l
  | _, j => .error (.kind j "a map")

def map (read : Reader α) : Reader (SortedMap String α) := mapWith .ok read

mutual

/-- A document without the doubles that no JSON text has. -/
def finite : Json → Json
  | .number (.double x) => if Binary64.isFinite x then .number (.double x) else .null
  | .array l => .array (finiteItems l)
  | .object l => .object (finiteMembers l)
  | .null => .null
  | .bool b => .bool b
  | .number n => .number n
  | .string s => .string s
  | .beyond => .beyond

def finiteItems : List Json → List Json
  | [] => []
  | j :: rest => finite j :: finiteItems rest

def finiteMembers : List (String × Json) → List (String × Json)
  | [] => []
  | (k, j) :: rest => (k, finite j) :: finiteMembers rest

end

/-- Any value at all. -/
def value : Reader Json := fun _ j =>
  match (finite j).value? with
  | some v => .ok v
  | none => .error .beyond

end Reader

/-! ## Records -/

/-- Whether a record can do without a field: never, always, or only when it is an object. -/
inductive Presence
  | required
  | optional
  | named
  deriving DecidableEq

/-- A field of a record: its name, and how to read it into the record. -/
structure Field (α : Type) where
  name : String
  presence : Presence := .optional
  read : Medium → Json → α → Except DecodeError α

/-- The fields of a record in order, and the record that has none of them. -/
structure Shape (α : Type) where
  name : String
  start : α
  fields : List (Field α)

namespace Shape

variable {α β : Type}

/-- A field that a reader fills. -/
def field (name : String) (read : Reader β) (set : α → β → α) (presence : Presence := .optional) :
    Field α where
  name
  presence
  read := fun m j a => (read m j).map (set a)

/-- Read members into a record; the names read so far cannot come again. -/
def readMembers (s : Shape α) (m : Medium) :
    List String → α → List (String × Json) → Except DecodeError (List String × α)
  | seen, a, [] => .ok (seen, a)
  | seen, a, (k, j) :: rest =>
    match s.fields.find? (·.name == k) with
    | none => readMembers s m seen a rest
    | some f =>
      if seen.contains k then .error (.repeated k)
      else
        match f.read m j a with
        | .ok a => readMembers s m (k :: seen) a rest
        | .error e => .error e

/-- The record of an object's members. -/
def ofMembers (s : Shape α) (m : Medium) (l : List (String × Json)) : Except DecodeError α :=
  match readMembers s m [] s.start l with
  | .error e => .error e
  | .ok (seen, a) =>
    match s.fields.find? fun f => f.presence == .required && !seen.contains f.name with
    | some f => .error (.missing f.name)
    | none => .ok a

/-- Read items into the fields from a position on. -/
def readItems (s : Shape α) (m : Medium) (length : Nat) :
    Nat → List (Field α) → α → List Json → Except DecodeError α
  | _, [], a, [] => .ok a
  | _, [], a, _ :: _ => if m = .toml then .ok a else .error (.long length)
  | i, f :: fs, a, [] =>
    if f.presence = .optional then readItems s m length (i + 1) fs a []
    else .error (.short i s.name s.fields.length)
  | i, f :: fs, a, j :: rest =>
    match f.read m j a with
    | .ok a => readItems s m length (i + 1) fs a rest
    | .error e => .error e

/-- The record that an object or an array gives. -/
def reader (s : Shape α) : Reader α
  | m, .object l => s.ofMembers m l
  | m, .array l => s.readItems m l.length 0 s.fields s.start l
  | _, j => .error (.kind j ("struct " ++ s.name))

end Shape

end AnalysisGate
