import AnalysisGate.SortedMap
import AnalysisGate.Text.Blank
import AnalysisGate.Text.Numeral
import AnalysisGate.Json.Decode

/-!
Severities and the tokens that denote them.

A token denotes a severity by its name or an alias, whatever the case of its ASCII letters and
the blanks around it. A floor is written `SEVERITY=COUNT`.
-/
namespace AnalysisGate

/-- The levels that a budget can track, the gravest first. -/
inductive Severity
  | error
  | warning
  | information
  deriving DecidableEq

namespace Severity

/-- The place of a severity in the order of gravity. -/
def rank : Severity → Nat
  | error => 0
  | warning => 1
  | information => 2

instance : Ord Severity := ⟨fun a b => compare a.rank b.rank⟩

instance : Std.TransOrd Severity where
  eq_swap {a b} := by cases a <;> cases b <;> decide
  isLE_trans {a b c} := by cases a <;> cases b <;> cases c <;> decide

instance : Std.LawfulEqOrd Severity where
  compare_self {a} := by cases a <;> decide
  eq_of_compare {a b} := by cases a <;> cases b <;> decide

def all : List Severity := [error, warning, information]

/-- The severities that a budget tracks unless it is told others. -/
def standard : SortedSet Severity := SortedSet.ofList [error, warning]

def name : Severity → String
  | error => "error"
  | warning => "warning"
  | information => "information"

end Severity

/-- A token that denotes no severity. -/
structure SeverityError where
  token : String
  deriving DecidableEq

def SeverityError.message (e : SeverityError) : String :=
  "invalid severity '" ++ e.token ++ "': expected one of error, warning, information"

namespace Severity

/-- The severity that a trimmed and folded token spells. -/
def ofSpelling? (cs : List Char) : Option Severity :=
  let s := String.ofList cs
  if s = "error" ∨ s = "errors" then some error
  else if s = "warning" ∨ s = "warnings" then some warning
  else if s = "information" ∨ s = "info" then some information
  else none

/-- The severity that a token denotes. -/
def ofToken? (token : String) : Option Severity :=
  ofSpelling? (Text.fold (Text.trim token.toList))

def parse (token : String) : Except SeverityError Severity :=
  match ofToken? token with
  | some s => .ok s
  | none => .error ⟨token⟩

/-- The severities that tokens denote, or the first token that denotes none. -/
def parseSet : List String → Except SeverityError (SortedSet Severity)
  | [] => .ok .empty
  | token :: rest => do
    let s ← parse token
    return (← parseSet rest).insert s ()

/-- A severity as a document's token. -/
def key (token : String) : Except DecodeError Severity :=
  (parse token).mapError fun e => .refused e.message

def reader : Reader Severity := fun m j => do key (← Reader.string m j)

end Severity

/-! ## Floors -/

/-- Why a text is no floor. -/
inductive FloorError
  | severity (e : SeverityError)
  | shape (spec : String)
  deriving DecidableEq

/-- A text parted at its first `=`. -/
def splitAtEquals : List Char → Option (List Char × List Char)
  | [] => none
  | c :: rest =>
    if c = '=' then some ([], rest)
    else (splitAtEquals rest).map fun (a, b) => (c :: a, b)

/-- The floor that `SEVERITY=COUNT` states. -/
def parseFloor (spec : String) : Except FloorError (Severity × UInt64) :=
  match splitAtEquals spec.toList with
  | none => .error (.shape spec)
  | some (token, count) =>
    match Severity.parse (String.ofList token) with
    | .error e => .error (.severity e)
    | .ok s =>
      match Numeral.readBelow? UInt64.size (Text.trim count) with
      | some n => .ok (s, UInt64.ofNat n)
      | none => .error (.shape spec)

/-- Counts per severity. -/
abbrev SeverityCounts := SortedMap Severity UInt64

namespace SeverityCounts

/-- The count at a severity, zero where there is none. -/
def count (c : SeverityCounts) (s : Severity) : UInt64 := (c.get? s).getD 0

def toJson (c : SeverityCounts) : Json :=
  .object (c.entries.map fun e => (e.1.name, Json.ofCount e.2))

def reader : Reader SeverityCounts := Reader.mapWith Severity.key Reader.count

end SeverityCounts

end AnalysisGate
