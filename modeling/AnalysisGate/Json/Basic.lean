import AnalysisGate.SortedMap
import AnalysisGate.Decimal.Shortest

/-!
JSON documents.

A document keeps the members of an object in the order and number in which they are written.
The readers of one value per key work on `Json.value?`, which sorts the members of every object
by key and lets the last of equal keys win; `Json.Normal` documents are the ones that this leaves
as they are.
-/
namespace AnalysisGate

/-- A number is a natural below `2 ^ 64`, a negative integer `-(n + 1)` from `-2 ^ 63` on, or a
double, given by its bits. -/
inductive Number
  | natural (n : UInt64)
  | negative (n : Fin 0x8000000000000000)
  | double (bits : UInt64)
  deriving DecidableEq

namespace Number

/-- An integer in the range of the integer kinds. -/
def ofInt? (i : Int) : Option Number :=
  if 0 ≤ i then
    if i < UInt64.size then some (.natural (UInt64.ofNat i.toNat)) else none
  else
    let n := (-i - 1).toNat
    if h : n < 0x8000000000000000 then some (.negative ⟨n, h⟩) else none

/-- The integer that a number of an integer kind stands for. -/
def int? : Number → Option Int
  | natural n => some n.toNat
  | negative n => some (-(n.val : Int) - 1)
  | double _ => none

end Number

/-- A document. `beyond` is a part that is well formed but that stands for no value: a number
beyond every double, a text or key with half a surrogate pair, a container nested too deep. -/
inductive Json
  | null
  | bool (b : Bool)
  | number (n : Number)
  | string (s : String)
  | array (items : List Json)
  | object (members : List (String × Json))
  | beyond

namespace Json

instance : Inhabited Json := ⟨.null⟩

/-! ## Equality -/

mutual

def decEq : (a b : Json) → Decidable (a = b)
  | .null, .null => .isTrue rfl
  | .bool a, .bool b =>
    if h : a = b then .isTrue (h ▸ rfl) else .isFalse (by simpa using h)
  | .number a, .number b =>
    if h : a = b then .isTrue (h ▸ rfl) else .isFalse (by simpa using h)
  | .string a, .string b =>
    if h : a = b then .isTrue (h ▸ rfl) else .isFalse (by simpa using h)
  | .array a, .array b =>
    match decEqItems a b with
    | .isTrue h => .isTrue (h ▸ rfl)
    | .isFalse h => .isFalse (by simpa using h)
  | .object a, .object b =>
    match decEqMembers a b with
    | .isTrue h => .isTrue (h ▸ rfl)
    | .isFalse h => .isFalse (by simpa using h)
  | .beyond, .beyond => .isTrue rfl
  | .null, .bool _ | .null, .number _ | .null, .string _ | .null, .array _ | .null, .object _
  | .null, .beyond | .bool _, .null | .bool _, .number _ | .bool _, .string _ | .bool _, .array _
  | .bool _, .object _ | .bool _, .beyond | .number _, .null | .number _, .bool _
  | .number _, .string _ | .number _, .array _ | .number _, .object _ | .number _, .beyond
  | .string _, .null | .string _, .bool _ | .string _, .number _ | .string _, .array _
  | .string _, .object _ | .string _, .beyond | .array _, .null | .array _, .bool _
  | .array _, .number _ | .array _, .string _ | .array _, .object _ | .array _, .beyond
  | .object _, .null | .object _, .bool _ | .object _, .number _ | .object _, .string _
  | .object _, .array _ | .object _, .beyond | .beyond, .null | .beyond, .bool _
  | .beyond, .number _ | .beyond, .string _ | .beyond, .array _ | .beyond, .object _ =>
    .isFalse (by simp)

def decEqItems : (a b : List Json) → Decidable (a = b)
  | [], [] => .isTrue rfl
  | x :: xs, y :: ys =>
    match decEq x y, decEqItems xs ys with
    | .isTrue h, .isTrue hs => .isTrue (h ▸ hs ▸ rfl)
    | .isFalse h, _ => .isFalse (by simp [h])
    | _, .isFalse hs => .isFalse (by simp [hs])
  | [], _ :: _ | _ :: _, [] => .isFalse (by simp)

def decEqMembers : (a b : List (String × Json)) → Decidable (a = b)
  | [], [] => .isTrue rfl
  | (k, x) :: xs, (k', y) :: ys =>
    if hk : k = k' then
      match decEq x y, decEqMembers xs ys with
      | .isTrue h, .isTrue hs => .isTrue (hk ▸ h ▸ hs ▸ rfl)
      | .isFalse h, _ => .isFalse (by simp [h])
      | _, .isFalse hs => .isFalse (by simp [hs])
    else .isFalse (by simp [hk])
  | [], _ :: _ | _ :: _, [] => .isFalse (by simp)

end

instance : DecidableEq Json := decEq

/-! ## Values -/

mutual

/-- The value that a document stands for, if it stands for one. -/
def value? : Json → Option Json
  | .array items => (valueItems? items).map .array
  | .object members => (valueMembers? members).map fun l => .object (SortedMap.ofList l).entries
  | .beyond => none
  | .null => some .null
  | .bool b => some (.bool b)
  | .number n => some (.number n)
  | .string s => some (.string s)

def valueItems? : List Json → Option (List Json)
  | [] => some []
  | j :: rest => do return (← j.value?) :: (← valueItems? rest)

def valueMembers? : List (String × Json) → Option (List (String × Json))
  | [] => some []
  | (k, j) :: rest => do return (k, ← j.value?) :: (← valueMembers? rest)

end

/-- A document whose objects have each key once, in ascending order, and that stands for a
value. -/
def Normal (j : Json) : Prop := j.value? = some j

/-- An object of the entries of a map. -/
def ofMap {α : Type} (write : α → Json) (m : SortedMap String α) : Json :=
  .object (m.entries.map fun e => (e.1, write e.2))

def ofCount (n : UInt64) : Json := .number (.natural n)

/-- A natural that a document states as a count; one beyond the counts wraps. -/
def ofNat (n : Nat) : Json := .number (.natural (UInt64.ofNat n))

/-- An integer that a document states; one beyond the integer kinds is null. -/
def ofInt (i : Int) : Json :=
  match Number.ofInt? i with
  | some n => .number n
  | none => .null

def ofOption {α : Type} (write : α → Json) : Option α → Json
  | none => .null
  | some a => write a

def ofStrings (l : List String) : Json := .array (l.map .string)

/-- The member of an object at a key; of equal keys the last. -/
def get? (j : Json) (key : String) : Option Json :=
  match j with
  | .object members => (members.reverse.find? (·.1 == key)).map (·.2)
  | _ => none

end Json

end AnalysisGate
