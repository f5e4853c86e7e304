import AnalysisGate.Toml.Scalar
import AnalysisGate.Toml.Table

/-!
Reading TOML text.

`Toml.read?` reads a whole text as one object, whose members stand in the order in which the text
first names them, or refuses it. Arrays run over lines; an inline table stays on its line and
takes no comma after its last member.
-/
namespace AnalysisGate.Toml

/-- The table of the members of an inline table, in their order. -/
def inline? : Members → List (List String × Json) → Option Members
  | t, [] => some t
  | t, (key, j) :: rest => do
    let (path, last) := Draft.splitKey key
    inline? (← t.assign? last j path) rest

/-- The rest of a text that starts with a word. -/
def word? (word : List Char) (j : Json) (cs : List Char) : Option (Json × List Char) :=
  if word.isPrefixOf cs then some (j, cs.drop word.length) else none

/-- A value that holds no others. -/
def scalar? (cs : List Char) : Option (Json × List Char) :=
  match cs with
  | '"' :: _ | '\'' :: _ => (text? cs).map fun (s, rest) => (.string s, rest)
  | 't' :: _ => word? ['t', 'r', 'u', 'e'] (.bool true) cs
  | 'f' :: _ => word? ['f', 'a', 'l', 's', 'e'] (.bool false) cs
  | 'i' :: _ | 'n' :: _ => named? cs
  | _ => numeric? cs

/-- Blanks, lines and comments, as far as they go. -/
def skipAll (cs : List Char) : List Char := skipLines cs.length cs

mutual

/-- A value that stands in `depth` others. The fuel bounds the steps. -/
def value? : Nat → Nat → List Char → Option (Json × List Char)
  | 0, _, _ => none
  | fuel + 1, depth, cs =>
    match cs with
    | '[' :: r =>
      if nestingLimit ≤ depth + 1 then none
      else (items? fuel (depth + 1) r).map fun (l, rest) => (.array l, rest)
    | '\x7b' :: r =>
      if nestingLimit ≤ depth + 1 then none
      else
        match skipSpaces r with
        | '\x7d' :: rest => some (.object [], rest)
        | _ => do
          let (l, rest) ← pairs? fuel (depth + 1) r
          return (.object (membersToJson (← inline? [] l)), rest)
    | _ => scalar? cs

/-- The items up to the end of an array. -/
def items? : Nat → Nat → List Char → Option (List Json × List Char)
  | 0, _, _ => none
  | fuel + 1, depth, cs =>
    match skipAll cs with
    | ']' :: rest => some ([], rest)
    | r => do
      let (j, r) ← value? fuel depth r
      match skipAll r with
      | ',' :: r => (items? fuel depth r).map fun (l, rest) => (j :: l, rest)
      | ']' :: rest => some ([j], rest)
      | _ => none

/-- The members up to the end of an inline table. -/
def pairs? : Nat → Nat → List Char → Option (List (List String × Json) × List Char)
  | 0, _, _ => none
  | fuel + 1, depth, cs => do
    let (key, r) ← key? cs
    match r with
    | '=' :: r => do
      let (j, r) ← value? fuel depth (skipSpaces r)
      match skipSpaces r with
      | ',' :: r => (pairs? fuel depth r).map fun (l, rest) => ((key, j) :: l, rest)
      | '\x7d' :: rest => some ([(key, j)], rest)
      | _ => none
    | _ => none

end

/-- A line that gives a key a value. -/
def assignment? (d : Draft) (cs : List Char) : Option (Draft × List Char) := do
  let (key, r) ← key? cs
  match r with
  | '=' :: r => do
    let (j, r) ← value? (2 * r.length + 2) 0 (skipSpaces r)
    let rest ← restOfLine? r
    return (← d.assign? key j, rest)
  | _ => none

/-- A header line. -/
def header? (d : Draft) (cs : List Char) : Option (Draft × List Char) :=
  match cs with
  | '[' :: '[' :: r => do
    let (key, r) ← key? r
    match r with
    | ']' :: ']' :: r => do
      let rest ← restOfLine? r
      return (← d.item? key, rest)
    | _ => none
  | '[' :: r => do
    let (key, r) ← key? r
    match r with
    | ']' :: r => do
      let rest ← restOfLine? r
      return (← d.table? key, rest)
    | _ => none
  | _ => none

/-- The lines of a text. The fuel bounds their number. -/
def lines? : Nat → Draft → List Char → Option Draft
  | 0, _, _ => none
  | fuel + 1, d, cs =>
    match skipSpaces cs with
    | [] => some d
    | '[' :: r => do
      let (d, rest) ← header? d ('[' :: r)
      lines? fuel d rest
    | c :: r =>
      if c = '#' ∨ c = '\n' ∨ c = '\r' then do
        lines? fuel d (← restOfLine? (c :: r))
      else do
        let (d, rest) ← assignment? d (c :: r)
        lines? fuel d rest

/-- The mark that a text may start with. -/
def dropMark : List Char → List Char
  | '\ufeff' :: r => r
  | cs => cs

/-- The object that a whole text is. -/
def read? (s : String) : Option Json := do
  let cs := dropMark s.toList
  let d ← lines? (cs.length + 1) .start cs
  return .object (membersToJson (← d.finish?))

end AnalysisGate.Toml
