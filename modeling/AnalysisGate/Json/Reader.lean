import AnalysisGate.Json.Basic

/-!
Reading JSON text.

`Json.read?` reads a whole text as one document, or refuses it. What is well formed but stands
for no value is read as `Json.beyond`, so that a reader of one part of a document can pass over
such a part elsewhere, and `Json.readValue?` refuses a text in which any part is such.
-/
namespace AnalysisGate.Json

/-- Containers may nest this deep in a value. -/
def nestingLimit : Nat := 127

def isSpace (c : Char) : Bool := c == ' ' || c == '\n' || c == '\t' || c == '\r'

def skip (cs : List Char) : List Char := cs.dropWhile isSpace

/-! ## Numbers -/

/-- A numeral as it is written. -/
structure Spelling where
  negative : Bool
  whole : List Char
  fraction : Option (List Char)
  exponent : Option (Bool × List Char)

/-- The digits that a text starts with, and the rest. -/
def digitRun (cs : List Char) : List Char × List Char :=
  (cs.takeWhile Numeral.isDigit, cs.dropWhile Numeral.isDigit)

/-- A point and one or more digits, if the text starts with a point. -/
def fraction? : List Char → Option (Option (List Char) × List Char)
  | '.' :: r =>
    let (ds, rest) := digitRun r
    if ds.isEmpty then none else some (some ds, rest)
  | cs => some (none, cs)

/-- The digits of a power of ten, with its sign. -/
def power? (negative : Bool) (cs : List Char) : Option (Option (Bool × List Char) × List Char) :=
  let (ds, rest) := digitRun cs
  if ds.isEmpty then none else some (some (negative, ds), rest)

/-- A power of ten, if the text starts with its letter. -/
def exponent? : List Char → Option (Option (Bool × List Char) × List Char)
  | 'e' :: '-' :: r | 'E' :: '-' :: r => power? true r
  | 'e' :: '+' :: r | 'E' :: '+' :: r => power? false r
  | 'e' :: r | 'E' :: r => power? false r
  | cs => some (none, cs)

/-- A numeral: the whole part has no leading zero. -/
def spelling? (cs : List Char) : Option (Spelling × List Char) := do
  let (negative, body) := match cs with
    | '-' :: r => (true, r)
    | _ => (false, cs)
  let (whole, rest) := digitRun body
  if whole.isEmpty || (whole.length > 1 && whole.head? == some '0') then none
  else
    let (fraction, rest) ← fraction? rest
    let (exponent, rest) ← exponent? rest
    return ({ negative, whole, fraction, exponent }, rest)

/-- Take digits into a significand while it stays below `2 ^ 64`; the digits not taken are left. -/
def accumulate (significand : Nat) : List Char → Nat × List Char
  | [] => (significand, [])
  | c :: rest =>
    let next := 10 * significand + Numeral.worth c
    if next < UInt64.size then accumulate next rest else (significand, c :: rest)

/-- A double times a power of ten. The power is a double itself, so a product or quotient is
rounded once more; a power below `10⁻³⁰⁸` is divided out in steps. -/
def scale (x : UInt64) (e : Int) : Option UInt64 :=
  if e.natAbs ≤ 308 then
    if 0 ≤ e then
      let y := Binary64.mul x (Binary64.ofDecimal 1 e)
      if Binary64.isFinite y then some y else none
    else some (Binary64.div x (Binary64.ofDecimal 1 (-e)))
  else if Binary64.isZero x then some x
  else if 0 ≤ e then none
  else scale (Binary64.div x (Binary64.ofDecimal 1 308)) (e + 308)
termination_by (-e).toNat
decreasing_by omega

/-- The largest power of ten that is counted; a larger one is as good as infinite. -/
def exponentLimit : Nat := 0x7fffffff

/-- The magnitude of a numeral that is a double. -/
def Spelling.double? (n : Spelling) : Option UInt64 :=
  let (s, left) := accumulate 0 n.whole
  let after := n.fraction.getD []
  let (s, unread) := accumulate s after
  let e : Int := (left.length : Int) - ((after.length : Int) - unread.length)
  match n.exponent with
  | none => scale (Binary64.ofNat s) e
  | some (negative, ds) =>
    let power := Numeral.value ds
    if exponentLimit < power then
      if s ≠ 0 && !negative then none else some 0
    else scale (Binary64.ofNat s) (if negative then e - power else e + power)

/-- The number that a numeral stands for, if it is in the range of doubles. A numeral without
point and power is an integer where it fits; minus zero is a double. -/
def Spelling.number? (n : Spelling) : Option Number :=
  let double := n.double?.map fun x => .double (if n.negative then Binary64.negate x else x)
  match n.fraction, n.exponent with
  | none, none =>
    let m := Numeral.value n.whole
    if n.negative && m = 0 then double
    else (Number.ofInt? (if n.negative then -(m : Int) else m)).or double
  | _, _ => double

/-! ## Texts -/

/-- Four hexadecimal digits. -/
def unit? (a b c d : Char) : Option Nat := Numeral.hexValue? [a, b, c, d]

/-- The character after a backslash that stands for a single character. -/
def escaped? (c : Char) : Option Char :=
  if c = '"' || c = '\\' || c = '/' then some c
  else if c = 'b' then some '\x08'
  else if c = 'f' then some '\x0c'
  else if c = 'n' then some '\n'
  else if c = 'r' then some '\r'
  else if c = 't' then some '\t'
  else none

/-- The character of a pair of surrogates. -/
def pair (high low : Nat) : Char := Char.ofNat (0x10000 + (high - 0xd800) * 0x400 + (low - 0xdc00))

def isHigh (u : Nat) : Bool := 0xd800 ≤ u && u < 0xdc00

def isLow (u : Nat) : Bool := 0xdc00 ≤ u && u < 0xe000

/-- A piece of a text: a character, or a 16-bit unit that an escape gives. -/
inductive Piece
  | char (c : Char)
  | unit (u : Nat)

/-- The pieces up to the closing quote, and what follows it. -/
def pieces? : List Char → Option (List Piece × List Char)
  | [] => none
  | '"' :: r => some ([], r)
  | '\\' :: 'u' :: a :: b :: c :: d :: r =>
    match unit? a b c d with
    | some u => (pieces? r).map fun (l, rest) => (.unit u :: l, rest)
    | none => none
  | '\\' :: e :: r =>
    match escaped? e with
    | some c => (pieces? r).map fun (l, rest) => (.char c :: l, rest)
    | none => none
  | c :: r =>
    if c.toNat < 0x20 then none
    else (pieces? r).map fun (l, rest) => (.char c :: l, rest)

/-- The characters that pieces stand for: two units of a surrogate pair give one, and half a
pair stands for none. -/
def join? : List Piece → Option (List Char)
  | [] => some []
  | .char c :: r => (join? r).map (c :: ·)
  | .unit u :: .unit u' :: r =>
    if isHigh u && isLow u' then (join? r).map (pair u u' :: ·)
    else if isHigh u || isLow u then none
    else (join? (.unit u' :: r)).map (Char.ofNat u :: ·)
  | .unit u :: r => if isHigh u || isLow u then none else (join? r).map (Char.ofNat u :: ·)

/-- A text up to its closing quote, and what follows it; no text where half a surrogate pair
stands alone. -/
def text? (cs : List Char) : Option (Option String × List Char) :=
  (pieces? cs).map fun (l, rest) => ((join? l).map String.ofList, rest)

/-! ## Documents -/

/-- A container at a depth, if values may nest so deep. -/
def nested (depth : Nat) (j : Json) : Json := if depth ≤ nestingLimit then j else .beyond

/-- The rest of a text that starts with a word. -/
def word? (word cs : List Char) : Option (List Char) :=
  if word.isPrefixOf cs then some (cs.drop word.length) else none

/-- A scalar that is not a text. -/
def scalar? (cs : List Char) : Option (Json × List Char) :=
  match word? "null".toList cs with
  | some r => some (.null, r)
  | none =>
    match word? "true".toList cs with
    | some r => some (.bool true, r)
    | none =>
      match word? "false".toList cs with
      | some r => some (.bool false, r)
      | none =>
        (spelling? cs).map fun (n, r) =>
          (match n.number? with
            | some x => .number x
            | none => .beyond, r)

mutual

/-- A document at a depth, and what follows it. The fuel bounds the steps. -/
def document? : Nat → Nat → List Char → Option (Json × List Char)
  | 0, _, _ => none
  | fuel + 1, depth, cs =>
    match skip cs with
    | '"' :: r => (text? r).map fun (s, rest) =>
      (match s with
        | some s => .string s
        | none => .beyond, rest)
    | '[' :: r =>
      match skip r with
      | ']' :: rest => some (nested depth (.array []), rest)
      | r => (items? fuel (depth + 1) r).map fun (l, rest) => (nested depth (.array l), rest)
    | '\x7b' :: r =>
      match skip r with
      | '\x7d' :: rest => some (nested depth (.object []), rest)
      | r => (members? fuel (depth + 1) r).map fun (l, rest) =>
        (match l with
          | some l => nested depth (.object l)
          | none => .beyond, rest)
    | r => scalar? r

/-- The items up to the end of an array. -/
def items? : Nat → Nat → List Char → Option (List Json × List Char)
  | 0, _, _ => none
  | fuel + 1, depth, cs => do
    let (j, r) ← document? fuel depth cs
    match skip r with
    | ',' :: r => (items? fuel depth r).map fun (l, rest) => (j :: l, rest)
    | ']' :: rest => some ([j], rest)
    | _ => none

/-- The members up to the end of an object; none of them where a key is no text. -/
def members? : Nat → Nat → List Char → Option (Option (List (String × Json)) × List Char)
  | 0, _, _ => none
  | fuel + 1, depth, cs =>
    match skip cs with
    | '"' :: r => do
      let (key, r) ← text? r
      match skip r with
      | ':' :: r => do
        let (j, r) ← document? fuel depth r
        let member := key.map fun k => (k, j)
        match skip r with
        | ',' :: r => (members? fuel depth r).map fun (l, rest) =>
          (do return (← member) :: (← l), rest)
        | '\x7d' :: rest => some (member.map ([·]), rest)
        | _ => none
      | _ => none
    | _ => none

end

/-- The document that a whole text is. -/
def read? (cs : List Char) : Option Json :=
  match document? (2 * cs.length + 2) 1 cs with
  | some (j, rest) => if (skip rest).isEmpty then some j else none
  | none => none

/-- The value that a whole text is. -/
def readValue? (cs : List Char) : Option Json := (read? cs).bind value?

end AnalysisGate.Json
