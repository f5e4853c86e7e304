import AnalysisGate.Json.Decode
import AnalysisGate.Json.Reader

/-!
What is wrong with a text.

A text is read from its start, and what it is asked for is asked part by part, so the first thing
that is wrong is told, be it a character out of place or a part of the wrong kind. `Sketch` says
what is asked for, and `Sketch.fault` what is wrong. A part that nobody asks for is passed over: it
has to be well formed, but it may nest as deep and have as large numbers as it likes, and its texts
may have half a surrogate pair. Where in the text a fault is, its line and column, is not told.
-/
namespace AnalysisGate.Json

/-- What is wrong with a text. -/
inductive Fault
  | endOfList
  | endOfObject
  | endOfText
  | endOfValue
  /-- A key without a colon after it. -/
  | colon
  /-- An item that neither a comma nor the end of its list follows. -/
  | listEnd
  /-- A member that neither a comma nor the end of its object follows. -/
  | objectEnd
  /-- A word that starts like one of the three that there are. -/
  | word
  | value
  | escape
  | number
  /-- A number beyond every double. -/
  | range
  /-- A control character in a text. -/
  | control
  | key
  /-- The second half of a surrogate pair alone, or something else in its place. -/
  | surrogate
  /-- The first half of a surrogate pair without an escape after it. -/
  | half
  | trailingComma
  | trailing
  /-- A container that nests too deep. -/
  | depth
  /-- A part that is not what is asked for. -/
  | unfit (e : DecodeError)

def Fault.message : Fault → String
  | endOfList => "EOF while parsing a list"
  | endOfObject => "EOF while parsing an object"
  | endOfText => "EOF while parsing a string"
  | endOfValue => "EOF while parsing a value"
  | colon => "expected `:`"
  | listEnd => "expected `,` or `]`"
  | objectEnd => "expected `,` or `\x7d`"
  | word => "expected ident"
  | value => "expected value"
  | escape => "invalid escape"
  | number => "invalid number"
  | range => "number out of range"
  | control => "control character (\\u0000-\\u001F) found while parsing a string"
  | key => "key must be a string"
  | surrogate => "lone leading surrogate in hex escape"
  | half => "unexpected end of hex escape"
  | trailingComma => "trailing comma"
  | trailing => "trailing characters"
  | depth => "recursion limit exceeded"
  | unfit e => e.message .stream

/-! ## Texts, words and numerals

The readers of these parts refuse them without a word; here is what they refuse them for. A part
that is passed over is held to less: `strict` is false for it.
-/

/-- What is wrong with the four digits of an escape. They are counted in bytes. -/
def digitsFault (cs : List Char) : Fault :=
  if (String.ofList cs).utf8ByteSize < 4 then .endOfText else .escape

/-- What is wrong after the first half of a surrogate pair, if no second half follows. -/
def pairFault : List Char → Fault
  | [] | ['\\'] => .endOfText
  | '\\' :: 'u' :: a :: b :: c :: d :: r =>
    if (unit? a b c d).isSome then .surrogate else digitsFault (a :: b :: c :: d :: r)
  | '\\' :: 'u' :: r => digitsFault r
  | _ => .half

/-- What is wrong with a text after its opening quote. -/
def textFault (strict : Bool) : List Char → Fault
  | '\\' :: 'u' :: a :: b :: c :: d :: r =>
    match unit? a b c d with
    | none => digitsFault (a :: b :: c :: d :: r)
    | some u =>
      if strict && isLow u then .surrogate
      else if strict && isHigh u then
        match r with
        | '\\' :: 'u' :: a :: b :: c :: d :: r' =>
          match unit? a b c d with
          | some u' => if isLow u' then textFault strict r' else pairFault r
          | none => pairFault r
        | r => pairFault r
      else textFault strict r
  | '\\' :: 'u' :: r => digitsFault r
  | '\\' :: e :: r => if (escaped? e).isSome then textFault strict r else .escape
  | c :: r =>
    if c = '\\' then .endOfText else if c.toNat < 0x20 then .control else textFault strict r
  | [] => .endOfText

/-- What is wrong with a word. -/
def wordFault (word cs : List Char) : Fault := if cs.isPrefixOf word then .endOfValue else .word

/-- Where a power of ten lacks a digit. -/
def powerGap : List Char → List Char
  | _ :: '-' :: r | _ :: '+' :: r | _ :: r => r
  | [] => []

/-- Where a numeral lacks a digit, or has one after a leading zero. -/
def numeralGap (cs : List Char) : List Char :=
  let body := match cs with
    | '-' :: r => r
    | _ => cs
  let (whole, rest) := digitRun body
  if whole.isEmpty || (whole.length > 1 && whole.head? == some '0') then body
  else
    match rest with
    | '.' :: r =>
      let (ds, rest) := digitRun r
      if ds.isEmpty then r else powerGap rest
    | r => powerGap r

/-- What is wrong with a numeral. -/
def numeralFault (strict : Bool) (cs : List Char) : Fault :=
  if (spelling? cs).isSome then .range
  else if strict && (numeralGap cs).isEmpty then .endOfValue
  else .number

/-- What is wrong with a part that is no container. -/
def scalarFault (strict : Bool) : List Char → Fault
  | [] => .endOfValue
  | '"' :: r => textFault strict r
  | 'n' :: r => wordFault "null".toList ('n' :: r)
  | 't' :: r => wordFault "true".toList ('t' :: r)
  | 'f' :: r => wordFault "false".toList ('f' :: r)
  | c :: r =>
    if c = '-' || Numeral.isDigit c then numeralFault strict (c :: r) else .value

/-- A part that is no container, and what follows it. -/
def scalarPart? (cs : List Char) : Option (Json × List Char) :=
  match cs with
  | '"' :: r => (text? r).map fun (s, rest) =>
    (match s with
      | some s => .string s
      | none => .beyond, rest)
  | r => scalar? r

/-- Pass a part that is no container. -/
def passScalar (strict : Bool) (cs : List Char) : Except Fault (Json × List Char) :=
  match scalarPart? cs with
  | some (j, rest) =>
    if strict && j = .beyond then .error (scalarFault strict cs) else .ok (j, rest)
  | none => .error (scalarFault strict cs)

/-- Pass the key of a member after its opening quote. -/
def passKey (strict : Bool) (cs : List Char) : Except Fault (String × List Char) :=
  match text? cs with
  | some (some key, rest) => .ok (key, rest)
  | some (none, rest) => if strict then .error (textFault strict cs) else .ok ("", rest)
  | none => .error (textFault strict cs)

/-! ## What is asked for -/

/-- What is asked for of a part. -/
inductive Sketch
  /-- Nothing: the part is passed over. -/
  | passed
  /-- A value of any kind. -/
  | value
  /-- A part that is no container, and what is wrong with one. -/
  | scalar (refuse : Json → Option DecodeError)
  /-- A part that may be null. -/
  | optional (part : Sketch)
  | list (item : Sketch)
  /-- A record. One that is open keeps members of other names, and is written as an object. -/
  | record (name : String) (isOpen : Bool) (fields : List (String × Presence × Sketch))

/-- Why a text is refused. `isDocument` says whether it is a document of a value all the same. -/
structure Refusal where
  message : String
  isDocument : Bool

namespace Sketch

/-- A part that is read as a scalar. -/
def ofReader {α : Type} (read : Reader α) : Sketch :=
  .scalar fun j =>
    match read .stream j with
    | .ok _ => none
    | .error e => some e

/-- What is asked for of a part that is not null. -/
def present : Sketch → Sketch
  | optional part => part.present
  | s => s

def isStrict : Sketch → Bool
  | passed => false
  | optional part => part.isStrict
  | _ => true

/-- What is wrong with the kind of a part. -/
def refuse : Sketch → Json → Option DecodeError
  | passed, _ | value, _ => none
  | scalar refuse, j => refuse j
  | optional _, .null => none
  | optional part, j => part.refuse j
  | list _, .array _ => none
  | list _, j => some (.kind j "a sequence")
  | record .., .object _ | record _ false _, .array _ => none
  | record name _ _, j => some (.kind j ("struct " ++ name))

/-- What is asked for of the item at a position, if there may be one. -/
def item? : Sketch → Nat → Option Sketch
  | passed, _ => some .passed
  | list item, _ => some item
  | record _ _ fields, i => fields[i]?.map fun f => f.2.2
  | _, _ => some .value

/-- What is wrong with a list that ends before a position. -/
def shortAt : Sketch → Nat → Option DecodeError
  | record name _ fields, i =>
    ((fields.zipIdx.drop i).find? fun f => f.1.2.1 ≠ .optional).map fun f =>
      .short f.2 name fields.length
  | _, _ => none

/-- What is asked for of a member, after members of the names in `seen`. -/
def member (s : Sketch) (seen : List String) (key : String) : Except DecodeError Sketch :=
  match s with
  | passed => .ok .passed
  | record _ isOpen fields =>
    match fields.find? (·.1 == key) with
    | some f => if seen.contains key then .error (.repeated key) else .ok f.2.2
    | none => .ok (if isOpen then .value else .passed)
  | _ => .ok .value

/-- What is wrong with an object of members of the names in `seen`. -/
def missing? (s : Sketch) (seen : List String) : Option DecodeError :=
  match s with
  | record _ _ fields =>
    (fields.find? fun f => f.2.1 == .required && !seen.contains f.1).map fun f => .missing f.1
  | _ => none

/-! ## Reading as it comes -/

/-- What follows a part, unless something is wrong with it. -/
def finish (e : Option DecodeError) (rest : List Char) : Except Fault (List Char) :=
  match e with
  | some e => .error (.unfit e)
  | none => .ok rest

/-- Enter a container at a depth. -/
def enter (s : Sketch) (depth : Nat) (empty : Json) (rest : List Char) :
    Except Fault (List Char) :=
  match s.refuse empty with
  | some e => .error (.unfit e)
  | none => if s.isStrict && nestingLimit < depth then .error .depth else .ok rest

mutual

/-- What follows a part of a text at a depth. The fuel bounds the steps. -/
def pass : Nat → Nat → Sketch → List Char → Except Fault (List Char)
  | 0, _, _, _ => .error .endOfValue
  | fuel + 1, depth, s, cs =>
    match skip cs with
    | '[' :: r => do
      let r ← s.enter depth (.array []) r
      match skip r with
      | [] => .error .endOfList
      | ']' :: rest => finish (s.present.shortAt 0) rest
      | r => passItems fuel (depth + 1) s.present 0 r
    | '\x7b' :: r => do
      let r ← s.enter depth (.object []) r
      match skip r with
      | [] => .error .endOfObject
      | '\x7d' :: rest => finish (s.present.missing? []) rest
      | r => passMembers fuel (depth + 1) s.present [] r
    | r => do
      let (j, rest) ← passScalar s.isStrict r
      finish (s.refuse j) rest

/-- What follows a list, of which the items from a position on are left. -/
def passItems : Nat → Nat → Sketch → Nat → List Char → Except Fault (List Char)
  | 0, _, _, _, _ => .error .endOfValue
  | fuel + 1, depth, s, i, cs =>
    match s.item? i with
    | none => .error .trailing
    | some item => do
      let r ← pass fuel depth item cs
      match skip r with
      | [] => .error .endOfList
      | ',' :: r =>
        match skip r with
        | ']' :: _ => .error (if s.isStrict then .trailingComma else .value)
        | r => passItems fuel depth s (i + 1) r
      | ']' :: rest => finish (s.shortAt (i + 1)) rest
      | _ => .error (if (s.item? (i + 1)).isSome then .listEnd else .trailing)

/-- What follows an object, after members of the names in `seen`. -/
def passMembers : Nat → Nat → Sketch → List String → List Char → Except Fault (List Char)
  | 0, _, _, _, _ => .error .endOfValue
  | fuel + 1, depth, s, seen, cs =>
    match cs with
    | '"' :: r => do
      let (key, r) ← passKey s.isStrict r
      let part ← (s.member seen key).mapError .unfit
      match skip r with
      | [] => .error .endOfObject
      | ':' :: r => do
        let r ← pass fuel depth part r
        match skip r with
        | [] => .error .endOfObject
        | ',' :: r =>
          match skip r with
          | [] => .error (if s.isStrict then .endOfValue else .endOfObject)
          | '\x7d' :: _ => .error (if s.isStrict then .trailingComma else .key)
          | r => passMembers fuel depth s (key :: seen) r
        | '\x7d' :: rest => finish (s.missing? (key :: seen)) rest
        | _ => .error .objectEnd
      | _ => .error .colon
    | _ => .error .key

end

/-- What is wrong with a whole text, where it is not what is asked for. -/
def fault (s : Sketch) (cs : List Char) : Fault :=
  match s.pass (2 * cs.length + 2) 1 cs with
  | .ok _ => .trailing
  | .error e => e

end Sketch

/-- Why a text is refused that is not what is asked for. -/
def refusal (s : Sketch) (text : String) : Refusal :=
  ⟨(s.fault text.toList).message, (readValue? text.toList).isSome⟩

end AnalysisGate.Json

namespace AnalysisGate

/-- What a record asks of its parts: of those that are given what is given, and of the others that
they are read as scalars. -/
def Shape.sketch {α : Type} (s : Shape α) (parts : List (String × Json.Sketch)) : Json.Sketch :=
  .record s.name false <| s.fields.map fun f =>
    (f.name, f.presence,
      match parts.find? (·.1 == f.name) with
      | some part => part.2
      | none => .ofReader fun m j => f.read m j s.start)

end AnalysisGate
