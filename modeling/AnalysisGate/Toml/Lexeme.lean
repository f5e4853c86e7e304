import AnalysisGate.Text.Numeral

/-!
Blanks, comments, texts and keys of TOML.

A scanner takes what it reads from the front of a text and gives the rest with it; `none` refuses
the text. A text between single quotes is taken as it stands, one between double quotes with
escapes; three quotes let it run over lines, whose ends then count as one line feed.
-/
namespace AnalysisGate.Toml

/-! ## Blanks -/

def isSpace (c : Char) : Bool := c == ' ' || c == '\t'

def skipSpaces (cs : List Char) : List Char := cs.dropWhile isSpace

/-- What follows the end of a line, if the text starts with one. -/
def lineEnd? : List Char → Option (List Char)
  | '\n' :: r => some r
  | '\r' :: '\n' :: r => some r
  | _ => none

/-- A character that texts and comments can hold as it is. -/
def isPlain (c : Char) : Bool := c == '\t' || (0x20 ≤ c.toNat && c.toNat ≠ 0x7f)

/-- What follows a comment, if the text starts with one. -/
def skipComment : List Char → List Char
  | '#' :: r => r.dropWhile isPlain
  | cs => cs

/-- What follows the rest of a line that holds nothing more than a comment. -/
def restOfLine? (cs : List Char) : Option (List Char) :=
  match skipComment (skipSpaces cs) with
  | [] => some []
  | r => lineEnd? r

/-- What follows blanks, lines and comments. The fuel bounds their number. -/
def skipLines : Nat → List Char → List Char
  | 0, cs => cs
  | fuel + 1, cs =>
    match cs with
    | ' ' :: r | '\t' :: r => skipLines fuel r
    | '#' :: r => skipLines fuel (r.dropWhile isPlain)
    | _ =>
      match lineEnd? cs with
      | some r => skipLines fuel r
      | none => cs

/-! ## Texts -/

/-- The character with a code, if there is one. -/
def character? (n : Nat) : Option Char := if n.isValidChar then some (Char.ofNat n) else none

/-- The character of a given number of hexadecimal digits. -/
def coded? (digits : Nat) (cs : List Char) : Option (Char × List Char) := do
  let ds := cs.take digits
  if ds.length ≠ digits then none
  else return (← character? (← Numeral.hexValue? ds), cs.drop digits)

/-- The character that follows a backslash. -/
def escaped? : List Char → Option (Char × List Char)
  | 'b' :: r => some ('\x08', r)
  | 't' :: r => some ('\t', r)
  | 'n' :: r => some ('\n', r)
  | 'f' :: r => some ('\x0c', r)
  | 'r' :: r => some ('\r', r)
  | '"' :: r => some ('"', r)
  | '\\' :: r => some ('\\', r)
  | 'u' :: r => coded? 4 r
  | 'U' :: r => coded? 8 r
  | _ => none

/-- What follows a backslash that ends a line: the blanks and line ends after it. -/
def continued? (cs : List Char) : Option (List Char) := do
  let rest ← lineEnd? (skipSpaces cs)
  return blankLines rest.length rest
where
  /-- What follows blanks and line ends. -/
  blankLines : Nat → List Char → List Char
    | 0, cs => cs
    | fuel + 1, cs =>
      match cs with
      | ' ' :: r | '\t' :: r => blankLines fuel r
      | _ =>
        match lineEnd? cs with
        | some r => blankLines fuel r
        | none => cs

/-- A text on one line, up to its closing quote. -/
def basic : Nat → List Char → Option (List Char × List Char)
  | 0, _ => none
  | fuel + 1, cs =>
    match cs with
    | '"' :: r => some ([], r)
    | '\\' :: r => do
      let (c, r) ← escaped? r
      (basic fuel r).map fun (l, rest) => (c :: l, rest)
    | c :: r => if isPlain c then (basic fuel r).map fun (l, rest) => (c :: l, rest) else none
    | [] => none

/-- The end of a text over lines: three quotes, of which up to two more may belong to the text. -/
def closing? (quote : Char) (cs : List Char) : Option (List Char × List Char) :=
  let run := (cs.take 5).takeWhile (· == quote)
  if 3 ≤ run.length then some (run.drop 3, cs.drop run.length) else none

/-- A text over lines, up to its closing quotes. -/
def basicLines : Nat → List Char → Option (List Char × List Char)
  | 0, _ => none
  | fuel + 1, cs =>
    match closing? '"' cs with
    | some found => some found
    | none =>
      match cs with
      | [] => none
      | '\\' :: r =>
        match continued? r with
        | some r => basicLines fuel r
        | none => do
          let (c, r) ← escaped? r
          (basicLines fuel r).map fun (l, rest) => (c :: l, rest)
      | c :: r =>
        match lineEnd? (c :: r) with
        | some r => (basicLines fuel r).map fun (l, rest) => ('\n' :: l, rest)
        | none =>
          if isPlain c then (basicLines fuel r).map fun (l, rest) => (c :: l, rest) else none

/-- A literal text, up to its closing quote. -/
def literal (cs : List Char) : Option (List Char × List Char) :=
  let body := cs.takeWhile fun c => isPlain c && c != '\''
  match cs.drop body.length with
  | '\'' :: rest => some (body, rest)
  | _ => none

/-- A literal text over lines, up to its closing quotes. -/
def literalLines : Nat → List Char → Option (List Char × List Char)
  | 0, _ => none
  | fuel + 1, cs =>
    match closing? '\'' cs with
    | some found => some found
    | none =>
      match cs with
      | [] => none
      | c :: r =>
        match lineEnd? (c :: r) with
        | some r => (literalLines fuel r).map fun (l, rest) => ('\n' :: l, rest)
        | none =>
          if isPlain c then (literalLines fuel r).map fun (l, rest) => (c :: l, rest) else none

/-- A text without the line end that it starts with. -/
def dropLineEnd (cs : List Char) : List Char := (lineEnd? cs).getD cs

/-- A text of any kind, from its opening quote on. -/
def text? (cs : List Char) : Option (String × List Char) :=
  let fuel := cs.length + 1
  let found := match cs with
    | '"' :: '"' :: '"' :: r => basicLines fuel (dropLineEnd r)
    | '"' :: r => basic fuel r
    | '\'' :: '\'' :: '\'' :: r => literalLines fuel (dropLineEnd r)
    | '\'' :: r => literal r
    | _ => none
  found.map fun (l, rest) => (String.ofList l, rest)

/-! ## Keys -/

/-- A character of a key without quotes. -/
def isBare (c : Char) : Bool :=
  Numeral.isDigit c || ('a' ≤ c && c ≤ 'z') || ('A' ≤ c && c ≤ 'Z') || c == '-' || c == '_'

/-- One part of a key. -/
def keyPart? (cs : List Char) : Option (String × List Char) :=
  match cs with
  | '"' :: r => (basic (r.length + 1) r).map fun (l, rest) => (String.ofList l, rest)
  | '\'' :: r => (literal r).map fun (l, rest) => (String.ofList l, rest)
  | _ =>
    let run := cs.takeWhile isBare
    if run.isEmpty then none else some (String.ofList run, cs.drop run.length)

/-- The parts of a key, with blanks around them. -/
def keyParts : Nat → List Char → Option (List String × List Char)
  | 0, _ => none
  | fuel + 1, cs => do
    let (k, rest) ← keyPart? (skipSpaces cs)
    match skipSpaces rest with
    | '.' :: r => (keyParts fuel r).map fun (l, rest) => (k :: l, rest)
    | r => return ([k], r)

/-- Keys have fewer parts than this, and values nest less deep. -/
def nestingLimit : Nat := 80

def key? (cs : List Char) : Option (List String × List Char) :=
  (keyParts (cs.length + 1) cs).filter fun (l, _) => l.length < nestingLimit

end AnalysisGate.Toml
