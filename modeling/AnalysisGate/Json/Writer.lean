import AnalysisGate.Json.Basic

/-!
JSON text.

`compact` writes no white space. `pretty` puts every item and member on a line of its own, two
blanks deeper than its container, and an empty container on one line. Both write the members of
an object in the order in which the document has them. A text escapes the quote, the backslash
and the characters below the space, and nothing else.
-/
namespace AnalysisGate.Json

/-- Doubles keep a point and a digit; magnitudes from `10⁻⁵` to below `10¹⁶` are positional. -/
def doubleStyle : Decimal.Style where
  leastPositional := -5
  mostPositional := 15
  keepPoint := true

def numberText : Number → List Char
  | .natural n => Numeral.digits n.toNat
  | .negative n => '-' :: Numeral.digits (n.val + 1)
  | .double bits => Decimal.write doubleStyle bits

/-- The spelling of a character inside a text. -/
def escape (c : Char) : List Char :=
  if c = '"' then ['\\', '"']
  else if c = '\\' then ['\\', '\\']
  else if c = '\n' then ['\\', 'n']
  else if c = '\r' then ['\\', 'r']
  else if c = '\t' then ['\\', 't']
  else if c = '\x08' then ['\\', 'b']
  else if c = '\x0c' then ['\\', 'f']
  else if c.toNat < 0x20 then
    ['\\', 'u', '0', '0', Numeral.hexDigit (c.toNat / 16),
      Numeral.hexDigit (c.toNat % 16)]
  else [c]

def stringText (s : String) : List Char := '"' :: (s.toList.flatMap escape ++ ['"'])

mutual

/-- The text of a document without white space. -/
def compact : Json → List Char
  | .null => ['n', 'u', 'l', 'l']
  | .bool true => ['t', 'r', 'u', 'e']
  | .bool false => ['f', 'a', 'l', 's', 'e']
  | .number n => numberText n
  | .string s => stringText s
  | .array [] => ['[', ']']
  | .array (j :: rest) => '[' :: (compact j ++ compactItems rest)
  | .object [] => ['\x7b', '\x7d']
  | .object ((k, j) :: rest) =>
    '\x7b' :: (stringText k ++ ':' :: (compact j ++ compactMembers rest))
  | .beyond => ['n', 'u', 'l', 'l']

/-- The items after the first, and the end of the array. -/
def compactItems : List Json → List Char
  | [] => [']']
  | j :: rest => ',' :: (compact j ++ compactItems rest)

/-- The members after the first, and the end of the object. -/
def compactMembers : List (String × Json) → List Char
  | [] => ['\x7d']
  | (k, j) :: rest => ',' :: (stringText k ++ ':' :: (compact j ++ compactMembers rest))

end

/-- A line end, and the blanks before what stands at a depth. -/
def newline (depth : Nat) : List Char := '\n' :: List.replicate (2 * depth) ' '

mutual

/-- The text of a document with a line per item, for a container at a depth. -/
def prettyAt (depth : Nat) : Json → List Char
  | .array (j :: rest) =>
    '[' :: (newline (depth + 1) ++ prettyAt (depth + 1) j ++ prettyItems depth rest)
  | .object ((k, j) :: rest) =>
    '\x7b' :: (newline (depth + 1) ++ stringText k ++ ':' :: ' ' :: prettyAt (depth + 1) j ++
      prettyMembers depth rest)
  | .array [] => ['[', ']']
  | .object [] => ['\x7b', '\x7d']
  | .null => ['n', 'u', 'l', 'l']
  | .bool true => ['t', 'r', 'u', 'e']
  | .bool false => ['f', 'a', 'l', 's', 'e']
  | .number n => numberText n
  | .string s => stringText s
  | .beyond => ['n', 'u', 'l', 'l']

def prettyItems (depth : Nat) : List Json → List Char
  | [] => newline depth ++ [']']
  | j :: rest => ',' :: (newline (depth + 1) ++ prettyAt (depth + 1) j ++ prettyItems depth rest)

def prettyMembers (depth : Nat) : List (String × Json) → List Char
  | [] => newline depth ++ ['\x7d']
  | (k, j) :: rest =>
    ',' :: (newline (depth + 1) ++ stringText k ++ ':' :: ' ' :: prettyAt (depth + 1) j ++
      prettyMembers depth rest)

end

def compactText (j : Json) : String := String.ofList (compact j)

def prettyText (j : Json) : String := String.ofList (prettyAt 0 j)

end AnalysisGate.Json
