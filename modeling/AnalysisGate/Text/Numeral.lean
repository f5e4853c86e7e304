/-!
Decimal numerals.

`digits` writes a number with no leading zero. `value?` reads any run of ASCII digits, and
`readBelow?` reads what a count may be spelled as: digits, at most one plus sign before them,
and a value under a bound.
-/
namespace AnalysisGate.Numeral

/-- The character of a digit below ten. -/
def digit (n : Nat) : Char := Char.ofNat ('0'.toNat + n)

/-- The numeral of `n`, with no leading zero. -/
def digits (n : Nat) : List Char :=
  if n < 10 then [digit n] else digits (n / 10) ++ [digit (n % 10)]

/-- The numeral of `n` with zeros before it, up to `width` characters. -/
def padded (width n : Nat) : List Char :=
  List.replicate (width - (digits n).length) '0' ++ digits n

def text (n : Nat) : String := String.ofList (digits n)

/-- The numeral of an integer: a minus sign before a negative one. -/
def signed (i : Int) : List Char :=
  if i < 0 then '-' :: digits i.natAbs else digits i.natAbs

def isDigit (c : Char) : Bool := '0' ≤ c && c ≤ '9'

/-- The number that a digit stands for. -/
def worth (c : Char) : Nat := c.toNat - '0'.toNat

/-- The value of a run of digits. -/
def value (cs : List Char) : Nat := cs.foldl (fun n c => 10 * n + worth c) 0

/-- The value of a text that is one or more digits. -/
def value? (cs : List Char) : Option Nat :=
  if !cs.isEmpty && cs.all isDigit then some (value cs) else none

/-- The value under `bound` of digits that at most one plus sign precedes. -/
def readBelow? (bound : Nat) (cs : List Char) : Option Nat :=
  let body := match cs with
    | '+' :: rest => rest
    | _ => cs
  (value? body).filter (· < bound)

/-! ## Hexadecimal -/

/-- A hexadecimal digit, in lower case. -/
def hexDigit (n : Nat) : Char := if n < 10 then digit n else Char.ofNat ('a'.toNat + (n - 10))

/-- The hexadecimal numeral of `n`, with no leading zero. -/
def hexDigits (n : Nat) : List Char :=
  if n < 16 then [hexDigit n] else hexDigits (n / 16) ++ [hexDigit (n % 16)]

/-- The number that a hexadecimal digit of either case stands for. -/
def hexWorth? (c : Char) : Option Nat :=
  if isDigit c then some (worth c)
  else if 'a' ≤ c && c ≤ 'f' then some (c.toNat - 'a'.toNat + 10)
  else if 'A' ≤ c && c ≤ 'F' then some (c.toNat - 'A'.toNat + 10)
  else none

/-- The value of a run of hexadecimal digits. -/
def hexValue? (cs : List Char) : Option Nat :=
  cs.foldl (fun n? c => do return 16 * (← n?) + (← hexWorth? c)) (some 0)

end AnalysisGate.Numeral
