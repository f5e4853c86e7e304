import AnalysisGate.Toml.Lexeme
import AnalysisGate.Timestamp
import AnalysisGate.Json.Reader

/-!
Numbers and dates of TOML.

An integer has 64 bits and may be written in base 2, 8, 10 or 16, with an underscore between any
two digits. A date or time has no counterpart among documents: it is an object whose single
member spells it.
-/
namespace AnalysisGate.Toml

/-! ## Numbers -/

/-- Digits of a class with single underscores between them, without the underscores. -/
def digitRun (isDigit : Char → Bool) : List Char → Option (List Char × List Char)
  | c :: '_' :: r =>
    if isDigit c then (digitRun isDigit r).map fun (l, rest) => (c :: l, rest) else none
  | c :: r =>
    if isDigit c then
      match digitRun isDigit r with
      | some (l, rest) => some (c :: l, rest)
      | none => if (r.head?.any isDigit) then none else some ([c], r)
    else none
  | [] => none

def isHexDigit (c : Char) : Bool := (Numeral.hexWorth? c).isSome

def isOctalDigit (c : Char) : Bool := '0' ≤ c && c ≤ '7'

def isBinaryDigit (c : Char) : Bool := c == '0' || c == '1'

/-- The value of digits in a base. -/
def valueIn (base : Nat) (ds : List Char) : Nat :=
  ds.foldl (fun n c => base * n + (Numeral.hexWorth? c).getD 0) 0

/-- An integer as a document. -/
def integer? (i : Int) : Option Json :=
  if -0x8000000000000000 ≤ i ∧ i < 0x8000000000000000 then (Number.ofInt? i).map .number else none

/-- An integer in a base that a power of two is. -/
def inBase? (base : Nat) (isDigit : Char → Bool) (cs : List Char) : Option (Json × List Char) := do
  let (ds, rest) ← digitRun isDigit cs
  return (← integer? (valueIn base ds), rest)

def isSign (c : Char) : Bool := c == '+' || c == '-'

/-- Whether a number is negative, and the text after its sign. -/
def sign : List Char → Bool × List Char
  | '-' :: r => (true, r)
  | '+' :: r => (false, r)
  | cs => (false, cs)

/-- The digits of a whole number that has no leading zero. -/
def whole? : List Char → Option (List Char × List Char)
  | '0' :: r => some (['0'], r)
  | cs => digitRun Numeral.isDigit cs

/-- The digits after a point, if there is one. -/
def fraction? : List Char → Option (List Char × List Char)
  | '.' :: r => digitRun Numeral.isDigit r
  | cs => some ([], cs)

/-- The power of ten after its letter, if there is one. -/
def power? : List Char → Option (Int × List Char)
  | 'e' :: r | 'E' :: r => do
    let (negative, r) := sign r
    let (ds, rest) ← digitRun Numeral.isDigit r
    let n : Int := Numeral.value ds
    return (if negative then -n else n, rest)
  | cs => some (0, cs)

/-- The magnitude nearest to digits times a power of ten. -/
def magnitude (ds : List Char) (e : Int) : UInt64 :=
  let n := Numeral.value ds
  let size : Int := (Numeral.digits n).length + e
  if n = 0 ∨ size < -400 then 0
  else if 400 < size then Binary64.infinity
  else Binary64.ofDecimal n e

/-- A double with a sign as a document; positive infinity has to be spelled out. -/
def double? (negative : Bool) (x : UInt64) : Option Json :=
  if negative then some (.number (.double (Binary64.negate x)))
  else if x = Binary64.infinity then none
  else some (.number (.double x))

/-- A decimal number: an integer, unless it has a point or a power of ten. -/
def decimal? (cs : List Char) : Option (Json × List Char) := do
  let (negative, r) := sign cs
  let (ws, r) ← whole? r
  if r.head? == some '.' || r.head? == some 'e' || r.head? == some 'E' then
    let (fs, r) ← fraction? r
    let (e, rest) ← power? r
    return (← double? negative (magnitude (ws ++ fs) (e - fs.length)), rest)
  else
    let n : Int := Numeral.value ws
    return (← integer? (if negative then -n else n), r)

/-- Infinity and what is no number, by name. -/
def named? (cs : List Char) : Option (Json × List Char) := do
  let (negative, r) := sign cs
  let (bits, rest) ← match r with
    | 'i' :: 'n' :: 'f' :: rest => some (Binary64.infinity, rest)
    | 'n' :: 'a' :: 'n' :: rest => some (Binary64.notNumber, rest)
    | _ => none
  return (.number (.double (if negative then Binary64.negate bits else bits)), rest)

def number? (cs : List Char) : Option (Json × List Char) :=
  match cs with
  | '0' :: 'x' :: r => inBase? 16 isHexDigit r
  | '0' :: 'o' :: r => inBase? 8 isOctalDigit r
  | '0' :: 'b' :: r => inBase? 2 isBinaryDigit r
  | _ => (named? cs).or (decimal? cs)

/-! ## Dates and times -/

/-- A number of exactly so many digits, within bounds. -/
def fixed? (digits least most : Nat) (cs : List Char) : Option (Nat × List Char) := do
  let ds := cs.take digits
  let n ← Numeral.value? ds
  if ds.length = digits ∧ least ≤ n ∧ n ≤ most then return (n, cs.drop digits) else none

/-- What follows a character that the text has to start with. -/
def after? (c : Char) : List Char → Option (List Char)
  | d :: r => if c = d then some r else none
  | [] => none

/-- A day, written as it is read. -/
def date? (cs : List Char) : Option (List Char × List Char) := do
  let (year, r) ← fixed? 4 0 9999 cs
  let (month, r) ← fixed? 2 1 12 (← after? '-' r)
  let (day, r) ← fixed? 2 1 31 (← after? '-' r)
  if Date.monthLength year month < day then none
  else
    return (Numeral.padded 4 year ++ '-' :: Numeral.padded 2 month ++
      '-' :: Numeral.padded 2 day, r)

/-- The fraction of a second to nine digits, without zeros at its end. -/
def secondFraction? (cs : List Char) : Option (List Char × List Char) :=
  match cs with
  | '.' :: r =>
    let ds := r.takeWhile Numeral.isDigit
    if ds.isEmpty then some ([], cs)
    else
      let kept := ((ds.take 9).reverse.dropWhile (· == '0')).reverse
      some (if kept.isEmpty then [] else '.' :: kept, r.drop ds.length)
  | _ => some ([], cs)

/-- A time of day, written in full. -/
def time? (cs : List Char) : Option (List Char × List Char) := do
  let (hour, r) ← fixed? 2 0 23 cs
  let (minute, r) ← fixed? 2 0 59 (← after? ':' r)
  let (second, r) ← fixed? 2 0 60 (← after? ':' r)
  let (fraction, r) ← secondFraction? r
  return (Numeral.padded 2 hour ++ ':' :: Numeral.padded 2 minute ++
    ':' :: Numeral.padded 2 second ++ fraction, r)

/-- An offset from universal time, if there is one. -/
def offset? (cs : List Char) : Option (List Char × List Char) :=
  match cs with
  | 'Z' :: r | 'z' :: r => some (['Z'], r)
  | c :: r =>
    if isSign c then do
      let (hours, r) ← fixed? 2 0 23 r
      let (minutes, r) ← fixed? 2 0 59 (← after? ':' r)
      let shown := if hours = 0 ∧ minutes = 0 then '+' else c
      return (shown :: Numeral.padded 2 hours ++ ':' :: Numeral.padded 2 minutes, r)
    else some ([], cs)
  | [] => some ([], [])

/-- A time that a date goes before, with its offset, if there is one. -/
def timeAfterDate? (cs : List Char) : Option (List Char × List Char) :=
  match cs with
  | c :: r =>
    if (c = 'T' ∨ c = 't' ∨ c = ' ') ∧
        (fixed? 2 0 23 r).any (fun f => f.2.head? == some ':') then do
      let (time, r) ← time? r
      let (offset, r) ← offset? r
      return ('T' :: time ++ offset, r)
    else some ([], cs)
  | [] => some ([], [])

/-- A date, a time, or both. -/
def moment? (cs : List Char) : Option (List Char × List Char) :=
  match date? cs with
  | some (date, r) => (timeAfterDate? r).map fun (time, rest) => (date ++ time, rest)
  | none => time? cs

/-- The member that spells a date or time. -/
def momentKey : String := "$__toml_private_datetime"

/-- A number or a date. -/
def numeric? (cs : List Char) : Option (Json × List Char) :=
  match moment? cs with
  | some (text, rest) => some (.object [(momentKey, .string (String.ofList text))], rest)
  | none => number? cs

end AnalysisGate.Toml
