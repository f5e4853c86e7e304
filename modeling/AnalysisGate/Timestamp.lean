import AnalysisGate.Text.Blank
import AnalysisGate.Text.Numeral

/-!
Points in time, to the nanosecond, as budgets date themselves.

`parse` reads a date, a time and an offset from universal time, with blanks allowed around the
separators, and gives the universal time. `text` writes it with as few groups of three fraction
digits as it needs. A minute may have a second 60.
-/
namespace AnalysisGate

/-- Why a text is no point in time. -/
inductive TimestampError
  | outOfRange
  | impossible
  | premature
  | invalid
  | trailing
  deriving DecidableEq

def TimestampError.message : TimestampError → String
  | outOfRange => "input is out of range"
  | impossible => "no possible date and time matching input"
  | premature => "premature end of input"
  | invalid => "input contains invalid characters"
  | trailing => "trailing input"

/-- A day of the Gregorian calendar, carried on before its first day. -/
structure Date where
  year : Int
  month : Nat
  day : Nat
  deriving DecidableEq

namespace Date

def leastYear : Int := -262143

def mostYear : Int := 262142

def isLeap (year : Int) : Bool := year % 4 == 0 && (year % 100 != 0 || year % 400 == 0)

/-- The number of days of a month. -/
def monthLength (year : Int) (month : Nat) : Nat :=
  if month = 2 then if isLeap year then 29 else 28
  else if month = 4 ∨ month = 6 ∨ month = 9 ∨ month = 11 then 30
  else 31

def isValid (d : Date) : Bool :=
  leastYear ≤ d.year && d.year ≤ mostYear && 1 ≤ d.month && d.month ≤ 12 && 1 ≤ d.day &&
    d.day ≤ monthLength d.year d.month

/-- The day after, unless it is past the last year. -/
def next? (d : Date) : Option Date :=
  let e : Date :=
    if d.day < monthLength d.year d.month then { d with day := d.day + 1 }
    else if d.month < 12 then { d with month := d.month + 1, day := 1 }
    else ⟨d.year + 1, 1, 1⟩
  if e.year ≤ mostYear then some e else none

/-- The day that is so many days after the first of March of the year zero. A year that starts in
March ends in the leap day, so the days before each of its months are always the same. -/
def ofDays (days : Int) : Date :=
  let era := days / 146097
  let dayOfEra := days % 146097
  let yearOfEra :=
    (dayOfEra - dayOfEra / 1460 + dayOfEra / 36524 - dayOfEra / 146096) / 365
  let dayOfYear := (dayOfEra - (365 * yearOfEra + yearOfEra / 4 - yearOfEra / 100)).toNat
  let month := (5 * dayOfYear + 2) / 153
  let day := dayOfYear - (153 * month + 2) / 5 + 1
  let year := yearOfEra + era * 400
  if month < 10 then ⟨year, month + 3, day⟩ else ⟨year + 1, month - 9, day⟩

/-- The day before, unless it is before the first year. -/
def previous? (d : Date) : Option Date :=
  let e : Date :=
    if 1 < d.day then { d with day := d.day - 1 }
    else if 1 < d.month then ⟨d.year, d.month - 1, monthLength d.year (d.month - 1)⟩
    else ⟨d.year - 1, 12, 31⟩
  if leastYear ≤ e.year then some e else none

end Date

/-- A point in universal time: a day, a second of it, and nanoseconds in that second. More than a
second of nanoseconds stands for the second 60 of a minute. -/
structure Timestamp where
  date : Date
  second : Nat
  nano : Nat
  deriving DecidableEq

namespace Timestamp

def daySeconds : Nat := 86400

def secondNanos : Nat := 1000000000

/-- The first moment of 1970. -/
def epoch : Timestamp := ⟨⟨1970, 1, 1⟩, 0, 0⟩

instance : Inhabited Timestamp := ⟨epoch⟩

/-- The days from the first of March of the year zero to the first of January 1970. -/
def epochDays : Int := 719468

/-- The moment so many nanoseconds after the first of 1970. -/
def ofUnix (nanos : Int) : Timestamp :=
  let seconds := nanos / secondNanos
  ⟨Date.ofDays (seconds / daySeconds + epochDays), (seconds % daySeconds).toNat,
    (nanos % secondNanos).toNat⟩

/-! ## Writing -/

/-- A year of four digits, or with a sign if it needs more or is negative. -/
def yearText (year : Int) : List Char :=
  if 0 ≤ year ∧ year ≤ 9999 then Numeral.padded 4 year.toNat
  else (if year < 0 then '-' else '+') :: Numeral.padded 4 year.natAbs

/-- The fraction of a second, in groups of three digits. -/
def fractionText (nano : Nat) : List Char :=
  if nano = 0 then []
  else if nano % 1000000 = 0 then '.' :: Numeral.padded 3 (nano / 1000000)
  else if nano % 1000 = 0 then '.' :: Numeral.padded 6 (nano / 1000)
  else '.' :: Numeral.padded 9 nano

def text (t : Timestamp) : String :=
  let two := Numeral.padded 2
  let extra := t.nano / secondNanos
  String.ofList (yearText t.date.year ++ '-' :: two t.date.month ++ '-' :: two t.date.day ++
    'T' :: two (t.second / 3600) ++ ':' :: two (t.second / 60 % 60) ++
    ':' :: two (t.second % 60 + extra) ++ fractionText (t.nano % secondNanos) ++ ['Z'])

/-! ## Reading

A scanner gives what it reads and the text after it. -/

/-- A number of at least one digit and at most `width`. -/
def number (width : Nat) (cs : List Char) : Except TimestampError (Nat × List Char) :=
  match cs with
  | [] => .error .premature
  | c :: _ =>
    if !Numeral.isDigit c then .error .invalid
    else
      let run := (cs.take width).takeWhile Numeral.isDigit
      .ok (Numeral.value run, cs.drop run.length)

/-- A number of two digits at most, after blanks and within bounds. -/
def part (least most : Nat) (cs : List Char) : Except TimestampError (Nat × List Char) := do
  let (n, rest) ← number 2 (Text.trimStart cs)
  if least ≤ n ∧ n ≤ most then return (n, rest) else .error .outOfRange

/-- A separator, after blanks. -/
def separator (c : Char) (cs : List Char) : Except TimestampError (List Char) :=
  match Text.trimStart cs with
  | [] => .error .premature
  | d :: rest => if d = c then .ok rest else .error .invalid

/-- A year of at most four digits, or of any number of them after a sign. -/
def scanYear (cs : List Char) : Except TimestampError (Int × List Char) := do
  let cs := Text.trimStart cs
  let (year, rest) ← match cs with
    | '-' :: tail => (number tail.length tail).map fun (n, rest) => (-(n : Int), rest)
    | '+' :: tail => (number tail.length tail).map fun (n, rest) => ((n : Int), rest)
    | _ => (number 4 cs).map fun (n, rest) => ((n : Int), rest)
  if -0x80000000 ≤ year ∧ year < 0x80000000 then return (year, rest) else .error .outOfRange

def scanDate (cs : List Char) : Except TimestampError (Date × List Char) := do
  let (year, cs) ← scanYear cs
  let (month, cs) ← part 1 12 (← separator '-' cs)
  let (day, cs) ← part 1 31 (← separator '-' cs)
  return (⟨year, month, day⟩, cs)

/-- The fraction that a point starts, in nanoseconds; digits after the ninth do not count. -/
def scanFraction (cs : List Char) : Except TimestampError (Nat × List Char) :=
  match cs with
  | '.' :: tail => do
    let (n, rest) ← number 9 tail
    let read := tail.length - rest.length
    return (n * Nat.pow 10 (9 - read), rest.dropWhile Numeral.isDigit)
  | _ => .ok (0, cs)

/-- A time of day, in seconds and nanoseconds. -/
def scanTime (cs : List Char) : Except TimestampError ((Nat × Nat) × List Char) := do
  let (hour, cs) ← part 0 23 cs
  let (minute, cs) ← part 0 59 (← separator ':' cs)
  let (second, cs) ← part 0 60 (← separator ':' cs)
  let (nano, cs) ← scanFraction cs
  let base := hour * 3600 + minute * 60
  -- the second 60 has no number of its own in the day
  if second = 60 then return ((base + 59, nano + secondNanos), cs)
  else return ((base + second, nano), cs)

/-- Two digits that start a text. -/
def twoDigits (cs : List Char) : Except TimestampError (Nat × List Char) :=
  match cs with
  | [] => .error .premature
  | [c] => .error (if c.toNat < 0x80 then .premature else .invalid)
  | c :: d :: rest =>
    if Numeral.isDigit c && Numeral.isDigit d then
      .ok (10 * Numeral.worth c + Numeral.worth d, rest)
    else .error .invalid

/-- An offset from universal time, in seconds. -/
def scanOffset (cs : List Char) : Except TimestampError (Int × List Char) :=
  match cs with
  | [] => .error .premature
  | c :: rest =>
    if c = 'Z' ∨ c = 'z' then .ok (0, rest)
    else if Text.fold (cs.take 3) = ['u', 't', 'c'] then .ok (0, cs.drop 3)
    else if c = '+' ∨ c = '-' ∨ c = '\u2212' then do
      let (hours, rest) ← twoDigits rest
      let (minutes, rest) ← twoDigits (rest.dropWhile fun c => c == ':' || Text.isBlank c)
      if 60 ≤ minutes then .error .outOfRange
      else
        let seconds : Int := hours * 3600 + minutes * 60
        return (if c = '+' then seconds else -seconds, rest)
    else .error .invalid

/-- The point in universal time of a day and time that are ahead of it by an offset. -/
def ofLocal (date : Date) (second nano : Nat) (offset : Int) : Except TimestampError Timestamp :=
  if !date.isValid || daySeconds ≤ offset.natAbs then .error .outOfRange
  else
    let s : Int := second - offset
    let date? :=
      if s < 0 then date.previous? else if daySeconds ≤ s then date.next? else some date
    match date? with
    | none => .error .impossible
    | some d => .ok ⟨d, (s % daySeconds).toNat, nano⟩

def parseChars (cs : List Char) : Except TimestampError Timestamp := do
  let (date, cs) ← scanDate cs
  match cs with
  | [] => .error .premature
  | c :: cs =>
    if c = 't' ∨ c = 'T' ∨ c = ' ' then
      let ((second, nano), cs) ← scanTime cs
      let (offset, cs) ← scanOffset (Text.trimStart cs)
      if Text.trimStart cs ≠ [] then .error .trailing
      else ofLocal date second nano offset
    else .error .invalid

/-- The point in time that a text states. -/
def parse (s : String) : Except TimestampError Timestamp := parseChars s.toList

end Timestamp

end AnalysisGate
