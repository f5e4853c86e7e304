/-!
Patterns over the bytes of a path.

`?` is one byte and `*` a run of bytes, neither a slash; `[...]` is one byte of a set; a backslash
makes the next byte plain. Two stars that fill a whole part of the path cross slashes: at the end
they are any rest, before a slash any number of directories, none included.
-/
namespace AnalysisGate.Glob

/-- A part of a pattern. -/
inductive Token
  | byte (b : UInt8)
  | one
  | run
  | rest
  | directories
  | set (negated : Bool) (ranges : List (UInt8 × UInt8))
  | never

/-! ## Bytes -/

def slash : UInt8 := 0x2f
def star : UInt8 := 0x2a
def query : UInt8 := 0x3f
def backslash : UInt8 := 0x5c
def openSet : UInt8 := 0x5b
def closeSet : UInt8 := 0x5d
def dash : UInt8 := 0x2d
def colon : UInt8 := 0x3a
def caret : UInt8 := 0x5e
def bang : UInt8 := 0x21

/-! ## Reading a pattern -/

/-- The ranges of a named class of bytes. -/
def class? (name : List UInt8) : Option (List (UInt8 × UInt8)) :=
  let digits := [(0x30, 0x39)]
  let small := [(0x61, 0x7a)]
  let capital := [(0x41, 0x5a)]
  let punctuation := [(0x21, 0x2f), (0x3a, 0x40), (0x5b, 0x60), (0x7b, 0x7e)]
  let is (s : String) : Bool := s.toUTF8.toList == name
  if is "alnum" then some (digits ++ small ++ capital)
  else if is "alpha" then some (small ++ capital)
  else if is "blank" then some [(0x20, 0x20), (0x09, 0x09)]
  else if is "cntrl" then some [(0x00, 0x1f), (0x7f, 0x7f)]
  else if is "digit" then some digits
  else if is "graph" then some [(0x21, 0x7e)]
  else if is "lower" then some small
  else if is "print" then some [(0x20, 0x7e)]
  else if is "punct" then some punctuation
  else if is "space" then some [(0x09, 0x0d), (0x20, 0x20)]
  else if is "upper" then some capital
  else if is "xdigit" then some (digits ++ [(0x61, 0x66), (0x41, 0x46)])
  else none

/-- The ranges of a set up to its closing bracket, and what follows. The byte before, if any, can
start a range; the first byte of a set is plain even if it is a bracket. -/
def ranges? : Nat → Bool → Option UInt8 → List UInt8 →
    Option (List (UInt8 × UInt8) × List UInt8)
  | 0, _, _, _ => none
  | _, _, _, [] => none
  | fuel + 1, first, before, b :: bs =>
    let single (b : UInt8) (bs : List UInt8) :=
      (ranges? fuel false (some b) bs).map fun (l, r) => ((b, b) :: l, r)
    if b = closeSet && !first then some ([], bs)
    else if b = backslash then
      match bs with
      | [] => none
      | c :: bs => single c bs
    else
      match b == dash, before, bs with
      | true, some low, c :: bs =>
        if c = closeSet then single b (c :: bs)
        else
          match c == backslash, bs with
          | true, [] => none
          | true, d :: bs => (ranges? fuel false none bs).map fun (l, r) => ((low, d) :: l, r)
          | false, bs => (ranges? fuel false none bs).map fun (l, r) => ((low, c) :: l, r)
      | _, _, _ =>
        match b == openSet, bs with
        | true, c :: bs =>
          if c ≠ colon then single b (c :: bs)
          else
            let body := bs.takeWhile (· != closeSet)
            match bs.drop body.length with
            | [] => none
            | _ :: after =>
              if body.getLast? = some colon then
                match class? body.dropLast with
                | some l => (ranges? fuel false none after).map fun (l', r) => (l ++ l', r)
                | none => none
              else single b (c :: bs)
        | _, _ => single b bs

/-- The tokens of a pattern. `start` says that a part of the path starts here. -/
def tokens : Nat → Bool → List UInt8 → List Token
  | 0, _, _ => []
  | _, _, [] => []
  | fuel + 1, start, b :: bs =>
    if b = backslash then
      match bs with
      | [] => [.never]
      | c :: bs => .byte c :: tokens fuel (c == slash) bs
    else if b = query then .one :: tokens fuel false bs
    else if b = star then
      let after := bs.dropWhile (· == star)
      -- stars cross slashes only if they fill a whole part of the path
      if after.length < bs.length && start then
        match after with
        | [] => [.rest]
        | c :: more =>
          if c = slash then .directories :: tokens fuel true more
          else if c = backslash && more.head? == some slash then .rest :: tokens fuel false after
          else .run :: tokens fuel false after
      else .run :: tokens fuel false after
    else if b = openSet then
      let (negated, body) := match bs with
        | c :: rest => if c = bang || c = caret then (true, rest) else (false, bs)
        | [] => (false, bs)
      match ranges? (body.length + 1) true none body with
      | some (l, rest) => .set negated l :: tokens fuel false rest
      | none => [.never]
    else .byte b :: tokens fuel (b == slash) bs

/-- The tokens of a whole pattern. -/
def compile (pattern : List UInt8) : List Token := tokens (pattern.length + 1) true pattern

/-! ## Matching -/

def inRanges (b : UInt8) (l : List (UInt8 × UInt8)) : Bool := l.any fun r => r.1 ≤ b && b ≤ r.2

/-- Whether tokens match all of a text. -/
def accepts : List Token → List UInt8 → Bool
  | [], bs => bs.isEmpty
  | .byte c :: ts, b :: bs => c == b && accepts ts bs
  | .one :: ts, b :: bs => b != slash && accepts ts bs
  | .set negated l :: ts, b :: bs => b != slash && inRanges b l != negated && accepts ts bs
  | .run :: ts, [] => accepts ts []
  | .run :: ts, b :: bs => accepts ts (b :: bs) || (b != slash && accepts (.run :: ts) bs)
  | .rest :: ts, [] => accepts ts []
  | .rest :: ts, b :: bs => accepts ts (b :: bs) || accepts (.rest :: ts) bs
  | .directories :: ts, [] => accepts ts []
  | .directories :: ts, b :: bs => accepts ts (b :: bs) || skipDirectory ts (b :: bs)
  | .never :: _, _ => false
  | _ :: _, [] => false
termination_by ts bs => (ts.length + bs.length, 0)
where
  /-- Whether tokens match after some slash of a text. -/
  skipDirectory (ts : List Token) : List UInt8 → Bool
    | [] => false
    | b :: bs => (b == slash && accepts ts bs) || skipDirectory ts bs
  termination_by bs => (ts.length + bs.length, 1)

end AnalysisGate.Glob
