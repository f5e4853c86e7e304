import AnalysisGate.Repository.Glob

/-!
Ignore files.

An ignore file has a rule per line. Of the rules of one file the last that matches decides; a file
deeper in the tree decides before one above it. A rule with a slash before its end is matched
against the whole path below its file, any other against the last name only.
-/
namespace AnalysisGate.Repository

/-- A rule of an ignore file. -/
structure Rule where
  negated : Bool
  directoryOnly : Bool
  anchored : Bool
  pattern : List UInt8

namespace Rule

def space : UInt8 := 0x20

/-- A line without the blanks at its end that no backslash keeps. -/
def trimBlanks : List UInt8 → List UInt8
  | [] => []
  | b :: rest =>
    if b = Glob.backslash then
      match rest with
      | [] => [b]
      | c :: rest => b :: c :: trimBlanks rest
    else if b = space && (b :: rest).all (· == space) then []
    else b :: trimBlanks rest

/-- The rule of a line, if it is not empty or a comment. -/
def ofLine? (line : List UInt8) : Option Rule :=
  if line.isEmpty || line.head? = some 0x23 then none
  else
    let body := trimBlanks (if line.getLast? = some 0x0d then line.dropLast else line)
    let (negated, body) := match body with
      | b :: rest => if b = Glob.bang then (true, rest) else (false, body)
      | [] => (false, body)
    let directoryOnly := body.getLast? = some Glob.slash
    let body := if directoryOnly then body.dropLast else body
    some { negated, directoryOnly, anchored := body.contains Glob.slash, pattern := body }

/-- The lines of a text, without their ends. -/
def lines : List UInt8 → List (List UInt8)
  | [] => []
  | b :: rest =>
    if b = 0x0a then [] :: lines rest
    else
      match lines rest with
      | [] => [[b]]
      | l :: ls => (b :: l) :: ls

/-- The rules of an ignore file; a mark of byte order before them does not count. -/
def ofBytes (bytes : ByteArray) : List Rule :=
  let bs := match bytes.toList with
    | 0xef :: 0xbb :: 0xbf :: rest => rest
    | bs => bs
  (lines bs).filterMap ofLine?

/-- Whether a byte has a meaning of its own in patterns. -/
def isSpecial (b : UInt8) : Bool :=
  b == Glob.star || b == Glob.query || b == Glob.openSet || b == Glob.backslash

/-- Match a path below the rule's file: its plain start byte by byte, the rest as a pattern of its
own. -/
def acceptsPath (pattern path : List UInt8) : Bool :=
  let pattern := match pattern with
    | b :: rest => if b = Glob.slash then rest else pattern
    | [] => pattern
  -- what follows the plain start counts as the start of a part, even within one
  let plain := pattern.takeWhile (!isSpecial ·)
  plain.isPrefixOf path &&
    Glob.accepts (Glob.compile (pattern.drop plain.length)) (path.drop plain.length)

/-- Whether a rule matches a path below its file, given by its names. -/
def accepts (r : Rule) (isDirectory : Bool) (names : List String) : Bool :=
  (isDirectory || !r.directoryOnly) &&
    if r.anchored then acceptsPath r.pattern ("/".intercalate names).toUTF8.toList
    else Glob.accepts (Glob.compile r.pattern) (names.getLast?.getD "").toUTF8.toList

/-- What the rules of a file say of a path: ignored, kept, or nothing. -/
def verdict (rules : List Rule) (isDirectory : Bool) (names : List String) : Option Bool :=
  (rules.reverse.find? (·.accepts isDirectory names)).map (!·.negated)

end Rule

end AnalysisGate.Repository
