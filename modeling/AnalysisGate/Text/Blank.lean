/-!
White space and trimming.

`isBlank` is the White_Space property of Unicode. `trim` takes the blanks from both ends of a
text and leaves the rest as it is.
-/
namespace AnalysisGate.Text

/-- The White_Space property. -/
def isBlank (c : Char) : Bool :=
  let n := c.toNat
  (0x09 ≤ n && n ≤ 0x0d) || n == 0x20 || n == 0x85 || n == 0xa0 || n == 0x1680 ||
    (0x2000 ≤ n && n ≤ 0x200a) || n == 0x2028 || n == 0x2029 || n == 0x202f ||
    n == 0x205f || n == 0x3000

def trimStart (cs : List Char) : List Char := cs.dropWhile isBlank

def trimEnd (cs : List Char) : List Char := (cs.reverse.dropWhile isBlank).reverse

def trim (cs : List Char) : List Char := trimEnd (trimStart cs)

/-- ASCII capitals become small letters; every other character stays. -/
def fold (cs : List Char) : List Char := cs.map Char.toLower

/-- Whether two texts agree but for the case of ASCII letters. -/
def sameFolded (s t : String) : Bool := fold s.toList == fold t.toList

/-- The lines of a text, without the line feeds between them. -/
def lines : List Char → List (List Char)
  | [] => [[]]
  | c :: rest =>
    if c = '\n' then [] :: lines rest
    else
      match lines rest with
      | [] => [[c]]
      | l :: ls => (c :: l) :: ls

end AnalysisGate.Text
