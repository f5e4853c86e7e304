/-!
Coloured text for terminals.

A painted text stands between the codes of its colour and attribute and one code that ends both;
where there is no colour it is the plain text.
-/
namespace AnalysisGate

/-- What a terminal can be told about a text. -/
inductive Ink
  | red
  | green
  | yellow
  | cyan
  | bold
  | dim
  deriving DecidableEq

namespace Ink

/-- The codes of the standard for terminal control. -/
def code : Ink → String
  | red => "31"
  | green => "32"
  | yellow => "33"
  | cyan => "36"
  | bold => "1"
  | dim => "2"

/-- The sequence that a terminal takes as a code. -/
def control (code : String) : String := "\x1b[" ++ code ++ "m"

/-- A text in some inks, if there is colour at all. -/
def paint (color : Bool) (inks : List Ink) (text : String) : String :=
  if color then String.join (inks.map fun i => control i.code) ++ text ++ control "0" else text

end Ink

end AnalysisGate
