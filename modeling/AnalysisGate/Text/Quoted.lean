import AnalysisGate.Text.Numeral
import AnalysisGate.Text.Shapeless

/-!
Texts as messages show them: between double quotes, with quotes, backslashes and shapeless
characters spelled out, so that a reader sees where the text ends and what it holds.
-/
namespace AnalysisGate.Text

/-- The spelling of one character between double quotes. -/
def spell (c : Char) : List Char :=
  if c = '\x00' then ['\\', '0']
  else if c = '\t' then ['\\', 't']
  else if c = '\r' then ['\\', 'r']
  else if c = '\n' then ['\\', 'n']
  else if c = '"' then ['\\', '"']
  else if c = '\\' then ['\\', '\\']
  else if isShapeless c then ['\\', 'u', '\x7b'] ++ Numeral.hexDigits c.toNat ++ ['\x7d']
  else [c]

/-- A text between double quotes. -/
def quoted (s : String) : String := String.ofList ('"' :: s.toList.flatMap spell ++ ['"'])

end AnalysisGate.Text
