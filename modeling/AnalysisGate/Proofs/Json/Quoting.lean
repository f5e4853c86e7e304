import AnalysisGate.Json.Reader
import AnalysisGate.Json.Writer
import Mathlib

/-!
Texts between quotes.

A text that is written between quotes is read as the same text, whatever characters it has, and
reading stops at its closing quote (`text?_escape`).
-/
namespace AnalysisGate.Json

/-- The piece that the spelling of a character is read as: a control without a letter of its own
is spelled by its code. -/
def pieceOf (c : Char) : Piece :=
  if c.toNat < 0x20 ∧ c ∉ ['\n', '\r', '\t', '\x08', '\x0c'] then .unit c.toNat else .char c

theorem hexWorth?_hexDigit {n : Nat} (h : n < 16) :
    Numeral.hexWorth? (Numeral.hexDigit n) = some n := by
  interval_cases n <;> decide

theorem unit?_code {n : Nat} (h : n < 0x20) :
    unit? '0' '0' (Numeral.hexDigit (n / 16)) (Numeral.hexDigit (n % 16)) = some n := by
  have hzero : Numeral.hexWorth? '0' = some 0 := by decide
  have hhigh := hexWorth?_hexDigit (n := n / 16) (by omega)
  have hlow := hexWorth?_hexDigit (n := n % 16) (by omega)
  simp only [unit?, Numeral.hexValue?, List.foldl_cons, List.foldl_nil, hzero, hhigh, hlow,
    Option.pure_def, Option.bind_eq_bind, Option.bind_some]
  congr 1
  omega

/-- The spelling of a character is read as one piece. -/
theorem pieces?_escape (c : Char) (rest : List Char) :
    pieces? (escape c ++ rest) = (pieces? rest).map fun (l, r) => (pieceOf c :: l, r) := by
  by_cases hplain : c = '"' ∨ c = '\\' ∨ c ∈ ['\n', '\r', '\t', '\x08', '\x0c']
  · simp only [List.mem_cons, List.not_mem_nil, or_false] at hplain
    rcases hplain with rfl | rfl | rfl | rfl | rfl | rfl | rfl <;> rfl
  · simp only [not_or] at hplain
    obtain ⟨hquote, hslash, hletter⟩ := hplain
    have hletters := hletter
    simp only [List.mem_cons, List.not_mem_nil, or_false, not_or] at hletters
    obtain ⟨hn, hr, ht, hb, hf⟩ := hletters
    by_cases hcontrol : c.toNat < 0x20
    · have hunit := unit?_code hcontrol
      simp [escape, hquote, hslash, hn, hr, ht, hb, hf, hcontrol, pieces?, hunit, pieceOf]
    · have hescape : escape c = [c] := by
        simp [escape, hquote, hslash, hn, hr, ht, hb, hf, hcontrol]
      rw [hescape, List.singleton_append]
      simp [pieces?, hslash, hcontrol, pieceOf]

theorem pieces?_flatMap_escape (cs rest : List Char) :
    pieces? (cs.flatMap escape ++ '"' :: rest) = some (cs.map pieceOf, rest) := by
  induction cs with
  | nil => rfl
  | cons c cs ih => simp [pieces?_escape, ih]

/-- A unit that is no half of a pair is a character of its own, whatever follows it. -/
theorem join?_unit {u : Nat} (h : u < 0xd800) (l : List Piece) :
    join? (.unit u :: l) = (join? l).map (Char.ofNat u :: ·) := by
  have hhigh : isHigh u = false := by simp [isHigh]; omega
  have hlow : isLow u = false := by simp [isLow]; omega
  cases l with
  | nil => simp [join?, hhigh, hlow]
  | cons p l => cases p <;> simp [join?, hhigh, hlow]

theorem join?_map_pieceOf (cs : List Char) : join? (cs.map pieceOf) = some cs := by
  induction cs with
  | nil => rfl
  | cons c cs ih =>
    rw [List.map_cons, pieceOf]
    split
    · next hc =>
      rw [join?_unit (by omega), ih, Option.map_some, Char.ofNat_toNat]
    · rw [join?, ih, Option.map_some]

/-- **A quoted text is read as itself**, up to its closing quote. -/
theorem text?_escape (s : String) (rest : List Char) :
    text? (s.toList.flatMap escape ++ '"' :: rest) = some (some s, rest) := by
  rw [text?, pieces?_flatMap_escape, Option.map_some]
  simp only [join?_map_pieceOf, Option.map_some, String.ofList_toList]

end AnalysisGate.Json
