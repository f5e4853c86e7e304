import AnalysisGate.CacheKey
import Mathlib

/-!
Texts of cache keys.

Every digest has 64 digits, so the digest in the text of a key is where the text ends: keys of
different digests have different texts, whatever their tools and modes are.
-/
namespace AnalysisGate

namespace Sha256

theorem length_hexWord (x : UInt32) : (hexWord x).length = 8 := by
  simp [hexWord]

theorem size_rounds (w : Array UInt32) (ts : List Nat) {s : Array UInt32} (h : s.size = 8) :
    (ts.foldl (round w) s).size = 8 := by
  induction ts generalizing s with
  | nil => exact h
  | cons t ts ih => exact ih rfl

theorem size_compress {state : Array UInt32} (block : List UInt32) (h : state.size = 8) :
    (compress state block).size = 8 := by
  rw [compress, Array.size_zipWith, size_rounds _ _ h, h]
  rfl

theorem size_digest (bytes : List UInt8) : (digest bytes).size = 8 := by
  rw [digest]
  generalize blocks _ _ = blocks
  have hinitial : initial.size = 8 := rfl
  generalize initial = state at hinitial
  induction blocks generalizing state with
  | nil => exact hinitial
  | cons block blocks ih => exact ih _ (size_compress block hinitial)

/-- A digest has 64 digits. -/
theorem length_hex (text : String) : (hex text).toList.length = 64 := by
  have hsize := size_digest text.toUTF8.toList
  rw [hex, String.toList_ofList, List.length_flatMap, List.map_congr_left fun x _ =>
    length_hexWord x, List.map_const', List.sum_replicate, Array.length_toList, hsize]
  rfl

end Sha256

/-- Keys of one text have one digest. -/
theorem CacheKey.hex_of_text {k k' : CacheKey} (h : k.text = k'.text) :
    Sha256.hex k.canonicalText = Sha256.hex k'.canonicalText := by
  have htext := congrArg String.toList h
  simp only [text, String.toList_append] at htext
  refine String.toList_injective (List.append_inj_right' htext ?_)
  rw [Sha256.length_hex, Sha256.length_hex]

end AnalysisGate
