import AnalysisGate.Severity
import AnalysisGate.Proofs.Numerals
import AnalysisGate.Proofs.Trimming
import Mathlib

/-!
Texts of floors.

A floor is a word for a severity and a count with a `=` between them, the first of the text, and
either may have blanks around it. Each text is one of four kinds (`FloorReading`), which say what is
read of it, so what is read, and which of the two faults is told, is exactly what the grammar says
(`parseFloor_exact`).
-/
namespace AnalysisGate

/-! ## Words for severities -/

namespace Severity

/-- The words for a severity. -/
def spellings : Severity → List String
  | error => ["error", "errors"]
  | warning => ["warning", "warnings"]
  | information => ["information", "info"]

/-- A token without the blanks around it, and in small letters, is a word for the severity. -/
def SpelledBy (s : Severity) (token : String) : Prop :=
  ∃ core, Text.Strips token.toList core ∧ String.ofList (core.map Char.toLower) ∈ s.spellings

variable {s : Severity} {token : String}

theorem ofSpelling?_eq_some_iff {cs : List Char} :
    ofSpelling? cs = some s ↔ String.ofList cs ∈ s.spellings := by
  rw [ofSpelling?]
  constructor
  · intro h
    split at h
    · cases h
      simpa [spellings]
    · split at h
      · cases h
        simpa [spellings]
      · split at h
        · cases h
          simpa [spellings]
        · cases h
  · intro h
    cases s <;>
    · simp only [spellings, List.mem_cons, List.not_mem_nil, or_false] at h
      rcases h with h | h <;> rw [h] <;> rfl

theorem ofToken?_eq_some_iff : ofToken? token = some s ↔ s.SpelledBy token := by
  rw [ofToken?, ofSpelling?_eq_some_iff]
  constructor
  · intro h
    exact ⟨_, Text.strips_trim _, h⟩
  · rintro ⟨core, hcore, h⟩
    rwa [Text.trim_eq_iff.2 hcore]

theorem parse_eq_ok_iff : parse token = .ok s ↔ s.SpelledBy token := by
  rw [← ofToken?_eq_some_iff, parse]
  cases ofToken? token <;> simp

theorem parse_of_unspelled (h : ∀ s : Severity, ¬ s.SpelledBy token) :
    parse token = .error ⟨token⟩ := by
  rw [parse]
  cases htoken : ofToken? token with
  | none => rfl
  | some s => exact absurd (ofToken?_eq_some_iff.1 htoken) (h s)

/-- The name of a severity is a word for it. -/
theorem spelledBy_name (s : Severity) : s.SpelledBy s.name :=
  ⟨s.name.toList, Text.strips_self (by cases s <;> simp [name, Text.isBlank]),
    by cases s <;> decide +kernel⟩

end Severity

/-! ## Two halves -/

/-- A text parted at its first `=`. -/
structure Halves (spec token count : String) : Prop where
  text : spec = token ++ "=" ++ count
  first : '=' ∉ token.toList

theorem exists_halves {spec : String} (h : '=' ∈ spec.toList) :
    ∃ token count, Halves spec token count := by
  obtain ⟨a, b, htext, hfirst⟩ := List.eq_append_cons_of_mem h
  refine ⟨String.ofList a, String.ofList b, String.toList_injective ?_, ?_⟩
  · simpa using htext
  · rwa [String.toList_ofList]

theorem splitAtEquals_of_whole {cs : List Char} (h : '=' ∉ cs) : splitAtEquals cs = none := by
  induction cs with
  | nil => rfl
  | cons c cs ih =>
    rw [List.mem_cons, not_or] at h
    rw [splitAtEquals, if_neg (Ne.symm h.1), ih h.2]
    rfl

theorem splitAtEquals_append {a : List Char} (h : '=' ∉ a) (b : List Char) :
    splitAtEquals (a ++ '=' :: b) = some (a, b) := by
  induction a with
  | nil => rfl
  | cons c a ih =>
    rw [List.mem_cons, not_or] at h
    rw [List.cons_append, splitAtEquals, if_neg (Ne.symm h.1), ih h.2]
    rfl

theorem Halves.split {spec token count : String} (h : Halves spec token count) :
    splitAtEquals spec.toList = some (token.toList, count.toList) := by
  rw [h.text, ← splitAtEquals_append h.first]
  simp

/-! ## Readings -/

/-- A text without the blanks around it denotes a number. -/
def StatesCount (count : String) (n : Nat) : Prop :=
  ∃ core, Text.Strips count.toList core ∧ Numeral.Denotes core n

theorem readBelow?_trim_iff {bound n : Nat} {count : String} :
    Numeral.readBelow? bound (Text.trim count.toList) = some n ↔
      StatesCount count n ∧ n < bound := by
  rw [Numeral.readBelow?_eq_some_iff]
  refine and_congr_left fun _ => ⟨fun h => ⟨_, Text.strips_trim _, h⟩, ?_⟩
  rintro ⟨core, hcore, h⟩
  rwa [Text.trim_eq_iff.2 hcore]

/-- The numeral of a number states it. -/
theorem statesCount_text (n : Nat) : StatesCount (Numeral.text n) n := by
  refine ⟨Numeral.digits n, ?_, Numeral.denotes_digits n⟩
  rw [Numeral.text, String.toList_ofList]
  exact Text.strips_self fun c hc => Text.isBlank_of_isDigit (Numeral.isDigit_of_mem_digits hc)

/-- What is read of a text: it has no `=`, or its first half is no word for a severity, or the other
half states no count that fits, or it is a floor. -/
inductive FloorReading (spec : String) : Except FloorError (Severity × UInt64) → Prop
  | whole (h : '=' ∉ spec.toList) : FloorReading spec (.error (.shape spec))
  | unspelled {token count : String} (h : Halves spec token count)
      (hs : ∀ s : Severity, ¬ s.SpelledBy token) : FloorReading spec (.error (.severity ⟨token⟩))
  | uncounted {token count : String} {s : Severity} (h : Halves spec token count)
      (hs : s.SpelledBy token) (hn : ∀ n < 2 ^ 64, ¬ StatesCount count n) :
      FloorReading spec (.error (.shape spec))
  | counted {token count : String} {s : Severity} {n : UInt64} (h : Halves spec token count)
      (hs : s.SpelledBy token) (hn : StatesCount count n.toNat) : FloorReading spec (.ok (s, n))

/-- Every text is of one of the kinds. -/
theorem exists_floorReading (spec : String) : ∃ r, FloorReading spec r := by
  by_cases hequals : '=' ∈ spec.toList
  · obtain ⟨token, count, h⟩ := exists_halves hequals
    by_cases hs : ∃ s : Severity, s.SpelledBy token
    · obtain ⟨s, hs⟩ := hs
      by_cases hn : ∃ n < 2 ^ 64, StatesCount count n
      · obtain ⟨n, hlt, hn⟩ := hn
        refine ⟨.ok (s, UInt64.ofNat n), .counted h hs ?_⟩
        rwa [UInt64.toNat_ofNat_of_lt' hlt]
      · exact ⟨_, .uncounted h hs (by simpa using hn)⟩
    · exact ⟨_, .unspelled h (by simpa using hs)⟩
  · exact ⟨_, .whole hequals⟩

theorem FloorReading.parseFloor_eq {spec : String} {r : Except FloorError (Severity × UInt64)}
    (h : FloorReading spec r) : parseFloor spec = r := by
  cases h with
  | whole h => simp only [parseFloor, splitAtEquals_of_whole h]
  | unspelled h hs =>
    simp only [parseFloor, h.split, String.ofList_toList, Severity.parse_of_unspelled hs]
  | @uncounted token count s h hs hn =>
    have hread : Numeral.readBelow? UInt64.size (Text.trim count.toList) = none := by
      rw [Option.eq_none_iff_forall_ne_some]
      intro n hread
      obtain ⟨hstated, hlt⟩ := readBelow?_trim_iff.1 hread
      exact hn n hlt hstated
    simp only [parseFloor, h.split, String.ofList_toList, Severity.parse_eq_ok_iff.2 hs, hread]
  | counted h hs hn =>
    have hread := readBelow?_trim_iff.2 ⟨hn, UInt64.toNat_lt_size _⟩
    simp only [parseFloor, h.split, String.ofList_toList, Severity.parse_eq_ok_iff.2 hs, hread,
      UInt64.ofNat_toNat]

theorem parseFloor_eq_iff {spec : String} {r : Except FloorError (Severity × UInt64)} :
    parseFloor spec = r ↔ FloorReading spec r := by
  constructor
  · rintro rfl
    obtain ⟨r, hr⟩ := exists_floorReading spec
    rwa [hr.parseFloor_eq]
  · exact FloorReading.parseFloor_eq

/-- **A floor is read exactly from the texts of the grammar**, and of all others it is told which of
the two faults they have: the first half is no word for a severity, or else the text is no floor. -/
theorem parseFloor_exact (spec : String) :
    (∀ s n, parseFloor spec = .ok (s, n) ↔ ∃ token count, Halves spec token count ∧
      s.SpelledBy token ∧ StatesCount count n.toNat) ∧
    (∀ e, parseFloor spec = .error (.severity e) ↔ ∃ token count, Halves spec token count ∧
      (∀ s : Severity, ¬ s.SpelledBy token) ∧ e = ⟨token⟩) ∧
    (∀ t, parseFloor spec = .error (.shape t) ↔ t = spec ∧ ('=' ∉ spec.toList ∨
      ∃ token count, Halves spec token count ∧ (∃ s : Severity, s.SpelledBy token) ∧
        ∀ n < 2 ^ 64, ¬ StatesCount count n)) ∧
    ∀ (s : Severity) (n : UInt64),
      parseFloor (s.name ++ "=" ++ Numeral.text n.toNat) = .ok (s, n) := by
  simp only [parseFloor_eq_iff]
  refine ⟨fun s n => ⟨?_, ?_⟩, fun e => ⟨?_, ?_⟩, fun t => ⟨?_, ?_⟩, fun s n => ?_⟩
  · intro h
    cases h with
    | counted h hs hn => exact ⟨_, _, h, hs, hn⟩
  · rintro ⟨token, count, h, hs, hn⟩
    exact .counted h hs hn
  · intro h
    cases h with
    | unspelled h hs => exact ⟨_, _, h, hs, rfl⟩
  · rintro ⟨token, count, h, hs, rfl⟩
    exact .unspelled h hs
  · intro h
    cases h with
    | whole h => exact ⟨rfl, .inl h⟩
    | uncounted h hs hn => exact ⟨rfl, .inr ⟨_, _, h, ⟨_, hs⟩, hn⟩⟩
  · rintro ⟨rfl, h | ⟨token, count, h, ⟨s, hs⟩, hn⟩⟩
    · exact .whole h
    · exact .uncounted h hs hn
  · exact .counted ⟨rfl, by cases s <;> decide⟩ s.spelledBy_name (statesCount_text _)

/-- Blanks, capitals, a plus sign and zeros, and the least count that does not fit. -/
example : parseFloor " WARNINGS =\t+007 " = .ok (.warning, 7) ∧
    parseFloor "error=18446744073709551616" = .error (.shape "error=18446744073709551616") := by
  decide +kernel

end AnalysisGate
