import AnalysisGate.Proofs.Gate
import Mathlib

/-!
The differences that findings state.

The difference of a finding is taken of its two counts as signed integers of 64 bits, so it is the
integer difference modulo `2 ^ 64`. It is that difference, and its sign tells the kind of the
finding, exactly if an integer of 64 bits can be that difference (`Ratchet.signed_iff_fits`). Where
none can, the sign tells the other kind: a count of `2 ^ 63` where none is allowed is a violation
with a negative difference (`Ratchet.difference_reversed`).
-/
namespace AnalysisGate

namespace Finding

/-- By how much a count is above its allowance; negative for one below it. -/
def excess (f : Finding) : Int := f.actual.toNat - f.allowed.toNat

/-- An integer of 64 bits can be the difference. -/
def Fits (f : Finding) : Prop := -2 ^ 63 ≤ f.excess ∧ f.excess < 2 ^ 63

/-- The difference of a finding adds up, and its sign tells the kind. -/
structure Signed (f : Finding) : Prop where
  violation : f.kind = .violation → 0 < f.delta.toInt
  improvement : f.kind = .improvement → f.delta.toInt < 0
  adds : (f.actual.toNat : Int) = f.allowed.toNat + f.delta.toInt

/-- A count that is read as a signed integer wraps at half the range. -/
theorem toInt_toInt64 (n : UInt64) : n.toInt64.toInt = (n.toNat : Int).bmod (2 ^ 64) := by
  show n.toBitVec.toInt = _
  rw [BitVec.toInt_eq_toNat_bmod]
  rfl

/-- Signed integers of 64 bits differ by the counts' difference, modulo `2 ^ 64`. -/
theorem toInt_sub_toInt64 (actual allowed : UInt64) :
    (actual.toInt64 - allowed.toInt64).toInt =
      ((actual.toNat : Int) - allowed.toNat).bmod (2 ^ 64) := by
  rw [Int64.toInt_sub, toInt_toInt64, toInt_toInt64, ← Int.sub_bmod]

/-- The excess of counts is less than the whole range on either side. -/
theorem excess_bounds (f : Finding) : -2 ^ 64 < f.excess ∧ f.excess < 2 ^ 64 := by
  have hactual := f.actual.toNat_lt
  have hallowed := f.allowed.toNat_lt
  show -2 ^ 64 < (f.actual.toNat : Int) - f.allowed.toNat ∧ _ - _ < _
  omega

/-- A number beyond the signed range is stated by the one that is `2 ^ 64` below or above it. -/
theorem bmod_of_not_fits {f : Finding} (h : ¬ f.Fits) :
    f.excess.bmod (2 ^ 64) =
      if 0 < f.excess then f.excess - 2 ^ 64 else f.excess + 2 ^ 64 := by
  obtain ⟨hlow, hhigh⟩ := f.excess_bounds
  rw [Fits] at h
  split
  · next hpositive =>
    calc f.excess.bmod (2 ^ 64)
        = (f.excess - 2 ^ 64).bmod (2 ^ 64) := (Int.sub_bmod_right _ _).symm
      _ = f.excess - 2 ^ 64 := by apply Int.bmod_eq_of_le <;> norm_num <;> omega
  · next hnegative =>
    calc f.excess.bmod (2 ^ 64)
        = (f.excess + 2 ^ 64).bmod (2 ^ 64) := (Int.add_bmod_right _ _).symm
      _ = f.excess + 2 ^ 64 := by apply Int.bmod_eq_of_le <;> norm_num <;> omega

/-- What is known of a finding whatever the range: the excess says the kind, and the difference is
the excess up to a multiple of `2 ^ 64`. -/
structure Differs (f : Finding) : Prop where
  nonzero : f.excess ≠ 0
  kind : f.kind = .violation ↔ 0 < f.excess
  delta : f.delta.toInt = f.excess.bmod (2 ^ 64)

theorem differs_of_classify {path : String} {s : Severity} {allowed actual : UInt64} {f : Finding}
    (h : classify path s allowed actual = some f) : f.Differs := by
  obtain ⟨-, -, rfl, rfl, hne, hkind, hdelta⟩ := classify_eq_some_iff.1 h
  have hnat : f.actual.toNat ≠ f.allowed.toNat := fun heq => hne (UInt64.toNat_inj.1 heq)
  constructor
  · show (f.actual.toNat : Int) - f.allowed.toNat ≠ 0
    omega
  · rw [hkind, UInt64.lt_iff_toNat_lt]
    show _ ↔ 0 < (f.actual.toNat : Int) - f.allowed.toNat
    omega
  · rw [hdelta, toInt_sub_toInt64]
    rfl

theorem Differs.not_positive {f : Finding} (h : f.Differs) (hkind : f.kind = .improvement) :
    ¬ 0 < f.excess := by
  rw [← h.kind, hkind]
  decide

/-- A difference that fits is stated as it is. -/
theorem Differs.signed {f : Finding} (h : f.Differs) (hfits : f.Fits) : f.Signed := by
  have hdelta : f.delta.toInt = f.excess := by
    obtain ⟨hlow, hhigh⟩ := hfits
    rw [h.delta]
    apply Int.bmod_eq_of_le <;> norm_num <;> omega
  have hne := h.nonzero
  constructor
  · intro hkind
    rw [hdelta]
    exact h.kind.1 hkind
  · intro hkind
    have hnot := h.not_positive hkind
    omega
  · rw [hdelta, excess]
    omega

/-- A difference that does not fit is stated with the other sign. -/
theorem Differs.reversed {f : Finding} (h : f.Differs) (hfits : ¬ f.Fits) :
    (f.kind = .violation → f.delta.toInt < 0) ∧ (f.kind = .improvement → 0 < f.delta.toInt) := by
  obtain ⟨hlow, hhigh⟩ := f.excess_bounds
  have hdelta := h.delta
  rw [bmod_of_not_fits hfits] at hdelta
  constructor
  · intro hkind
    rw [if_pos (h.kind.1 hkind)] at hdelta
    omega
  · intro hkind
    rw [if_neg (h.not_positive hkind)] at hdelta
    omega

/-- A finding is signed exactly if its difference fits. -/
theorem Differs.signed_iff {f : Finding} (h : f.Differs) : f.Signed ↔ f.Fits := by
  refine ⟨fun hsigned => ?_, h.signed⟩
  by_contra hfits
  obtain ⟨habove, hbelow⟩ := h.reversed hfits
  cases hkind : f.kind with
  | violation =>
    have hpositive := hsigned.violation hkind
    have hnegative := habove hkind
    omega
  | improvement =>
    have hnegative := hsigned.improvement hkind
    have hpositive := hbelow hkind
    omega

end Finding

namespace Ratchet

/-- A finding of a report classifies a cell. -/
theorem differs_of_report {m : Manifest} {b : Budget} {selection : Selection} {r : RunReport}
    (hr : r ∈ (report m b selection).runs) {f : Finding} (hf : f ∈ r.findings) : f.Differs := by
  obtain ⟨run, -, rfl⟩ := List.mem_map.1 hr
  exact Finding.differs_of_classify (mem_findings.1 hf).2

/-- **The difference of a finding adds up and its sign tells the kind, exactly if an integer of 64
bits can be that difference**; where none can, the sign tells the other kind. -/
theorem signed_iff_fits (m : Manifest) (b : Budget) (selection : Selection) :
    ∀ r ∈ (report m b selection).runs, ∀ f ∈ r.findings,
      (f.Signed ↔ f.Fits) ∧
        (¬ f.Fits → (f.kind = .violation → f.delta.toInt < 0) ∧
          (f.kind = .improvement → 0 < f.delta.toInt)) := by
  intro r hr f hf
  have hdiffers := differs_of_report hr hf
  exact ⟨hdiffers.signed_iff, hdiffers.reversed⟩

/-- A run that counts errors in one file. -/
def errorsIn (path : String) (n : UInt64) : Manifest :=
  ⟨[⟨"lint", "strict", [⟨path, n, 0, 0, none⟩], .null⟩]⟩

/-- A budget that allows the run errors in one file. -/
def allowingIn (path : String) (n : UInt64) : Budget :=
  { Budget.empty .epoch with
    runs := SortedMap.ofList [("lint:strict",
      ⟨.empty, SortedMap.ofList [(path, SortedMap.ofList [(.error, n)])], .empty, none⟩)] }

/-- Both counts are in the upper half of the range, and their difference of two fits. -/
theorem signed_iff_fits_upper :
    let m := errorsIn "a.py" 0x8000000000000007
    let b := allowingIn "a.py" 0x8000000000000005
    m.Accepted ∧ ∃ r ∈ (report m b .all).runs, ∃ f ∈ r.findings,
      f.kind = .violation ∧ f.Fits ∧ f.Signed := by
  intro m b
  let f : Finding := ⟨.violation, "a.py", .error, 0x8000000000000005, 0x8000000000000007, 2⟩
  have hr : runReport m b "lint:strict" ∈ (report m b .all).runs :=
    List.mem_map_of_mem (List.mem_singleton.2 rfl)
  have hf : f ∈ (runReport m b "lint:strict").findings := by decide +kernel
  have hfits : f.Fits := by constructor <;> decide
  exact ⟨rfl, _, hr, f, hf, rfl, hfits, (signed_iff_fits m b .all _ hr f hf).1.2 hfits⟩

/-- A count of `2 ^ 63` where none is allowed is stated with a negative difference, and no count
where one more than that is allowed with a positive one. -/
theorem difference_reversed :
    let m := errorsIn "a.py" 0x8000000000000000
    let b := allowingIn "b.py" 0x8000000000000001
    m.Accepted ∧ ∃ r ∈ (report m b .all).runs,
      (∃ f ∈ r.findings, f.kind = .violation ∧ f.delta.toInt < 0) ∧
        ∃ f ∈ r.findings, f.kind = .improvement ∧ 0 < f.delta.toInt := by
  intro m b
  have hr : runReport m b "lint:strict" ∈ (report m b .all).runs :=
    List.mem_map_of_mem (List.mem_singleton.2 rfl)
  refine ⟨rfl, _, hr, ?_, ?_⟩ <;> decide +kernel

end Ratchet

end AnalysisGate
