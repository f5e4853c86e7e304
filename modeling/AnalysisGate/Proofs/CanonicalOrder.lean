import AnalysisGate.Diagnostic
import Mathlib

/-!
The canonical order of diagnostics.

The order looks at one field after the other, so it is an order because the order of every field
is one, and it leaves no field out, so only equal diagnostics tie. Sorting puts the same diagnostics
in ascending order, and there is one such list of them (`Diagnostic.eq_sort_iff`).
-/
namespace AnalysisGate.Diagnostic

theorem canonical_eq_compareLex : canonical = compareLex (compareOn Diagnostic.path)
    (compareLex (compareOn Diagnostic.line) (compareLex (compareOn Diagnostic.column)
      (compareLex (compareOn Diagnostic.severity) (compareLex (compareOn Diagnostic.rule)
        (compareOn Diagnostic.message))))) := rfl

instance : Std.TransCmp canonical := by
  rw [canonical_eq_compareLex]
  infer_instance

theorem sort_perm (l : List Diagnostic) : (sort l).Perm l := List.mergeSort_perm l _

theorem pairwise_sort (l : List Diagnostic) :
    (sort l).Pairwise fun a b => (canonical a b).isLE = true := by
  refine List.pairwise_mergeSort (fun a b c hab hbc => ?_) (fun a b => ?_) l
  · exact Std.TransCmp.isLE_trans hab hbc
  · rw [Bool.or_eq_true]
    by_cases hab : (canonical a b).isLE = true
    · exact .inl hab
    · rw [Std.OrientedCmp.lt_of_not_isLE hab]
      exact .inr rfl

/-- Only diagnostics with six equal fields tie. -/
theorem canonical_eq_iff {a b : Diagnostic} : canonical a b = .eq ↔ a = b := by
  cases a
  cases b
  simp only [canonical, Ordering.then_eq_eq, Std.LawfulEqCmp.compare_eq_iff_eq,
    Diagnostic.mk.injEq]

/-- In canonical order. -/
def Ascending (l : List Diagnostic) : Prop := l.Pairwise fun a b => (canonical a b).isLE = true

/-- **The sorted list is the only one in canonical order** that has the same diagnostics. -/
theorem eq_sort_iff {l l' : List Diagnostic} : l' = sort l ↔ l'.Perm l ∧ Ascending l' := by
  constructor
  · rintro rfl
    exact ⟨sort_perm l, pairwise_sort l⟩
  · rintro ⟨hperm, hascending⟩
    have hantisymm : ∀ a b : Diagnostic, a ∈ l' → b ∈ sort l → (canonical a b).isLE = true →
        (canonical b a).isLE = true → a = b := by
      intro a b _ _ hab hba
      exact canonical_eq_iff.1 (Std.OrientedCmp.isLE_antisymm hab hba)
    exact (hperm.trans (sort_perm l).symm).eq_of_pairwise hantisymm hascending (pairwise_sort l)

theorem sort_eq_of_perm {l l' : List Diagnostic} (h : l'.Perm l) : sort l' = sort l :=
  eq_sort_iff.2 ⟨(sort_perm l').trans h, pairwise_sort l'⟩

end AnalysisGate.Diagnostic
