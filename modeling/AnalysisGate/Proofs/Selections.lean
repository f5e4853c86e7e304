import AnalysisGate.Proofs.Idempotence
import Mathlib

/-!
Updates and selections.

An update treats the runs apart, and a run that is tight already is not touched again. So of two
updates after one manifest it matters only which runs one of them selects
(`Ratchet.update_of_includes`): they compose to the update of the union, in either order.
-/
namespace AnalysisGate

/-! ## Unions -/

namespace SortedSet

variable {κ : Type} [Ord κ] [Std.TransOrd κ] [Std.LawfulEqOrd κ] [DecidableEq κ]

theorem mem_keys_union {s t : SortedSet κ} {k : κ} :
    k ∈ (s.union t).keys ↔ k ∈ s.keys ∨ k ∈ t.keys := by
  refine (SortedMap.mem_keys_foldl_insert id (fun _ => ()) t.keys s).trans ?_
  simp

theorem contains_union (s t : SortedSet κ) (k : κ) :
    (s.union t).contains k = (s.contains k || t.contains k) := by
  rw [Bool.eq_iff_iff, Bool.or_eq_true]
  simp only [SortedMap.contains_iff_mem_keys]
  exact mem_keys_union

end SortedSet

namespace Selection

/-- The runs of two selections. -/
def union : Selection → Selection → Selection
  | only x, only y => only (SortedSet.union x y)
  | all, _ | only _, all => all

theorem includes_union (s t : Selection) (run : String) :
    (s.union t).includes run = (s.includes run || t.includes run) := by
  cases s with
  | all => rfl
  | only x =>
    cases t with
    | all => exact (Bool.or_true _).symm
    | only y => exact SortedSet.contains_union x y run

end Selection

/-! ## Two updates -/

namespace Ratchet

/-- Two updates after one manifest are the update of the runs that either of them selects. -/
theorem update_of_includes (m : Manifest) (b : Budget) {s t both : Selection}
    (h : ∀ run, both.includes run = (s.includes run || t.includes run)) :
    update m (update m b s) t = update m b both := by
  have hruns : (update m (update m b s) t).runs = (update m b both).runs := by
    refine SortedMap.ext_get? fun run => ?_
    rw [get?_update, get?_update, get?_update, Option.map_map]
    refine congrArg (fun f => (b.runs.get? run).map f) (funext fun held => ?_)
    have hrun := h run
    cases hs : s.includes run <;> cases ht : t.includes run <;>
      simp [hs, ht, hrun, updateRun_updateRun]
  change ({ update m b both with runs := (update m (update m b s) t).runs } : Budget) =
    update m b both
  rw [hruns]

/-- **Updates compose over selections**, as whole budgets. In particular an update is idempotent,
two of them commute, and a run that is not selected is held as it was. -/
theorem update_union (m : Manifest) (b : Budget) (s t : Selection) :
    (∀ x y, update m (update m b (.only x)) (.only y) = update m b (.only (x.union y))) ∧
    update m (update m b s) t = update m b (s.union t) ∧
    update m (update m b s) .all = update m b .all ∧
    update m (update m b .all) s = update m b .all ∧
    update m (update m b s) s = update m b s ∧
    update m (update m b s) t = update m (update m b t) s ∧
    ∀ run, (update m b s).runs.get? run =
      if s.includes run then (b.runs.get? run).map (updateRun (m.run? run))
      else b.runs.get? run := by
  have hunion := update_of_includes m b (Selection.includes_union s t)
  refine ⟨fun x y => ?_, hunion, ?_, ?_, ?_, ?_, fun run => ?_⟩
  · exact update_of_includes m b (Selection.includes_union (.only x) (.only y))
  · exact update_of_includes m b fun run => (Bool.or_true _).symm
  · exact update_of_includes m b fun run => rfl
  · exact update_of_includes m b fun run => (Bool.or_self _).symm
  · rw [hunion, update_of_includes m b fun run => ?_]
    rw [Selection.includes_union, Bool.or_comm]
  · rw [get?_update]
    cases s.includes run <;> simp

end Ratchet

end AnalysisGate
