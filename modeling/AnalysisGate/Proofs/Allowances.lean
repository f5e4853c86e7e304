import AnalysisGate.Proofs.Acceptance
import AnalysisGate.Proofs.Counting
import Mathlib

/-!
What one pass over a budget does to its allowances.

Pruning changes no allowance. An update puts each allowance of a selected run to the count, or to
the floor where that is larger, but never above what it was (`allowed_updateRun`,
`toNat_tighten`); it changes neither severities nor floors. A refresh changes no allowance, and a
run that it adds allows nothing.
-/
namespace AnalysisGate

/-! ## Pruning -/

/-- An allowance of zero that is dropped is still an allowance of zero. -/
theorem SeverityCounts.count_filter_pos (c : SeverityCounts) (s : Severity) :
    count (c.filter fun _ n => 0 < n) s = count c s := by
  unfold count
  rw [SortedMap.get?_filter]
  cases c.get? s with
  | none => rfl
  | some n =>
    by_cases h : 0 < n
    · simp [Option.filter, h]
    · have hzero : n = 0 := UInt64.le_antisymm (UInt64.not_lt.1 h) UInt64.zero_le
      simp [Option.filter, hzero]

theorem RunBudget.cell_prunePaths (paths : PathCounts) (path : String) (s : Severity) :
    (prunePaths paths).cell path s = paths.cell path s := by
  unfold prunePaths PathCounts.cell
  rw [SortedMap.get?_filterMap]
  cases paths.get? path with
  | none => rfl
  | some counts =>
    have hkept := SeverityCounts.count_filter_pos counts s
    simp only [Option.bind_some, Option.getD_some]
    split
    · next hempty =>
      rw [← hkept]
      simp [SeverityCounts.count, SortedMap.get?_of_isEmpty hempty]
    · exact hkept

/-! ## Updating -/

namespace Ratchet

/-- A tightened allowance in natural numbers. -/
theorem toNat_tighten (floor actual allowed : UInt64) :
    (tighten floor actual allowed).toNat = min allowed.toNat (max floor.toNat actual.toNat) := by
  unfold tighten
  split
  · next h =>
    have hle := UInt64.le_iff_toNat_le.1 h
    omega
  · rw [UInt64.toNat_min, UInt64.toNat_max]

@[simp] theorem tighten_zero (floor actual : UInt64) : tighten floor actual 0 = 0 := by
  simp [tighten]

theorem cell_tightenPaths (targets : SeverityCounts) (counts paths : PathCounts) (path : String)
    (s : Severity) :
    (tightenPaths targets counts paths).cell path s =
      tighten (targets.count s) (counts.cell path s) (paths.cell path s) := by
  unfold tightenPaths PathCounts.cell
  rw [SortedMap.get?_mapValues]
  cases paths.get? path with
  | none => simp
  | some allowances =>
    simp only [Option.map_some, Option.getD_some, SeverityCounts.count]
    rw [SortedMap.get?_mapValues]
    cases allowances.get? s <;> simp

/-- A severity with an allowance somewhere is one of those that are counted. -/
theorem contains_allowedSeverities {paths : PathCounts} {path : String} {s : Severity}
    (h : paths.cell path s ≠ 0) : (allowedSeverities paths).contains s = true := by
  rw [SortedMap.contains_iff_mem_keys, allowedSeverities, SortedSet.mem_keys_ofList,
    List.mem_flatMap]
  unfold PathCounts.cell SeverityCounts.count at h
  cases hpath : paths.get? path with
  | none => simp [hpath] at h
  | some allowances =>
    refine ⟨allowances, SortedMap.mem_values_of_get? hpath, ?_⟩
    rw [SortedMap.mem_keys]
    cases hs : allowances.get? s with
    | none => simp [hpath, hs] at h
    | some n => rfl

theorem allowed_updateRun (m : Manifest) (run : String) (held : RunBudget) (path : String)
    (s : Severity) :
    (updateRun (m.run? run) held).allowed path s =
      tighten (held.floor s) (UInt64.ofNat (m.tally run path s)) (held.allowed path s) := by
  change PathCounts.cell (RunBudget.prunePaths _) path s = _
  rw [RunBudget.cell_prunePaths, cell_tightenPaths, Manifest.cell_countsOf]
  change tighten (held.floor s) _ (held.paths.cell path s) =
    tighten (held.floor s) _ (held.paths.cell path s)
  by_cases hzero : held.paths.cell path s = 0
  · simp [hzero]
  · rw [if_pos (contains_allowedSeverities hzero)]

theorem get?_update (m : Manifest) (b : Budget) (selection : Selection) (run : String) :
    (update m b selection).runs.get? run =
      (b.runs.get? run).map fun held =>
        if selection.includes run then updateRun (m.run? run) held else held :=
  SortedMap.get?_mapValues _ _ _

/-! ## Refreshing -/

/-- Of runs with different ids, each changes what is held under its own id. -/
theorem get?_foldl_refreshRun (l : List ManifestRun) (h : (l.map ManifestRun.id).Nodup)
    (runs : SortedMap String RunBudget) (run : String) :
    (l.foldl (fun runs r => runs.alter r.id (refreshRun r)) runs).get? run =
      match l.find? (·.id == run) with
      | some r => some (refreshRun r (runs.get? run))
      | none => runs.get? run := by
  induction l generalizing runs with
  | nil => rfl
  | cons a rest ih =>
    obtain ⟨hnew, hrest⟩ := List.nodup_cons.1 h
    rw [List.foldl_cons, ih hrest, SortedMap.alter, SortedMap.get?_insert, List.find?_cons]
    by_cases hid : a.id = run
    · subst hid
      have hnone : rest.find? (·.id == a.id) = none := by
        refine List.find?_eq_none.2 fun r hr => ?_
        simpa using fun heq : r.id = a.id => hnew (heq ▸ List.mem_map_of_mem hr)
      simp [hnone]
    · have hne : (a.id == run) = false := by simpa using hid
      simp [hne, Ne.symm hid]

/-- Among the selected runs one is found if it is selected and in the list at all. -/
theorem find?_selected (selection : Selection) (run : String) (l : List ManifestRun) :
    (l.filter fun r => selection.includes r.id).find? (·.id == run) =
      if selection.includes run then l.find? (·.id == run) else none := by
  induction l with
  | nil => simp
  | cons a rest ih =>
    rw [List.filter_cons, List.find?_cons (a := a)]
    by_cases hid : a.id = run
    · subst hid
      cases hselected : selection.includes a.id <;> simp [hselected, ih]
    · have hne : (a.id == run) = false := by simpa using hid
      cases selection.includes a.id <;> simp [hne, ih]

theorem get?_refresh {m : Manifest} (haccepted : m.Accepted) (b : Budget) (selection : Selection)
    (run : String) :
    (refresh m b selection).runs.get? run =
      match m.run? run with
      | some r => if selection.includes run then some (refreshRun r (b.runs.get? run))
        else b.runs.get? run
      | none => b.runs.get? run := by
  have hnodup : ((m.runs.filter fun r => selection.includes r.id).map ManifestRun.id).Nodup :=
    (List.filter_sublist.map ManifestRun.id).nodup haccepted.nodup
  unfold refresh
  rw [get?_foldl_refreshRun _ hnodup, find?_selected, ← Manifest.run?]
  cases selection.includes run <;> cases m.run? run <;> simp

/-- A run allows what it did, and one that is new allows nothing. -/
theorem allowed_refreshRun (r : ManifestRun) (held : Option RunBudget) (path : String)
    (s : Severity) :
    (refreshRun r held).allowed path s = (held.getD .empty).allowed path s := by
  cases held <;> rfl

end Ratchet

end AnalysisGate
