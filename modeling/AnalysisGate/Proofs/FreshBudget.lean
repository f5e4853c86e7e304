import AnalysisGate.Proofs.Allowances
import AnalysisGate.Proofs.Gate
import Mathlib

/-!
Budgets as they are built.

A budget that is built from a manifest has the selected runs of it and no others. It allows each
cell of a tracked severity what the manifest counts there (`allowed_build`), and it stores no
allowance of zero (`RunBudget.stored_prunePaths`). Compared with such a budget the manifest shows
no finding and no changed configuration, for any part of the runs that the budget was built of
(`build_fresh`).
-/
namespace AnalysisGate

/-- A run budget stores allowances that are not zero, and paths that have one. -/
def RunBudget.Pruned (held : RunBudget) : Prop :=
  ∀ path counts, held.paths.get? path = some counts →
    counts.isEmpty = false ∧ ∀ s n, counts.get? s = some n → 0 < n

theorem RunBudget.stored_prunePaths {paths : PathCounts} {path : String} {counts : SeverityCounts}
    (h : (prunePaths paths).get? path = some counts) :
    counts.isEmpty = false ∧ ∀ s n, counts.get? s = some n → 0 < n := by
  rw [prunePaths, SortedMap.get?_filterMap] at h
  obtain ⟨all, -, hkept⟩ := Option.bind_eq_some_iff.1 h
  simp only at hkept
  split at hkept
  · cases hkept
  · next hempty =>
    cases hkept
    refine ⟨Bool.eq_false_iff.2 hempty, fun s n hn => ?_⟩
    rw [SortedMap.get?_filter] at hn
    obtain ⟨-, hpositive⟩ := Option.filter_eq_some_iff.1 hn
    exact of_decide_eq_true hpositive

namespace Ratchet

/-- What is tracked is tracked of itself: there is always a severity to track. -/
theorem trackedOr_trackedOr (named : SortedSet Severity) :
    trackedOr (trackedOr named) = trackedOr named := by
  have hnonempty : (trackedOr named).isEmpty = false := by
    unfold trackedOr
    split
    · decide
    · next h => exact Bool.eq_false_iff.2 h
  conv_lhs => rw [trackedOr, hnonempty]
  rfl

section Build

variable {m : Manifest} (haccepted : m.Accepted) (now : Timestamp) (selection : Selection)
  (severities : SortedSet Severity) (targets : SeverityCounts)

include haccepted

/-- A built budget holds the selected runs of the manifest. -/
theorem get?_build (run : String) :
    (build now m selection severities targets).runs.get? run =
      if selection.includes run then
        (m.run? run).map (buildRun (trackedOr severities) targets)
      else none := by
  have hids : ((m.runs.filter fun r => selection.includes r.id).map ManifestRun.id).Nodup :=
    (List.filter_sublist.map ManifestRun.id).nodup haccepted.nodup
  refine Option.ext fun held => ?_
  rw [build, SortedMap.get?_ofList_eq_some (by rw [List.map_map]; exact hids), List.mem_map]
  constructor
  · rintro ⟨r, hr, heq⟩
    obtain ⟨rfl, rfl⟩ := Prod.mk.inj heq
    obtain ⟨hmem, hselected⟩ := List.mem_filter.1 hr
    rw [if_pos hselected, haccepted.run?_of_mem hmem]
    rfl
  · intro h
    split at h
    · next hselected =>
      obtain ⟨r, hr, rfl⟩ := Option.map_eq_some_iff.1 h
      obtain ⟨hmem, rfl⟩ := Manifest.id_of_run? hr
      exact ⟨r, List.mem_filter.2 ⟨hmem, hselected⟩, rfl⟩
    · cases h

theorem mem_keys_build (run : String) :
    run ∈ (build now m selection severities targets).runs.keys ↔
      selection.includes run = true ∧ run ∈ m.runs.map ManifestRun.id := by
  rw [SortedMap.mem_keys, get?_build haccepted]
  cases hselected : selection.includes run with
  | false => simp
  | true =>
    rw [if_pos rfl, Option.isSome_map, List.mem_map]
    constructor
    · intro h
      obtain ⟨r, hr⟩ := Option.isSome_iff_exists.1 h
      exact ⟨rfl, r, Manifest.id_of_run? hr⟩
    · rintro ⟨-, r, hr, rfl⟩
      rw [haccepted.run?_of_mem hr]
      rfl

/-- A built budget allows what the manifest says of a cell, as a 64-bit count. -/
theorem allowed_build_eq (run path : String) (s : Severity) :
    (build now m selection severities targets).allowed run path s =
      if selection.includes run = true ∧ s.Tracked severities then
        UInt64.ofNat (m.tally run path s)
      else 0 := by
  rw [Budget.allowed, get?_build haccepted]
  cases hselected : selection.includes run with
  | false => simp [RunBudget.allowed, RunBudget.empty]
  | true =>
    rw [if_pos rfl]
    cases hrun : m.run? run with
    | none => simp [RunBudget.allowed, RunBudget.empty, Manifest.tally_of_absent hrun]
    | some r =>
      have hcell : (buildRun (trackedOr severities) targets r).allowed path s =
          if (trackedOr severities).contains s then UInt64.ofNat (r.tally path s) else 0 := by
        show PathCounts.cell (RunBudget.prunePaths (r.counts _)) path s = _
        rw [RunBudget.cell_prunePaths, ManifestRun.cell_counts]
      rw [Option.map_some, Option.getD_some, hcell, Manifest.tally_of_run? hrun]
      by_cases htracked : s.Tracked severities
      · rw [if_pos (contains_trackedOr.2 htracked), if_pos ⟨rfl, htracked⟩]
      · rw [if_neg fun h => htracked (contains_trackedOr.1 h), if_neg fun h => htracked h.2]

/-- **A built budget allows what the manifest counts**, in the selected runs and for the tracked
severities. -/
theorem allowed_build (hfit : m.Countable) (run path : String) (s : Severity) :
    ((build now m selection severities targets).allowed run path s).toNat =
      if selection.includes run = true ∧ s.Tracked severities then m.tally run path s else 0 := by
  rw [allowed_build_eq haccepted]
  split
  · exact UInt64.toNat_ofNat_of_lt' (hfit.tally_lt run path s)
  · rfl

theorem tracks_build {run : String} (h : selection.includes run = true)
    (hrun : run ∈ m.runs.map ManifestRun.id) (s : Severity) :
    (build now m selection severities targets).Tracks run s ↔ s.Tracked severities := by
  obtain ⟨r, hr, rfl⟩ := List.mem_map.1 hrun
  rw [← RunBudget.contains_tracked, get?_build haccepted, if_pos h, haccepted.run?_of_mem hr]
  show (trackedOr (trackedOr severities)).contains s = true ↔ s.Tracked severities
  rw [trackedOr_trackedOr, contains_trackedOr]

/-- There is nothing to find in a run that a budget was built of. -/
theorem findings_build (hfit : m.Countable) {run : String} (h : selection.includes run = true)
    (hrun : run ∈ m.runs.map ManifestRun.id) :
    (runReport m (build now m selection severities targets) run).findings = [] := by
  refine List.eq_nil_iff_forall_not_mem.2 fun f hf => ?_
  have hstates := (mem_findings_runReport hfit _ run f).1 hf
  have htracked := (tracks_build haccepted now selection severities targets h hrun _).1
    hstates.tracked
  have hallowed := allowed_build haccepted now selection severities targets hfit run f.path
    f.severity
  rw [if_pos ⟨h, htracked⟩, ← hstates.actual, ← hstates.allowed] at hallowed
  exact hstates.differs (UInt64.toNat_inj.1 hallowed.symm)

theorem signatureMatches_build {run : String} (h : selection.includes run = true) :
    (runReport m (build now m selection severities targets) run).signatureMatches = true := by
  rw [signatureMatches_runReport haccepted]
  rintro r hr rfl
  refine ⟨buildRun (trackedOr severities) targets r, .ofRun r, ?_, rfl, rfl⟩
  rw [get?_build haccepted, if_pos h, haccepted.run?_of_mem hr]
  rfl

/-- **A built budget is exact, and the manifest that it was built of passes it**, whatever part of
the selected runs is compared. -/
theorem build_fresh (hfit : m.Countable) :
    let b := build now m selection severities targets
    (∀ run, run ∈ b.runs.keys ↔
      selection.includes run = true ∧ run ∈ m.runs.map ManifestRun.id) ∧
    (∀ run path s, (b.allowed run path s).toNat =
      if selection.includes run = true ∧ s.Tracked severities then m.tally run path s else 0) ∧
    (∀ run held, b.runs.get? run = some held → held.Pruned) ∧
    ∀ selection' : Selection, (∀ r ∈ m.runs, selection'.includes r.id = true →
        selection.includes r.id = true) →
      (∀ rr ∈ (report m b selection').runs, rr.findings = [] ∧ rr.signatureMatches = true) ∧
        (report m b selection').exitCode false = 0 := by
  intro b
  refine ⟨mem_keys_build haccepted now selection severities targets,
    allowed_build haccepted now selection severities targets hfit, ?_, fun selection' hpart => ?_⟩
  · intro run held hheld path counts hcounts
    rw [get?_build haccepted] at hheld
    split at hheld
    · obtain ⟨r, -, rfl⟩ := Option.map_eq_some_iff.1 hheld
      exact RunBudget.stored_prunePaths hcounts
    · cases hheld
  · have hclean : ∀ rr ∈ (report m b selection').runs,
        rr.findings = [] ∧ rr.signatureMatches = true := by
      rw [forall_runs_report]
      intro run hrun
      obtain ⟨hselected', hsource⟩ := mem_reportedRuns.1 hrun
      -- a run that only the budget has is one of the manifest's too
      have hmanifest : run ∈ m.runs.map ManifestRun.id := by
        rcases hsource with hmem | hmem
        · exact hmem
        · exact ((mem_keys_build haccepted now selection severities targets run).1 hmem).2
      obtain ⟨r, hr, rfl⟩ := List.mem_map.1 hmanifest
      have hselected := hpart r hr hselected'
      exact ⟨findings_build haccepted now selection severities targets hfit hselected hmanifest,
        signatureMatches_build haccepted now selection severities targets hselected⟩
    refine ⟨hclean, Report.exitCode_eq_zero_iff.2 ⟨fun rr hrr f hf => ?_, .inr fun rr hrr => ?_⟩⟩
    · rw [(hclean rr hrr).1] at hf
      cases hf
    · exact (hclean rr hrr).2

end Build

/-- A list, totals and a respelled path of one run, of which the errors are tracked: its two errors
are allowed, its warning is not stored, and the run passes. -/
theorem build_fresh_mixed :
    let listed : FileReport := ⟨"a.py", 0, 0, 0, some [⟨"error", .empty⟩, ⟨"info", .empty⟩]⟩
    let m : Manifest := ⟨[⟨"lint", "strict", [listed, ⟨"./a.py", 1, 1, 0, none⟩], .null⟩,
      ⟨"types", "loose", [⟨"b.py", 3, 0, 0, none⟩], .null⟩]⟩
    let selection : Selection := .only (SortedSet.ofList ["lint:strict"])
    let b := build .epoch m selection (SortedSet.ofList [.error]) .empty
    m.Accepted ∧ m.Countable ∧ (b.allowed "lint:strict" "a.py" .error).toNat = 2 ∧
      (b.allowed "lint:strict" "a.py" .warning).toNat = 0 ∧
      (report m b selection).exitCode false = 0 := by
  intro listed m selection b
  have haccepted : m.Accepted := rfl
  have hfit : m.Countable := by
    refine Manifest.countable_of_totals fun r hr s => ?_
    simp only [m, List.mem_cons, List.not_mem_nil, or_false] at hr
    rcases hr with rfl | rfl <;> cases s <;> decide +kernel
  obtain ⟨-, hallowed, -, hpart⟩ :=
    build_fresh haccepted .epoch selection (SortedSet.ofList [.error]) .empty hfit
  refine ⟨haccepted, hfit, ?_, ?_, (hpart selection fun _ _ => id).2⟩
  · rw [hallowed]
    decide +kernel
  · rw [hallowed]
    decide +kernel

end Ratchet

end AnalysisGate
