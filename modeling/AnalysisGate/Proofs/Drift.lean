import AnalysisGate.Proofs.Gate
import AnalysisGate.Proofs.Allowances
import Mathlib

/-!
Refreshing signatures.

A refresh makes the selected runs of a manifest match, and nothing else about a report changes: the
runs that it adds allow nothing, as absent ones do, and track what absent ones track
(`Ratchet.findings_runReport_refresh`). So a gate that ignores signatures and one on refreshed
signatures agree.
-/
namespace AnalysisGate

/-! ## Findings -/

namespace Ratchet

/-- Findings depend on what is tracked and on what is allowed. -/
theorem findings_of_budget {before after : RunBudget} (htracked : after.tracked = before.tracked)
    (hpaths : after.paths = before.paths) (counts : PathCounts) :
    findings after counts = findings before counts := by
  have hallowed : ∀ path s, after.allowed path s = before.allowed path s := fun path s => by
    rw [RunBudget.allowed, hpaths, RunBudget.allowed]
  unfold findings
  simp only [htracked, hpaths, hallowed]

theorem paths_refreshRun (r : ManifestRun) (held : Option RunBudget) :
    (refreshRun r held).paths = (held.getD .empty).paths := by
  cases held <;> rfl

/-- A run that is added tracks by name what it tracks by default. -/
theorem tracked_refreshRun (r : ManifestRun) (held : Option RunBudget) :
    (refreshRun r held).tracked = (held.getD .empty).tracked := by
  cases held <;> rfl

variable {m : Manifest}

/-! ## What is held after a refresh -/

theorem get?_refresh_selected (h : m.Accepted) (b : Budget) {selection : Selection}
    {r : ManifestRun} (hr : r ∈ m.runs) (hselected : selection.includes r.id = true) :
    (refresh m b selection).runs.get? r.id = some (refreshRun r (b.runs.get? r.id)) := by
  rw [get?_refresh h, h.run?_of_mem hr]
  exact if_pos hselected

/-- A run that is not selected, or did not take place, is held as it was. -/
theorem get?_refresh_spared (h : m.Accepted) (b : Budget) {selection : Selection} {run : String}
    (hspared : ¬ (selection.includes run = true ∧ run ∈ m.runs.map ManifestRun.id)) :
    (refresh m b selection).runs.get? run = b.runs.get? run := by
  rw [get?_refresh h]
  cases hrun : m.run? run with
  | none => rfl
  | some r =>
    obtain ⟨hmem, rfl⟩ := Manifest.id_of_run? hrun
    exact if_neg fun hselected => hspared ⟨hselected, List.mem_map_of_mem hmem⟩

/-- What a refresh does to a run. -/
theorem refresh_cases (h : m.Accepted) (b : Budget) (selection : Selection) (run : String) :
    (selection.includes run = true ∧ ∃ r ∈ m.runs, r.id = run ∧
      (refresh m b selection).runs.get? run = some (refreshRun r (b.runs.get? run))) ∨
    (¬ (selection.includes run = true ∧ run ∈ m.runs.map ManifestRun.id) ∧
      (refresh m b selection).runs.get? run = b.runs.get? run) := by
  by_cases hspared : selection.includes run = true ∧ run ∈ m.runs.map ManifestRun.id
  · obtain ⟨hselected, hmem⟩ := hspared
    obtain ⟨r, hr, rfl⟩ := List.mem_map.1 hmem
    exact .inl ⟨hselected, r, hr, rfl, get?_refresh_selected h b hr hselected⟩
  · exact .inr ⟨hspared, get?_refresh_spared h b hspared⟩

theorem mem_keys_refresh (h : m.Accepted) (b : Budget) (selection : Selection) (run : String) :
    run ∈ (refresh m b selection).runs.keys ↔
      run ∈ b.runs.keys ∨ selection.includes run = true ∧ run ∈ m.runs.map ManifestRun.id := by
  rw [SortedMap.mem_keys, SortedMap.mem_keys]
  obtain ⟨hselected, r, hr, rfl, hget⟩ | ⟨hspared, hget⟩ := refresh_cases h b selection run
  · rw [hget]
    exact iff_of_true rfl (.inr ⟨hselected, List.mem_map_of_mem hr⟩)
  · rw [hget]
    exact (or_iff_left hspared).symm

/-! ## The report after a refresh -/

theorem reportedRuns_refresh (h : m.Accepted) (b : Budget) (selection : Selection) :
    reportedRuns m (refresh m b selection) selection = reportedRuns m b selection := by
  unfold reportedRuns
  refine congrArg (fun ids : SortedSet String => ids.keys.filter selection.includes)
    (SortedSet.ofList_congr fun run => ?_)
  rw [List.mem_append, List.mem_append, mem_keys_refresh h, Manifest.runIds,
    SortedSet.mem_keys_ofList]
  tauto

theorem findings_runReport_refresh (h : m.Accepted) (b : Budget) (selection : Selection)
    (run : String) :
    (runReport m (refresh m b selection) run).findings = (runReport m b run).findings := by
  obtain ⟨-, r, -, -, hget⟩ | ⟨-, hget⟩ := refresh_cases h b selection run
  · simp only [runReport, hget, Option.getD_some]
    rw [tracked_refreshRun]
    exact findings_of_budget (tracked_refreshRun _ _) (paths_refreshRun _ _) _
  · simp only [runReport, hget]

theorem signatureMatches_refresh (h : m.Accepted) (b : Budget) {selection : Selection}
    {run : String} (hselected : selection.includes run = true) :
    (runReport m (refresh m b selection) run).signatureMatches = true := by
  refine signatureMatches_of_renewed fun r hr => ?_
  obtain ⟨hmem, rfl⟩ := Manifest.id_of_run? hr
  rw [get?_refresh_selected h b hmem hselected]
  rfl

end Ratchet

/-! ## The exit code -/

namespace Report

theorem hasViolations_congr {r r' : Report}
    (h : r'.runs.map (·.findings) = r.runs.map (·.findings)) :
    r'.hasViolations = r.hasViolations := by
  have hcount (r : Report) : r.violationCount =
      ((r.runs.map (·.findings)).flatMap fun l => l.filter Finding.isViolation).length := by
    rw [violationCount, List.flatMap_map]
    rfl
  rw [hasViolations, hasViolations, hcount, hcount, h]

/-- A report without drift has the exit code that it has where drift is ignored. -/
theorem exitCode_of_matching {r : Report} (h : ∀ rr ∈ r.runs, rr.signatureMatches = true) :
    r.exitCode false = r.exitCode true := by
  have hnone : r.mismatches = [] := by
    simpa [mismatches, List.filter_eq_nil_iff] using h
  simp [exitCode, hnone]

end Report

namespace Ratchet

variable {m : Manifest} {b : Budget} {selection : Selection} {run : String}

/-- Every run matches, and has the findings that it had. -/
theorem runs_report_refresh (h : m.Accepted) :
    (report m (refresh m b selection) selection).runs.map
        (fun r => (r.runId, r.signatureMatches, r.findings)) =
      (report m b selection).runs.map (fun r => (r.runId, true, r.findings)) := by
  unfold report
  rw [reportedRuns_refresh h, List.map_map, List.map_map]
  refine List.map_congr_left fun run hrun => ?_
  have hselected := (mem_reportedRuns.1 hrun).1
  simp only [Function.comp_apply, Prod.mk.injEq]
  exact ⟨rfl, signatureMatches_refresh h b hselected, findings_runReport_refresh h b selection run⟩

/-- A gate on refreshed signatures decides as one that ignores signatures. -/
theorem exitCode_refresh (h : m.Accepted) :
    (report m (refresh m b selection) selection).exitCode false =
      (report m b selection).exitCode true := by
  have hfindings : (report m (refresh m b selection) selection).runs.map (·.findings) =
      (report m b selection).runs.map (·.findings) := by
    simpa [Function.comp_def] using congrArg (List.map fun t => t.2.2) (runs_report_refresh h)
  have hmatching : ∀ rr ∈ (report m (refresh m b selection) selection).runs,
      rr.signatureMatches = true :=
    forall_runs_report.2 fun run hrun => signatureMatches_refresh h b (mem_reportedRuns.1 hrun).1
  rw [Report.exitCode_of_matching hmatching]
  simp only [Report.exitCode, Report.hasViolations_congr hfindings, Bool.not_true, Bool.false_and]

/-- A run that the budget has keeps all but its signature. -/
theorem get?_refresh_held (h : m.Accepted) {held : RunBudget}
    (hheld : b.runs.get? run = some held) :
    ∃ signature, (refresh m b selection).runs.get? run =
      some { held with signature := signature } := by
  obtain ⟨-, r, -, -, hget⟩ | ⟨-, hget⟩ := refresh_cases h b selection run
  · exact ⟨some (.ofRun r), by rw [hget, hheld]; rfl⟩
  · exact ⟨held.signature, by rw [hget, hheld]⟩

/-- A run that is added has no allowances. -/
theorem paths_refresh_added (h : m.Accepted) (hnew : b.runs.get? run = none) {added : RunBudget}
    (hadded : (refresh m b selection).runs.get? run = some added) : added.paths = .empty := by
  obtain ⟨-, r, -, -, hget⟩ | ⟨-, hget⟩ := refresh_cases h b selection run
  · rw [hget, hnew] at hadded
    obtain rfl := Option.some.inj hadded
    rfl
  · rw [hget, hnew] at hadded
    cases hadded

/-- **A refresh clears drift and nothing else.** In the report every run matches and has the
findings that it had, so the gate decides as one that ignores signatures. In the budget every run
keeps what it tracks, its allowances and its floors; runs that are not selected or did not take
place are held as they were; and what is added are selected runs of the manifest, without
allowances. -/
theorem report_refresh (h : m.Accepted) (b : Budget) (selection : Selection) :
    let now := refresh m b selection
    (report m now selection).runs.map (fun r => (r.runId, r.signatureMatches, r.findings)) =
      (report m b selection).runs.map (fun r => (r.runId, true, r.findings)) ∧
    (report m now selection).exitCode false = (report m b selection).exitCode true ∧
    (∀ run held, b.runs.get? run = some held →
      ∃ signature, now.runs.get? run = some { held with signature := signature }) ∧
    (∀ run, ¬ (selection.includes run = true ∧ run ∈ m.runs.map ManifestRun.id) →
      now.runs.get? run = b.runs.get? run) ∧
    ∀ run, b.runs.get? run = none →
      (run ∈ now.runs.keys ↔
        selection.includes run = true ∧ run ∈ m.runs.map ManifestRun.id) ∧
      ∀ added, now.runs.get? run = some added → added.paths = .empty := by
  intro now
  refine ⟨runs_report_refresh h, exitCode_refresh h, fun run held => get?_refresh_held h,
    fun run => get?_refresh_spared h b, fun run hnew => ⟨?_, fun added => ?_⟩⟩
  · have habsent : run ∉ b.runs.keys := by simp [SortedMap.mem_keys, hnew]
    rw [mem_keys_refresh h]
    exact or_iff_right habsent
  · exact paths_refresh_added h hnew

/-- A run that has drifted and one that is new: after the refresh the gate passes. -/
theorem report_refresh_drifted :
    let m : Manifest := ⟨[⟨"lint", "strict", [⟨"a.py", 1, 0, 0, none⟩], .null⟩,
      ⟨"types", "strict", [], .null⟩]⟩
    let held : RunBudget :=
      ⟨.empty, SortedMap.ofList [("a.py", SortedMap.ofList [(.error, 1)])], .empty, none⟩
    let b : Budget := { Budget.empty .epoch with runs := SortedMap.ofList [("lint:strict", held)] }
    m.Accepted ∧ (report m b .all).exitCode false = 1 ∧
      (report m (refresh m b .all) .all).exitCode false = 0 := by
  intro m held b
  have haccepted : m.Accepted := rfl
  refine ⟨haccepted, by decide, ?_⟩
  rw [(report_refresh haccepted b .all).2.1]
  decide

end Ratchet

end AnalysisGate
