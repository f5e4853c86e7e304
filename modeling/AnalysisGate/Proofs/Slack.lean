import AnalysisGate.Proofs.Gate
import AnalysisGate.Proofs.History
import AnalysisGate.Proofs.Idempotence
import Mathlib

/-!
What an update leaves to report.

An update takes up slack and nothing else. A violation is reported after it as before it. Of the
improvements those go whose count is not below the floor, since their allowance comes down to the
count; the others are left with the floor for an allowance, where it is lower
(`Ratchet.findings_tightened`). Where an allowance of a run comes down its signature is renewed, so
it matches; elsewhere signatures are as they were.
-/
namespace AnalysisGate

/-! ## One finding -/

namespace Finding

/-- The finding with no more allowed than a floor. -/
def lowerTo (floor : UInt64) (f : Finding) : Finding :=
  { f with
    allowed := min f.allowed floor
    delta := f.actual.toInt64 - (min f.allowed floor).toInt64 }

@[simp] theorem isViolation_lowerTo (floor : UInt64) (f : Finding) :
    (f.lowerTo floor).isViolation = f.isViolation := rfl

/-- What an update leaves of a finding under a floor: a violation as it is, and an improvement
whose count is below the floor, which is then all that is allowed. -/
def remains? (floor : UInt64) (f : Finding) : Option Finding :=
  if f.isViolation then some f
  else if f.actual < floor then some (f.lowerTo floor)
  else none

theorem place_of_remains {floor : UInt64} {f g : Finding} (h : f.remains? floor = some g) :
    g.path = f.path ∧ g.severity = f.severity := by
  unfold remains? at h
  split at h
  · cases h
    exact ⟨rfl, rfl⟩
  · split at h
    · cases h
      exact ⟨rfl, rfl⟩
    · cases h

/-- The finding of a tightened allowance is what remains of the finding. -/
theorem classify_tighten (path : String) (s : Severity) (floor allowed actual : UInt64) :
    classify path s (Ratchet.tighten floor actual allowed) actual =
      (classify path s allowed actual).bind (remains? floor) := by
  by_cases hover : allowed < actual
  · -- a violation: there is nothing to tighten
    have htight : Ratchet.tighten floor actual allowed = allowed :=
      if_pos (UInt64.le_of_lt hover)
    simp [htight, classify, hover, remains?, isViolation]
  -- an improvement: what is allowed goes down to the count, or to the floor if that is higher
  by_cases hunder : actual < allowed
  · have htight : Ratchet.tighten floor actual allowed = min allowed (max floor actual) :=
      if_neg (UInt64.not_le.2 hunder)
    by_cases hfloor : actual < floor
    · have hmin : actual < min allowed floor := by
        rw [UInt64.lt_iff_toNat_lt, UInt64.toNat_min]
        rw [UInt64.lt_iff_toNat_lt] at hunder hfloor
        omega
      have hfloored : min allowed (max floor actual) = min allowed floor := by
        refine UInt64.toNat_inj.1 ?_
        rw [UInt64.lt_iff_toNat_lt] at hfloor
        simp only [UInt64.toNat_min, UInt64.toNat_max]
        omega
      rw [htight, hfloored]
      simp [classify, hover, hunder, hmin, UInt64.lt_asymm hmin, remains?, isViolation, hfloor,
        lowerTo]
    · have hcounted : min allowed (max floor actual) = actual := by
        refine UInt64.toNat_inj.1 ?_
        rw [UInt64.lt_iff_toNat_lt] at hunder hfloor
        simp only [UInt64.toNat_min, UInt64.toNat_max]
        omega
      rw [htight, hcounted]
      simp [classify, hover, hunder, remains?, isViolation, hfloor]
  · -- neither: the allowance is the count and stays
    have heq : actual = allowed :=
      UInt64.le_antisymm (UInt64.not_lt.1 hover) (UInt64.not_lt.1 hunder)
    subst heq
    simp [Ratchet.tighten, classify]

end Finding

/-! ## The findings of a run -/

namespace RunReport

/-- What an update leaves of the report on a run, where floors are as given and `lowered` says
whether an allowance of the run came down. -/
structure Leaves (floor : Severity → UInt64) (lowered : Prop) (before after : RunReport) :
    Prop where
  runId : after.runId = before.runId
  violations : after.violations = before.violations
  improvements : after.improvements =
    (before.improvements.filter fun f => f.actual < floor f.severity).map fun f =>
      f.lowerTo (floor f.severity)
  renewed : lowered → after.signatureMatches = true
  kept : ¬ lowered → after.signatureMatches = before.signatureMatches

variable {before after : RunReport} {floor : Severity → UInt64}

theorem violations_of_remains
    (h : after.findings = before.findings.filterMap fun f => f.remains? (floor f.severity)) :
    after.violations = before.violations := by
  unfold violations
  rw [h, List.filter_filterMap, ← List.filterMap_eq_filter]
  refine List.filterMap_congr fun f _ => ?_
  unfold Finding.remains?
  by_cases hviolation : f.isViolation = true
  · simp [Option.filter, Option.guard, hviolation]
  · by_cases hfloor : f.actual < floor f.severity <;>
      simp [Option.filter, Option.guard, hviolation, hfloor]

theorem improvements_of_remains
    (h : after.findings = before.findings.filterMap fun f => f.remains? (floor f.severity)) :
    after.improvements =
      (before.improvements.filter fun f => f.actual < floor f.severity).map fun f =>
        f.lowerTo (floor f.severity) := by
  unfold improvements
  rw [h, List.filter_filterMap, List.filter_filter, ← List.filterMap_eq_map,
    List.filterMap_filter]
  refine List.filterMap_congr fun f _ => ?_
  unfold Finding.remains?
  by_cases hviolation : f.isViolation = true
  · simp [Option.filter, hviolation]
  · by_cases hfloor : f.actual < floor f.severity <;> simp [Option.filter, hviolation, hfloor]

end RunReport

namespace Ratchet

/-- Findings against allowances that were tightened after the counts are what remains of the
findings against the allowances before. -/
theorem findings_tightened {before after : RunBudget} {counts : PathCounts}
    {floor : Severity → UInt64} (htracked : after.tracked = before.tracked)
    (hallowed : ∀ path s, before.tracked.contains s = true →
      after.allowed path s = tighten (floor s) (counts.cell path s) (before.allowed path s)) :
    findings after counts =
      (findings before counts).filterMap fun f => f.remains? (floor f.severity) := by
  -- the paths that are walked may differ, so the lists are compared by order and members
  refine List.Pairwise.eq_of_mem_iff (findings_ascending _ _) ?_ fun f => ?_
  · refine List.pairwise_filterMap.2 ((findings_ascending before counts).imp ?_)
    intro f g hfg f' hf g' hg
    obtain ⟨hfp, hfs⟩ := Finding.place_of_remains hf
    obtain ⟨hgp, hgs⟩ := Finding.place_of_remains hg
    simpa only [Finding.Before, hfp, hfs, hgp, hgs] using hfg
  · rw [mem_findings, htracked, List.mem_filterMap]
    constructor
    · rintro ⟨hs, hf⟩
      rw [hallowed f.path f.severity hs, Finding.classify_tighten, Option.bind_eq_some_iff] at hf
      obtain ⟨g, hg, hremains⟩ := hf
      obtain ⟨hpath, hseverity, -⟩ := Finding.classify_eq_some_iff.1 hg
      refine ⟨g, mem_findings.2 ?_, by rwa [hseverity]⟩
      rw [hpath, hseverity]
      exact ⟨hs, hg⟩
    · rintro ⟨g, hg, hremains⟩
      obtain ⟨hs, hg⟩ := mem_findings.1 hg
      obtain ⟨hpath, hseverity⟩ := Finding.place_of_remains hremains
      rw [hpath, hseverity, hallowed g.path g.severity hs, Finding.classify_tighten, hg]
      exact ⟨hs, hremains⟩

/-! ## Signatures -/

/-- An update changes the stored allowances of a run only by lowering one. -/
theorem tightenPaths_ne_iff (m : Manifest) (run : String) (held : RunBudget) :
    tightenPaths held.targets (countsFor (m.run? run) held.paths) held.paths ≠ held.paths ↔
      ∃ path s, (updateRun (m.run? run) held).allowed path s < held.allowed path s := by
  constructor
  · intro hmoved
    by_contra hnone
    refine hmoved (tightenPaths_eq_self fun path allowances hpath s n hs => ?_)
    have hcell : held.paths.cell path s = n := by
      simp [PathCounts.cell, SeverityCounts.count, hpath, hs]
    have hallowed : held.allowed path s = n := hcell
    -- a zero is not counted, and cannot come down
    by_cases hzero : n = 0
    · rw [hzero, tighten_zero]
    rw [countsFor, Manifest.cell_countsOf, if_pos (contains_allowedSeverities (hcell ▸ hzero))]
    have hkept : ¬ (updateRun (m.run? run) held).allowed path s < held.allowed path s :=
      fun hlt => hnone ⟨path, s, hlt⟩
    rw [allowed_updateRun, hallowed, UInt64.lt_iff_toNat_lt, toNat_tighten] at hkept
    refine UInt64.toNat_inj.1 ?_
    rw [toNat_tighten]
    have hfloor : (held.floor s).toNat = (held.targets.count s).toNat := rfl
    omega
  · rintro ⟨path, s, hlt⟩ hsame
    have hcell : (updateRun (m.run? run) held).allowed path s = held.allowed path s := by
      rw [updateRun_eq]
      simp only [hsame]
      exact RunBudget.cell_prunePaths held.paths path s
    rw [hcell] at hlt
    exact UInt64.lt_irrefl _ hlt

theorem signature_of_lowered {m : Manifest} {run : String} {held : RunBudget}
    (h : ∃ path s, (updateRun (m.run? run) held).allowed path s < held.allowed path s) :
    (updateRun (m.run? run) held).signature =
      ((m.run? run).map EngineSignature.ofRun).or held.signature := by
  simp only [updateRun_eq]
  rw [if_neg ((tightenPaths_ne_iff m run held).2 h)]

theorem signature_of_kept {m : Manifest} {run : String} {held : RunBudget}
    (h : ¬ ∃ path s, (updateRun (m.run? run) held).allowed path s < held.allowed path s) :
    (updateRun (m.run? run) held).signature = held.signature := by
  have hsame : tightenPaths held.targets (countsFor (m.run? run) held.paths) held.paths =
      held.paths := not_not.1 (mt (tightenPaths_ne_iff m run held).1 h)
  simp only [updateRun_eq]
  rw [if_pos hsame, Option.none_or]

/-! ## The report of a run -/

variable {m : Manifest} {b : Budget} {selection : Selection} {run : String}

theorem findings_runReport_update (hselected : selection.includes run = true) :
    (runReport m (update m b selection) run).findings =
      (runReport m b run).findings.filterMap fun f => f.remains? (b.floor run f.severity) := by
  simp only [runReport, get?_update, hselected, if_true, Budget.floor]
  cases hheld : b.runs.get? run with
  | none =>
    -- a run that the budget does not have: nothing is allowed before or after
    refine findings_tightened rfl fun path s _ => ?_
    exact (tighten_zero _ _).symm
  | some held =>
    refine findings_tightened rfl fun path s hs => ?_
    have htally := m.cell_countsOf run held.tracked path s
    rw [if_pos (show held.tracked.contains s = true from hs)] at htally
    simp only [Option.map_some, Option.getD_some]
    rw [allowed_updateRun, ← htally]
    rfl

theorem leaves_runReport (hselected : selection.includes run = true) :
    RunReport.Leaves (b.floor run)
      (∃ path s, (update m b selection).allowed run path s < b.allowed run path s)
      (runReport m b run) (runReport m (update m b selection) run) where
  runId := rfl
  violations := RunReport.violations_of_remains (findings_runReport_update hselected)
  improvements := RunReport.improvements_of_remains (findings_runReport_update hselected)
  renewed := by
    intro hlowered
    refine signatureMatches_of_renewed fun r hr => ?_
    simp only [Budget.allowed, get?_update, hselected, if_true] at hlowered ⊢
    cases hheld : b.runs.get? run with
    | none =>
      obtain ⟨path, s, hlt⟩ := hlowered
      rw [hheld] at hlt
      exact absurd hlt (UInt64.lt_irrefl _)
    | some held =>
      rw [hheld] at hlowered
      rw [Option.map_some, Option.getD_some, signature_of_lowered hlowered, hr]
      rfl
  kept := by
    intro hkept
    simp only [Budget.allowed, runReport, get?_update, hselected, if_true] at hkept ⊢
    cases hheld : b.runs.get? run with
    | none => rfl
    | some held =>
      rw [hheld] at hkept
      rw [Option.map_some, Option.getD_some, signature_of_kept hkept]
      rfl

theorem reportedRuns_update (m : Manifest) (b : Budget) (selection : Selection) :
    reportedRuns m (update m b selection) selection = reportedRuns m b selection := by
  have hkeys : (update m b selection).runs.keys = b.runs.keys := by
    simp [update, SortedMap.keys, SortedMap.mapValues, Function.comp_def]
  rw [reportedRuns, hkeys, reportedRuns]

theorem runId_mem_report_update {run : String} :
    run ∈ (report m (update m b selection) selection).runs.map (·.runId) ↔
      selection.includes run = true ∧ (run ∈ m.runs.map ManifestRun.id ∨ run ∈ b.runs.keys) := by
  rw [map_runId_report, reportedRuns_update, mem_reportedRuns]

/-- A run has an allowance that can come down only if the budget has the run. -/
theorem mem_keys_of_lowered {path : String} {s : Severity}
    (h : (update m b selection).allowed run path s < b.allowed run path s) :
    run ∈ b.runs.keys := by
  by_contra habsent
  have hnone := SortedMap.get?_none_of_not_mem habsent
  have hnothing : b.allowed run path s = 0 := by
    rw [Budget.allowed, hnone]
    rfl
  rw [hnothing] at h
  exact UInt64.not_lt_zero h

/-- **What is left after an update**. It is reported on the same runs: those of the manifest and of
the budget that are selected. Each has the violations it had, and of its improvements those whose
count is below the floor. Every selected run in which an allowance came down is among them, and its
signature matches; the others match as they did. -/
theorem report_update (m : Manifest) (b : Budget) (selection : Selection) :
    (∀ run, run ∈ (report m (update m b selection) selection).runs.map (·.runId) ↔
      selection.includes run = true ∧
        (run ∈ m.runs.map ManifestRun.id ∨ run ∈ b.runs.keys)) ∧
    List.Forall₂
      (fun before after => RunReport.Leaves (b.floor before.runId)
        (∃ path s, (update m b selection).allowed before.runId path s <
          b.allowed before.runId path s) before after)
      (report m b selection).runs (report m (update m b selection) selection).runs ∧
    ∀ run path s, selection.includes run = true →
      (update m b selection).allowed run path s < b.allowed run path s →
      ∃ after ∈ (report m (update m b selection) selection).runs,
        after.runId = run ∧ after.signatureMatches = true := by
  refine ⟨fun run => runId_mem_report_update, ?left, ?renewed⟩
  case left =>
    unfold report
    rw [reportedRuns_update]
    simp only [List.forall₂_map_left_iff, List.forall₂_map_right_iff, List.forall₂_same]
    intro run hrun
    exact leaves_runReport (mem_reportedRuns.1 hrun).1
  case renewed =>
    intro run path s hselected hlowered
    have hreported : run ∈ (report m (update m b selection) selection).runs.map (·.runId) :=
      runId_mem_report_update.2 ⟨hselected, .inr (mem_keys_of_lowered hlowered)⟩
    rw [map_runId_report] at hreported
    exact ⟨runReport m (update m b selection) run, List.mem_map_of_mem hreported, rfl,
      (leaves_runReport hselected).renewed ⟨path, s, hlowered⟩⟩

/-- Five errors are allowed where one is left, under a floor of two, and one where three are: the
violation stays, two errors are allowed after it, and the signature that the budget lacked is
there. -/
theorem report_update_lowered :
    let m : Manifest := ⟨[⟨"lint", "strict",
      [⟨"a.py", 1, 0, 0, none⟩, ⟨"b.py", 3, 0, 0, none⟩], .null⟩]⟩
    let held : RunBudget :=
      ⟨.empty, SortedMap.ofList [("a.py", SortedMap.ofList [(.error, 5)]),
        ("b.py", SortedMap.ofList [(.error, 1)])], SortedMap.ofList [(.error, 2)], none⟩
    let b : Budget := { Budget.empty .epoch with runs := SortedMap.ofList [("lint:strict", held)] }
    (report m b .all).runs.map (·.signatureMatches) = [false] ∧
      ∃ after, (report m (update m b .all) .all).runs = [after] ∧
        after.signatureMatches = true ∧
        after.violations.map (fun f => (f.path, f.allowed, f.actual)) = [("b.py", 1, 3)] ∧
        after.improvements.map (fun f => (f.path, f.allowed, f.actual)) = [("a.py", 2, 1)] := by
  intro m held b
  obtain ⟨-, hleft, hrenewed⟩ := report_update m b .all
  have hreported : reportedRuns m b .all = ["lint:strict"] := by decide
  have hbefore : (report m b .all).runs = [runReport m b "lint:strict"] := by
    rw [report, hreported, List.map_singleton]
  rw [hbefore] at hleft ⊢
  obtain ⟨after, hleaves, hafter⟩ : ∃ after,
      RunReport.Leaves (b.floor "lint:strict")
        (∃ path s, (update m b .all).allowed "lint:strict" path s <
          b.allowed "lint:strict" path s) (runReport m b "lint:strict") after ∧
        (report m (update m b .all) .all).runs = [after] := by
    generalize (report m (update m b .all) .all).runs = runs at hleft ⊢
    cases hleft with
    | cons hleaves hnil =>
      cases hnil
      exact ⟨_, hleaves, rfl⟩
  refine ⟨by decide, after, hafter, ?_, ?_, ?_⟩
  · obtain ⟨after', hmem, -, hmatches⟩ := hrenewed "lint:strict" "a.py" .error rfl (by decide)
    rw [hafter, List.mem_singleton] at hmem
    rwa [← hmem]
  · rw [hleaves.violations]
    decide
  · rw [hleaves.improvements]
    decide

end Ratchet

end AnalysisGate
