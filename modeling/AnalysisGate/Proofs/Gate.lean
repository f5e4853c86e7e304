import AnalysisGate.Proofs.Acceptance
import AnalysisGate.Proofs.Counting
import Mathlib

/-!
The gate is exact.

A report has a run report for each selected run of the manifest or the budget, in ascending order,
and a run report has a finding for each tracked cell whose count is not the one that is allowed,
and no other. So the gate passes exactly when no selected run counts more than its allowance and,
unless signatures are ignored, the budget holds the signature of every selected run of the
manifest.
-/
namespace AnalysisGate

/-- Whether a severity is tracked where some are named: if it is one of them or, where none is
named, an error or a warning. -/
def Severity.Tracked (s : Severity) (named : SortedSet Severity) : Prop :=
  named.contains s = true ∨ named.isEmpty = true ∧ (s = .error ∨ s = .warning)

instance (s : Severity) (named : SortedSet Severity) : Decidable (s.Tracked named) :=
  inferInstanceAs (Decidable (_ ∨ _ ∧ (_ ∨ _)))

/-- Whether a budget compares a severity in a run: one that it names for the run or, where it
names none, an error or a warning. -/
def Budget.Tracks (b : Budget) (run : String) (s : Severity) : Prop :=
  let named := ((b.runs.get? run).getD .empty).severities
  named.contains s = true ∨ named.isEmpty = true ∧ (s = .error ∨ s = .warning)

instance (b : Budget) (run : String) (s : Severity) : Decidable (b.Tracks run s) :=
  inferInstanceAs (Decidable (_ ∨ _ ∧ (_ ∨ _)))

/-- A finding states a tracked cell of a run that counts more or less than it may. -/
structure Finding.States (f : Finding) (m : Manifest) (b : Budget) (run : String) : Prop where
  tracked : b.Tracks run f.severity
  allowed : f.allowed = b.allowed run f.path f.severity
  actual : f.actual.toNat = m.tally run f.path f.severity
  differs : f.actual ≠ f.allowed
  kind : f.kind = .violation ↔ f.allowed < f.actual
  delta : f.delta = f.actual.toInt64 - f.allowed.toInt64

/-- The order of findings: by path, then by severity. -/
def Finding.Before (f g : Finding) : Prop :=
  (compare f.path g.path).then (compare f.severity g.severity) = .lt

/-- The order of findings as a comparison. -/
theorem Finding.before_iff {f g : Finding} :
    f.Before g ↔ compareLex (compareOn Finding.path) (compareOn Finding.severity) f g = .lt :=
  Iff.rfl

instance : Std.Irrefl Finding.Before where
  irrefl f h := by
    have hself : compareLex (compareOn Finding.path) (compareOn Finding.severity) f f = .eq :=
      Std.ReflCmp.compare_self
    rw [Finding.before_iff, hself] at h
    cases h

instance : Std.Asymm Finding.Before where
  asymm f g hfg hgf := by
    rw [Finding.before_iff] at hfg hgf
    rw [Std.OrientedCmp.gt_of_lt hfg] at hgf
    cases hgf

/-- The budget holds the signature that a run has now. -/
def Budget.Signs (b : Budget) (r : ManifestRun) : Prop :=
  ∃ held signature, b.runs.get? r.id = some held ∧ held.signature = some signature ∧
    signature.hash = (EngineSignature.ofRun r).hash

/-! ## Findings of one run -/

theorem Ratchet.contains_trackedOr {named : SortedSet Severity} {s : Severity} :
    (trackedOr named).contains s = true ↔ s.Tracked named := by
  have hstandard : Severity.standard.contains s = true ↔ s = .error ∨ s = .warning := by
    cases s <;> decide
  simp only [Severity.Tracked, trackedOr]
  split
  · next hempty =>
    have hnone := SortedMap.get?_of_isEmpty hempty s
    rw [hstandard, SortedMap.contains, hnone]
    simp [hempty]
  · next hnamed => simp [hnamed]

theorem RunBudget.contains_tracked (b : Budget) (run : String) (s : Severity) :
    ((b.runs.get? run).getD .empty).tracked.contains s = true ↔ b.Tracks run s :=
  Ratchet.contains_trackedOr

theorem Finding.classify_eq_some_iff {path : String} {s : Severity} {allowed actual : UInt64}
    {f : Finding} :
    classify path s allowed actual = some f ↔
      f.path = path ∧ f.severity = s ∧ f.allowed = allowed ∧ f.actual = actual ∧
        actual ≠ allowed ∧ (f.kind = .violation ↔ allowed < actual) ∧
        f.delta = actual.toInt64 - allowed.toInt64 := by
  obtain ⟨kind, p, t, a, n, d⟩ := f
  unfold classify
  split
  · next h =>
    have hne : actual ≠ allowed := (UInt64.ne_of_lt h).symm
    cases kind <;> simp [h, hne, eq_comm]
  · next h =>
    split
    · next h' =>
      have hne : actual ≠ allowed := UInt64.ne_of_lt h'
      cases kind <;> simp [h, hne, eq_comm]
    · next h' =>
      have heq : actual = allowed := UInt64.le_antisymm (UInt64.not_lt.1 h) (UInt64.not_lt.1 h')
      simp [heq]

namespace Ratchet

/-- A cell outside both maps counts nothing and may count nothing, so it is no finding. -/
theorem mem_findings {rb : RunBudget} {counts : PathCounts} {f : Finding} :
    f ∈ findings rb counts ↔ rb.tracked.contains f.severity = true ∧
      Finding.classify f.path f.severity (rb.allowed f.path f.severity)
        (counts.cell f.path f.severity) = some f := by
  unfold findings
  simp only [List.mem_flatMap, List.mem_filterMap, SortedSet.mem_keys_ofList, List.mem_append]
  constructor
  · rintro ⟨path, -, s, hs, hf⟩
    obtain ⟨rfl, rfl, -⟩ := Finding.classify_eq_some_iff.1 hf
    exact ⟨SortedMap.contains_iff_mem_keys.2 hs, hf⟩
  · rintro ⟨hs, hf⟩
    refine ⟨f.path, ?_, f.severity, SortedMap.contains_iff_mem_keys.1 hs, hf⟩
    by_contra habsent
    rw [not_or] at habsent
    have hcount : counts.cell f.path f.severity = 0 := by
      simp [PathCounts.cell, SortedMap.get?_none_of_not_mem habsent.1]
    have hallowed : rb.allowed f.path f.severity = 0 := by
      simp [RunBudget.allowed, SortedMap.get?_none_of_not_mem habsent.2]
    rw [hcount, hallowed] at hf
    exact (Finding.classify_eq_some_iff.1 hf).2.2.2.2.1 rfl

theorem findings_ascending (rb : RunBudget) (counts : PathCounts) :
    (findings rb counts).Pairwise Finding.Before := by
  unfold findings
  refine List.pairwise_flatMap.2 ⟨fun path _ => ?_, ?_⟩
  · -- one path: the severities ascend
    refine List.pairwise_filterMap.2 (rb.tracked.keys_ascending.imp ?_)
    intro s t hst f hf g hg
    obtain ⟨hfp, hfs, -⟩ := Finding.classify_eq_some_iff.1 hf
    obtain ⟨hgp, hgs, -⟩ := Finding.classify_eq_some_iff.1 hg
    simp [Finding.Before, hfp, hgp, hfs, hgs, hst]
  · refine (SortedMap.keys_ascending _).imp ?_
    intro p q hpq f hf g hg
    obtain ⟨s, -, hf⟩ := List.mem_filterMap.1 hf
    obtain ⟨t, -, hg⟩ := List.mem_filterMap.1 hg
    have hfp := (Finding.classify_eq_some_iff.1 hf).1
    have hgp := (Finding.classify_eq_some_iff.1 hg).1
    simp [Finding.Before, hfp, hgp, hpq]

/-- The findings of a run are what there is to state of it. -/
theorem mem_findings_runReport {m : Manifest} (hfit : m.Countable) (b : Budget) (run : String)
    (f : Finding) : f ∈ (runReport m b run).findings ↔ f.States m b run := by
  have hcell := m.cell_countsOf run ((b.runs.get? run).getD .empty).tracked f.path f.severity
  have hlt := hfit.tally_lt run f.path f.severity
  simp only [runReport]
  rw [mem_findings, RunBudget.contains_tracked]
  constructor
  · rintro ⟨htracked, hf⟩
    rw [hcell, if_pos ((RunBudget.contains_tracked b run f.severity).2 htracked)] at hf
    obtain ⟨-, -, hallowed, hactual, hne, hkind, hdelta⟩ := Finding.classify_eq_some_iff.1 hf
    refine ⟨htracked, hallowed, ?_, by rwa [hactual, hallowed], by rwa [hactual, hallowed],
      by rwa [hactual, hallowed]⟩
    rw [hactual, UInt64.toNat_ofNat_of_lt' hlt]
  · rintro ⟨htracked, hallowed, hactual, hne, hkind, hdelta⟩
    have hcount : f.actual = UInt64.ofNat (m.tally run f.path f.severity) := by
      rw [← hactual, UInt64.ofNat_toNat]
    refine ⟨htracked, ?_⟩
    rw [hcell, if_pos ((RunBudget.contains_tracked b run f.severity).2 htracked), ← hcount]
    have hheld : ((b.runs.get? run).getD .empty).allowed f.path f.severity = f.allowed :=
      hallowed.symm
    rw [hheld]
    exact Finding.classify_eq_some_iff.2 ⟨rfl, rfl, rfl, rfl, hne, hkind, hdelta⟩

/-! ## Runs of a report -/

theorem mem_reportedRuns {m : Manifest} {b : Budget} {selection : Selection} {id : String} :
    id ∈ reportedRuns m b selection ↔
      selection.includes id = true ∧ (id ∈ m.runs.map ManifestRun.id ∨ id ∈ b.runs.keys) := by
  unfold reportedRuns Manifest.runIds
  rw [List.mem_filter, SortedSet.mem_keys_ofList, List.mem_append, SortedSet.mem_keys_ofList,
    and_comm]

theorem reportedRuns_ascending (m : Manifest) (b : Budget) (selection : Selection) :
    (reportedRuns m b selection).Pairwise fun x y => compare x y = .lt :=
  (SortedMap.keys_ascending _).filter _

theorem map_runId_report (m : Manifest) (b : Budget) (selection : Selection) :
    (report m b selection).runs.map (·.runId) = reportedRuns m b selection := by
  simp [report, runReport, Function.comp_def]

end Ratchet

/-! ## The exit code -/

theorem Report.hasViolations_eq_false_iff {r : Report} :
    r.hasViolations = false ↔ ∀ rr ∈ r.runs, ∀ f ∈ rr.findings, f.kind ≠ .violation := by
  unfold hasViolations violationCount RunReport.violations
  rw [decide_eq_false_iff_not, Nat.not_lt, Nat.le_zero, List.length_eq_zero_iff,
    List.flatMap_eq_nil_iff]
  simp only [List.filter_eq_nil_iff, Finding.isViolation, beq_iff_eq, ne_eq]

theorem Report.exitCode_eq_zero_iff {r : Report} {ignore : Bool} :
    r.exitCode ignore = 0 ↔
      (∀ rr ∈ r.runs, ∀ f ∈ rr.findings, f.kind ≠ .violation) ∧
        (ignore = true ∨ ∀ rr ∈ r.runs, rr.signatureMatches = true) := by
  rw [← hasViolations_eq_false_iff]
  have hmatch : r.mismatches = [] ↔ ∀ rr ∈ r.runs, rr.signatureMatches = true := by
    simp [mismatches, List.filter_eq_nil_iff]
  unfold exitCode
  cases r.hasViolations <;> cases ignore <;> simp [hmatch]

namespace Ratchet

/-- The signature of a run that took place matches if the budget holds it; one that did not take
place matches always. -/
theorem signatureMatches_runReport {m : Manifest} (h : m.Accepted) (b : Budget) (run : String) :
    (runReport m b run).signatureMatches = true ↔ ∀ r ∈ m.runs, r.id = run → b.Signs r := by
  simp only [runReport]
  cases hrun : m.run? run with
  | none =>
    have habsent : ∀ r ∈ m.runs, r.id ≠ run := by
      simpa [Manifest.run?] using hrun
    simpa [signatureMatches] using fun r hr hid => absurd hid (habsent r hr)
  | some r =>
    obtain ⟨hmem, rfl⟩ := Manifest.id_of_run? hrun
    have hunique : (∀ r' ∈ m.runs, r'.id = r.id → b.Signs r') ↔ b.Signs r := by
      refine ⟨fun hall => hall r hmem rfl, fun hs r' hr' hid => ?_⟩
      have hr := h.run?_of_mem hr'
      rw [hid, hrun] at hr
      cases hr
      exact hs
    rw [hunique]
    unfold Budget.Signs
    cases b.runs.get? r.id with
    | none => simp [signatureMatches, RunBudget.empty]
    | some held => cases hs : held.signature <;> simp [signatureMatches, hs]

/-- A run that took place matches the signature that it has. -/
theorem signatureMatches_of_renewed {m : Manifest} {b : Budget} {run : String}
    (h : ∀ r, m.run? run = some r →
      ((b.runs.get? run).getD .empty).signature = some (.ofRun r)) :
    (runReport m b run).signatureMatches = true := by
  simp only [runReport]
  cases hrun : m.run? run with
  | none => rfl
  | some r => simp [signatureMatches, h r hrun]

/-- Nothing that there is to state of a run is a violation, exactly when no tracked cell counts
more than it may. -/
theorem no_violation_iff {m : Manifest} (hfit : m.Countable) (b : Budget) (run : String) :
    (∀ f : Finding, f.States m b run → f.kind ≠ .violation) ↔
      ∀ path s, b.Tracks run s → m.tally run path s ≤ (b.allowed run path s).toNat := by
  constructor
  · intro h path s htracked
    by_contra hover
    have hnat : (UInt64.ofNat (m.tally run path s)).toNat = m.tally run path s :=
      UInt64.toNat_ofNat_of_lt' (hfit.tally_lt run path s)
    have hlt : b.allowed run path s < UInt64.ofNat (m.tally run path s) := by
      rw [UInt64.lt_iff_toNat_lt, hnat]
      omega
    let f : Finding := ⟨.violation, path, s, b.allowed run path s,
      UInt64.ofNat (m.tally run path s),
      (UInt64.ofNat (m.tally run path s)).toInt64 - (b.allowed run path s).toInt64⟩
    have hf : f.States m b run :=
      ⟨htracked, rfl, hnat, (UInt64.ne_of_lt hlt).symm, ⟨fun _ => hlt, fun _ => rfl⟩, rfl⟩
    exact h f hf rfl
  · intro h f hf hkind
    have hlt := UInt64.lt_iff_toNat_lt.1 (hf.kind.1 hkind)
    have hle := h f.path f.severity hf.tracked
    rw [hf.actual, hf.allowed] at hlt
    omega

/-- A run that is in neither the manifest nor the budget counts nothing. -/
theorem tally_eq_zero_of_not_reported {m : Manifest} {b : Budget} {selection : Selection}
    {run : String} (hselected : selection.includes run = true)
    (h : run ∉ reportedRuns m b selection) (path : String) (s : Severity) :
    m.tally run path s = 0 := by
  refine Manifest.tally_of_absent ?_ path s
  cases hrun : m.run? run with
  | none => rfl
  | some r =>
    obtain ⟨hmem, rfl⟩ := Manifest.id_of_run? hrun
    exact absurd (mem_reportedRuns.2 ⟨hselected, .inl (List.mem_map_of_mem hmem)⟩) h

/-- What is so of every run report is so of every reported run. -/
theorem forall_runs_report {m : Manifest} {b : Budget} {selection : Selection}
    {P : RunReport → Prop} :
    (∀ r ∈ (report m b selection).runs, P r) ↔
      ∀ run ∈ reportedRuns m b selection, P (runReport m b run) := by
  simp [report]

theorem exitCode_report {m : Manifest} (haccepted : m.Accepted) (hfit : m.Countable) (b : Budget)
    (selection : Selection) (ignore : Bool) :
    (report m b selection).exitCode ignore = 0 ↔
      (∀ run path s, selection.includes run = true → b.Tracks run s →
        m.tally run path s ≤ (b.allowed run path s).toNat) ∧
      (ignore = true ∨ ∀ r ∈ m.runs, selection.includes r.id = true → b.Signs r) := by
  rw [Report.exitCode_eq_zero_iff, forall_runs_report, forall_runs_report]
  refine and_congr ?_ (or_congr_right ?_)
  · simp only [mem_findings_runReport hfit, no_violation_iff hfit]
    constructor
    · intro h run path s hselected htracked
      by_cases hrun : run ∈ reportedRuns m b selection
      · exact h run hrun path s htracked
      · rw [tally_eq_zero_of_not_reported hselected hrun]
        exact Nat.zero_le _
    · intro h run hrun path s htracked
      exact h run path s (mem_reportedRuns.1 hrun).1 htracked
  · simp only [signatureMatches_runReport haccepted]
    constructor
    · intro h r hr hselected
      exact h r.id (mem_reportedRuns.2 ⟨hselected, .inl (List.mem_map_of_mem hr)⟩) r hr rfl
    · rintro h run hrun r hr rfl
      exact h r hr (mem_reportedRuns.1 hrun).1

/-- **The gate is exact**: which runs a report has, which findings each of them has, the orders of
both, and when the report passes. -/
theorem report_exact {m : Manifest} (haccepted : m.Accepted) (hfit : m.Countable) (b : Budget)
    (selection : Selection) :
    (∀ id, id ∈ (report m b selection).runs.map (·.runId) ↔
      selection.includes id = true ∧ (id ∈ m.runs.map ManifestRun.id ∨ id ∈ b.runs.keys)) ∧
    ((report m b selection).runs.map (·.runId)).Pairwise (fun x y => compare x y = .lt) ∧
    (∀ r ∈ (report m b selection).runs,
      (∀ f, f ∈ r.findings ↔ f.States m b r.runId) ∧ r.findings.Pairwise Finding.Before) ∧
    ∀ ignore, (report m b selection).exitCode ignore = 0 ↔
      (∀ run path s, selection.includes run = true → b.Tracks run s →
        m.tally run path s ≤ (b.allowed run path s).toNat) ∧
      (ignore = true ∨ ∀ r ∈ m.runs, selection.includes r.id = true → b.Signs r) := by
  rw [map_runId_report, forall_runs_report]
  refine ⟨fun id => mem_reportedRuns, reportedRuns_ascending m b selection, ?_,
    exitCode_report haccepted hfit b selection⟩
  intro run _
  exact ⟨mem_findings_runReport hfit b run, findings_ascending _ _⟩

/-- Two spellings of one path are one cell: two errors, of which one is allowed, fail the gate. -/
theorem report_exact_respelled :
    let m : Manifest := ⟨[⟨"lint", "strict",
      [⟨"./a.py", 1, 0, 0, none⟩, ⟨"a.py", 1, 0, 0, none⟩], .null⟩]⟩
    let held : RunBudget :=
      ⟨.empty, SortedMap.ofList [("a.py", SortedMap.ofList [(.error, 1)])], .empty, none⟩
    let b : Budget := { Budget.empty .epoch with runs := SortedMap.ofList [("lint:strict", held)] }
    m.Accepted ∧ m.Countable ∧ (report m b .all).exitCode true ≠ 0 := by
  intro m held b
  have haccepted : m.Accepted := rfl
  have hfit : m.Countable := by
    refine Manifest.countable_of_totals fun r hr s => ?_
    obtain rfl := List.mem_singleton.1 hr
    cases s <;> decide
  refine ⟨haccepted, hfit, fun hpass => ?_⟩
  have hcells := ((report_exact haccepted hfit b .all).2.2.2 true).1 hpass
  have hover := hcells.1 "lint:strict" "a.py" .error rfl (by decide)
  exact absurd hover (by decide)

end Ratchet

end AnalysisGate
