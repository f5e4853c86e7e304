import AnalysisGate.Proofs.Acceptance
import AnalysisGate.Proofs.MapViews
import Mathlib

/-!
The faults of a manifest.

`Manifest.faults` lists everything that is wrong with runs, in the order of a document: of each run
first that its id is the one of an earlier run, then each diagnostic that has no severity. Runs are
accepted exactly if the list is empty, and otherwise the error is its first fault
(`Manifest.ofRuns_exact`): the check stops there, and nothing before it is passed over.
-/
namespace AnalysisGate.Manifest

/-! ## Faults in the order of a document -/

/-- The faults of an entry's diagnostics: each token that denotes no severity, as it is written. -/
def tokenFaults (run path : String) (l : List ManifestDiagnostic) : List ManifestFault :=
  (l.filter fun d => (Severity.ofToken? d.severity).isNone).map fun d =>
    .badSeverity run path ⟨d.severity⟩

/-- The faults of a run's entries. -/
def fileFaults (run : String) (l : List FileReport) : List ManifestFault :=
  l.flatMap fun f => tokenFaults run f.path (f.diagnostics.getD [])

/-- The faults of runs that come after runs with other ids. -/
def faultsAfter (earlier : List String) : List ManifestRun → List ManifestFault
  | [] => []
  | r :: rest =>
    (if r.id ∈ earlier then [.duplicateRun r.id] else []) ++ fileFaults r.id r.files ++
      faultsAfter (earlier ++ [r.id]) rest

/-- The faults of runs. -/
def faults (runs : List ManifestRun) : List ManifestFault := faultsAfter [] runs

/-- What a check that stops at the first fault says. -/
def firstOf : List ManifestFault → Except ManifestFault Unit
  | [] => .ok ()
  | e :: _ => .error e

theorem firstOf_append (l l' : List ManifestFault) :
    firstOf (l ++ l') =
      match firstOf l with
      | .ok () => firstOf l'
      | .error e => .error e := by
  cases l <;> rfl

/-! ## Each check stops at the first fault -/

theorem checkDiagnostics_eq (run path : String) (l : List ManifestDiagnostic) :
    checkDiagnostics run path l = firstOf (tokenFaults run path l) := by
  induction l with
  | nil => rfl
  | cons d rest ih =>
    rw [checkDiagnostics, Severity.parse, tokenFaults]
    cases hd : Severity.ofToken? d.severity with
    | none =>
      rw [List.filter_cons, if_pos (by rw [hd]; rfl)]
      rfl
    | some s =>
      rw [List.filter_cons, if_neg (by rw [hd]; exact Bool.false_ne_true)]
      exact ih

theorem checkFiles_eq (run : String) (l : List FileReport) :
    checkFiles run l = firstOf (fileFaults run l) := by
  induction l with
  | nil => rfl
  | cons f rest ih =>
    rw [checkFiles, fileFaults, List.flatMap_cons, firstOf_append, checkDiagnostics_eq]
    cases firstOf (tokenFaults run f.path (f.diagnostics.getD [])) with
    | error e => rfl
    | ok => exact ih

/-- Only which ids came before matters, not where the check keeps them. -/
theorem checkRuns_eq (runs : List ManifestRun) (earlier : List String) {seen : List String}
    (h : ∀ id, id ∈ seen ↔ id ∈ earlier) :
    checkRuns seen runs = firstOf (faultsAfter earlier runs) := by
  induction runs generalizing seen earlier with
  | nil => rfl
  | cons r rest ih =>
    rw [checkRuns, faultsAfter]
    by_cases hr : r.id ∈ earlier
    · rw [if_pos hr, if_pos (List.contains_iff_mem.2 ((h r.id).2 hr))]
      rfl
    · have hnew : ¬ seen.contains r.id = true := by
        rw [List.contains_iff_mem, h]
        exact hr
      rw [if_neg hr, if_neg hnew, List.nil_append, firstOf_append, checkFiles_eq]
      cases firstOf (fileFaults r.id r.files) with
      | error e => rfl
      | ok =>
        apply ih
        intro id
        rw [List.mem_cons, List.mem_append, List.mem_singleton, h, or_comm]

/-- Runs without faults are a manifest, and the first fault is what is said of others. -/
theorem ofRuns_eq (runs : List ManifestRun) :
    ofRuns runs =
      match faults runs with
      | [] => .ok ⟨runs⟩
      | e :: _ => .error e := by
  rw [ofRuns, checkRuns_eq runs [] (fun _ => Iff.rfl), faults]
  cases faultsAfter [] runs <;> rfl

/-! ## What a fault is -/

theorem mem_fileFaults {run : String} {l : List FileReport} {e : ManifestFault} :
    e ∈ fileFaults run l ↔ ∃ f ∈ l, ∃ d ∈ f.diagnostics.getD [],
      Severity.ofToken? d.severity = none ∧ e = .badSeverity run f.path ⟨d.severity⟩ := by
  simp only [fileFaults, tokenFaults, List.mem_flatMap, List.mem_map, List.mem_filter,
    Option.isNone_iff_eq_none, and_assoc]
  simp only [eq_comm (a := e)]

/-- The faults of runs after others: an id that came before, in them or among the others, and each
diagnostic without a severity. -/
theorem mem_faultsAfter {earlier : List String} {runs : List ManifestRun} {e : ManifestFault} :
    e ∈ faultsAfter earlier runs ↔
      (∃ before r after, runs = before ++ r :: after ∧
        r.id ∈ earlier ++ before.map ManifestRun.id ∧ e = .duplicateRun r.id) ∨
      ∃ r ∈ runs, e ∈ fileFaults r.id r.files := by
  induction runs generalizing earlier with
  | nil => simp [faultsAfter]
  | cons r rest ih =>
    rw [faultsAfter, List.mem_append, List.mem_append, ih]
    constructor
    · rintro ((hdouble | hfile) | ⟨before, r', after, rfl, hid, he⟩ | ⟨r', hr', hfile⟩)
      · -- the first run is given twice if its id is among the earlier ones
        left
        refine ⟨[], r, rest, rfl, ?_⟩
        split at hdouble
        · next hid => exact ⟨by simpa using hid, List.mem_singleton.1 hdouble⟩
        · cases hdouble
      · exact .inr ⟨r, List.mem_cons_self .., hfile⟩
      · exact .inl ⟨r :: before, r', after, rfl, by simpa using hid, he⟩
      · exact .inr ⟨r', List.mem_cons_of_mem _ hr', hfile⟩
    · rintro (⟨before, r', after, hruns, hid, he⟩ | ⟨r', hr', hfile⟩)
      · cases before with
        | nil =>
          obtain ⟨rfl, rfl⟩ := List.cons.inj hruns
          have hearlier : r.id ∈ earlier := by simpa using hid
          exact .inl (.inl (by rw [if_pos hearlier, he]; exact List.mem_singleton.2 rfl))
        | cons a before =>
          obtain ⟨rfl, rfl⟩ := List.cons.inj hruns
          exact .inr (.inl ⟨before, r', after, rfl, by simpa using hid, he⟩)
      · rcases List.mem_cons.1 hr' with rfl | hr'
        · exact .inl (.inr hfile)
        · exact .inr (.inr ⟨r', hr', hfile⟩)

/-- Runs without faults have ids that differ, and diagnostics with severities. -/
theorem accepted_iff {runs : List ManifestRun} :
    (Manifest.mk runs).Accepted ↔ (runs.map ManifestRun.id).Nodup ∧
      ∀ r ∈ runs, ∀ f ∈ r.files, ∀ d ∈ f.diagnostics.getD [],
        ∃ s, Severity.parse d.severity = .ok s := by
  constructor
  · intro h
    refine ⟨h.nodup, fun r hr f hf d hd => ?_⟩
    obtain ⟨s, hs⟩ := Option.isSome_iff_exists.1 (h.severity_of_mem hr hf hd)
    exact ⟨s, by rw [Severity.parse, hs]⟩
  · rintro ⟨hnodup, hseverities⟩
    have hnone : faults runs = [] := by
      apply List.eq_nil_iff_forall_not_mem.2
      intro e he
      rcases mem_faultsAfter.1 he with ⟨before, r, after, rfl, hid, -⟩ | ⟨r, hr, hfile⟩
      · rw [List.map_append, List.map_cons] at hnodup
        exact (List.nodup_append.1 hnodup).2.2 _ (by simpa using hid) _ (List.mem_cons_self ..) rfl
      · obtain ⟨f, hf, d, hd, hbad, -⟩ := mem_fileFaults.1 hfile
        obtain ⟨s, hs⟩ := hseverities r hr f hf d hd
        rw [Severity.parse, hbad] at hs
        cases hs
    rw [Accepted, ofRuns_eq, hnone]

/-- One run of an id is all that there is of it. -/
theorem filter_id_of_nodup {l : List ManifestRun} (h : (l.map ManifestRun.id).Nodup)
    {r : ManifestRun} (hr : r ∈ l) : l.filter (·.id == r.id) = [r] := by
  induction l with
  | nil => cases hr
  | cons a rest ih =>
    obtain ⟨hnew, hrest⟩ := List.nodup_cons.1 h
    rw [List.filter_cons]
    rcases List.mem_cons.1 hr with rfl | hr
    · have hnone : rest.filter (·.id == r.id) = [] := by
        apply List.filter_eq_nil_iff.2
        intro r' hr' heq
        exact hnew (eq_of_beq heq ▸ List.mem_map_of_mem hr')
      rw [if_pos (beq_self_eq_true _), hnone]
    · have hne : ¬ (a.id == r.id) = true := by
        intro heq
        exact hnew (eq_of_beq heq ▸ List.mem_map_of_mem hr)
      rw [if_neg hne]
      exact ih hrest hr

/-- **Runs are accepted exactly if they have no fault, and otherwise the error is the first one**:
runs whose ids differ and whose diagnostics have severities; and then each id names one run. -/
theorem ofRuns_exact (runs : List ManifestRun) :
    (ofRuns runs = .ok ⟨runs⟩ ↔ (runs.map ManifestRun.id).Nodup ∧
      ∀ r ∈ runs, ∀ f ∈ r.files, ∀ d ∈ f.diagnostics.getD [],
        ∃ s, Severity.parse d.severity = .ok s) ∧
    (∀ e, ofRuns runs = .error e ↔ (faults runs).head? = some e) ∧
    (∀ e, e ∈ faults runs ↔
      (∃ before r after, runs = before ++ r :: after ∧ r.id ∈ before.map ManifestRun.id ∧
        e = .duplicateRun r.id) ∨
      ∃ r ∈ runs, ∃ f ∈ r.files, ∃ d ∈ f.diagnostics.getD [],
        Severity.ofToken? d.severity = none ∧ e = .badSeverity r.id f.path ⟨d.severity⟩) ∧
    ∀ m, ofRuns runs = .ok m → m.runs = runs ∧ ∀ id ∈ m.runIds.keys,
      ∃ r, m.runs.filter (·.id == id) = [r] ∧ m.run? id = some r := by
  refine ⟨accepted_iff, fun e => ?_, fun e => ?_, fun m hm => ?_⟩
  · rw [ofRuns_eq]
    cases faults runs <;> simp
  · rw [faults, mem_faultsAfter]
    simp only [List.nil_append, mem_fileFaults]
  · have hruns : m.runs = runs := by
      rw [ofRuns_eq] at hm
      cases hfaults : faults runs with
      | nil =>
        rw [hfaults] at hm
        cases hm
        rfl
      | cons e rest =>
        rw [hfaults] at hm
        cases hm
    have haccepted : m.Accepted := by rw [Accepted, hruns, hm]
    refine ⟨hruns, fun id hid => ?_⟩
    obtain ⟨r, hr, rfl⟩ := List.mem_map.1 (SortedSet.mem_keys_ofList.1 hid)
    exact ⟨r, filter_id_of_nodup haccepted.nodup hr, haccepted.run?_of_mem hr⟩

/-- Two tools and modes with one id, before a token that denotes nothing, and two runs in which
every token is a spelling of a severity. -/
theorem ofRuns_exact_shared :
    let listing (token : String) : List FileReport :=
      [⟨"./a.py", 0, 0, 0, some [⟨token, .empty⟩]⟩]
    let clashing : List ManifestRun :=
      [⟨"lint", "src:all", [], .null⟩, ⟨"lint:src", "all", listing "fatal", .null⟩]
    let sound : List ManifestRun :=
      [⟨"lint", "src", listing " Errors ", .null⟩, ⟨"lint", "all", listing "INFO", .null⟩]
    ofRuns clashing = .error (.duplicateRun "lint:src:all") ∧
      .badSeverity "lint:src:all" "./a.py" ⟨"fatal"⟩ ∈ faults clashing ∧
      ofRuns sound = .ok ⟨sound⟩ ∧
      ∃ r, sound.filter (·.id == "lint:all") = [r] ∧
        (Manifest.mk sound).run? "lint:all" = some r := by
  intro listing clashing sound
  obtain ⟨-, hfirst, hfault, -⟩ := ofRuns_exact clashing
  obtain ⟨-, -, -, hruns⟩ := ofRuns_exact sound
  have hsound : ofRuns sound = .ok ⟨sound⟩ := rfl
  refine ⟨(hfirst _).2 rfl, (hfault _).2 (.inr ?_), hsound, (hruns _ hsound).2 _ ?_⟩
  · exact ⟨_, .tail _ (.head _), _, .head _, _, .head _, by decide, rfl⟩
  · exact SortedSet.mem_keys_ofList.2 (.tail _ (.head _))

end AnalysisGate.Manifest
