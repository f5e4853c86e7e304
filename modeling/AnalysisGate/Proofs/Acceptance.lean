import AnalysisGate.RatchetError
import Mathlib

/-!
Accepted manifests.

What a text is accepted as has runs of different ids, so a run is found under its own id and is
the only one of that id. Each diagnostic that it lists has a severity.
-/
namespace AnalysisGate.Manifest

/-- The runs are a manifest's: their ids differ and their diagnostics have severities. -/
def Accepted (m : Manifest) : Prop := ofRuns m.runs = .ok m

instance (m : Manifest) : Decidable m.Accepted :=
  inferInstanceAs (Decidable (ofRuns m.runs = .ok m))

/-- Runs that pass the check have ids that differ from each other and from those seen before. -/
theorem nodup_of_checkRuns {seen : List String} {runs : List ManifestRun}
    (h : checkRuns seen runs = .ok ()) :
    (runs.map ManifestRun.id).Nodup ∧ ∀ r ∈ runs, r.id ∉ seen := by
  induction runs generalizing seen with
  | nil => simp
  | cons r rest ih =>
    unfold checkRuns at h
    split at h
    · cases h
    · next hseen =>
      split at h
      · obtain ⟨hnodup, hfresh⟩ := ih h
        have hnot : r.id ∉ seen := by simpa using hseen
        refine ⟨List.nodup_cons.2 ⟨?_, hnodup⟩, ?_⟩
        · intro hmem
          obtain ⟨r', hr', hid⟩ := List.mem_map.1 hmem
          exact hfresh r' hr' (hid ▸ List.mem_cons_self ..)
        · intro r' hr'
          rcases List.mem_cons.1 hr' with rfl | hr'
          · exact hnot
          · exact fun hmem => hfresh r' hr' (List.mem_cons_of_mem _ hmem)
      · cases h

theorem Accepted.nodup {m : Manifest} (h : m.Accepted) : (m.runs.map ManifestRun.id).Nodup := by
  unfold Accepted ofRuns at h
  split at h
  · next hcheck => exact (nodup_of_checkRuns hcheck).1
  · cases h

theorem find?_id_of_nodup {l : List ManifestRun} (h : (l.map ManifestRun.id).Nodup)
    {r : ManifestRun} (hr : r ∈ l) : l.find? (·.id == r.id) = some r := by
  induction l with
  | nil => cases hr
  | cons a rest ih =>
    obtain ⟨hnew, hrest⟩ := List.nodup_cons.1 h
    rcases List.mem_cons.1 hr with rfl | hr
    · simp
    · have hne : (a.id == r.id) = false := by
        simpa using fun heq : a.id = r.id => hnew (heq ▸ List.mem_map_of_mem hr)
      rw [List.find?_cons, hne]
      exact ih hrest hr

/-- In an accepted manifest a run is found under its id. -/
theorem Accepted.run?_of_mem {m : Manifest} (h : m.Accepted) {r : ManifestRun}
    (hr : r ∈ m.runs) : m.run? r.id = some r :=
  find?_id_of_nodup h.nodup hr

theorem id_of_run? {m : Manifest} {run : String} {r : ManifestRun} (h : m.run? run = some r) :
    r ∈ m.runs ∧ r.id = run := by
  refine ⟨List.mem_of_find?_eq_some h, ?_⟩
  simpa using List.find?_some h

theorem severity_of_checkDiagnostics {run path : String} {l : List ManifestDiagnostic}
    (h : checkDiagnostics run path l = .ok ()) {d : ManifestDiagnostic} (hd : d ∈ l) :
    (Severity.ofToken? d.severity).isSome := by
  induction l with
  | nil => cases hd
  | cons a rest ih =>
    rw [checkDiagnostics, Severity.parse] at h
    cases ha : Severity.ofToken? a.severity with
    | none =>
      rw [ha] at h
      cases h
    | some s =>
      rw [ha] at h
      rcases List.mem_cons.1 hd with rfl | hd
      · rw [ha]
        rfl
      · exact ih h hd

theorem severity_of_checkFiles {run : String} {l : List FileReport}
    (h : checkFiles run l = .ok ()) {f : FileReport} (hf : f ∈ l) {d : ManifestDiagnostic}
    (hd : d ∈ f.diagnostics.getD []) : (Severity.ofToken? d.severity).isSome := by
  induction l with
  | nil => cases hf
  | cons a rest ih =>
    unfold checkFiles at h
    split at h
    · next hcheck =>
      rcases List.mem_cons.1 hf with rfl | hf
      · exact severity_of_checkDiagnostics hcheck hd
      · exact ih h hf
    · cases h

theorem severity_of_checkRuns {seen : List String} {runs : List ManifestRun}
    (h : checkRuns seen runs = .ok ()) {r : ManifestRun} (hr : r ∈ runs) {f : FileReport}
    (hf : f ∈ r.files) {d : ManifestDiagnostic} (hd : d ∈ f.diagnostics.getD []) :
    (Severity.ofToken? d.severity).isSome := by
  induction runs generalizing seen with
  | nil => cases hr
  | cons a rest ih =>
    unfold checkRuns at h
    split at h
    · cases h
    · split at h
      · next hcheck =>
        rcases List.mem_cons.1 hr with rfl | hr
        · exact severity_of_checkFiles hcheck hf hd
        · exact ih h hr
      · cases h

/-- In an accepted manifest each listed diagnostic has a severity. -/
theorem Accepted.severity_of_mem {m : Manifest} (h : m.Accepted) {r : ManifestRun}
    (hr : r ∈ m.runs) {f : FileReport} (hf : f ∈ r.files) {d : ManifestDiagnostic}
    (hd : d ∈ f.diagnostics.getD []) : (Severity.ofToken? d.severity).isSome := by
  unfold Accepted ofRuns at h
  split at h
  · next hcheck => exact severity_of_checkRuns hcheck hr hf hd
  · cases h

/-- What a text is accepted as is an accepted manifest. -/
theorem accepted_of_parse {text : String} {origin : Path} {m : Manifest}
    (h : parse text origin = .ok m) : m.Accepted := by
  unfold parse at h
  split at h
  · cases h
  · next m' hm' =>
    cases hof : ofRuns m'.runs with
    | error e => rw [hof] at h; cases h
    | ok m'' =>
      rw [hof] at h
      cases h
      unfold ofRuns at hof
      split at hof
      · next hcheck =>
        cases hof
        unfold Accepted ofRuns
        rw [hcheck]
      · cases hof

/-- A text is accepted as the runs that its document states, if they are a manifest's. -/
theorem parse_of_read {cs : List Char} {j : Json} (hj : Json.read? cs = some j) {m : Manifest}
    (hm : (shape.reader .stream j).toOption = some m) (haccepted : m.Accepted) (origin : Path) :
    parse (String.ofList cs) origin = .ok m := by
  have hread : shape.reader .stream j = .ok m := by
    cases hreader : shape.reader .stream j with
    | error e => rw [hreader] at hm; cases hm
    | ok m' =>
      rw [hreader] at hm
      exact congrArg Except.ok (Option.some.inj hm)
  rw [parse, readText, String.toList_ofList]
  simp only [hj, hread]
  rw [haccepted]
  rfl

end AnalysisGate.Manifest
