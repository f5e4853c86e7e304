import AnalysisGate.Proofs.FileKinds
import AnalysisGate.Proofs.Idempotence
import AnalysisGate.Proofs.Neighbours
import Mathlib

/-!
Checks that follow an update.

An update computes its report from the budget in memory, a check from the budget in the file. They
agree: if the budget is in a regular file after an update, it is loaded there as the update left it,
and however often a check or an update with the same arguments follows, each ends as the update did
and changes nothing but the time of the report (`CommandLine.agrees_of_updates`). What carries this
is that a second update leaves the budget alone, so that it and a check do the same.
-/
namespace AnalysisGate

open Workspace

variable {w w' : Workspace} {project p q : Path}

/-! ## Loading from trees that keep files -/

theorem Workspace.Aliases.read_eq (h : w.Aliases p q) : w.read p = w.read q := by
  obtain ⟨x, hp, hq⟩ := h
  rw [Workspace.read_eq hp, Workspace.read_eq hq]

theorem Workspace.InRoot.target_eq {name : String} {x : Place} {t : Target} {n : Nat}
    (h : InRoot p name) (hway : w.Leads [] [name] n t) (hx : w.placeOf p = .ok x) :
    t = .found x := by
  obtain ⟨-, k, -, hway'⟩ := locate_eq_ok.1 (placeOf_eq_ok.1 hx)
  rw [h.steps, start, h.absolute] at hway'
  exact (hway.unique hway').2

namespace Workspace.Keeps

theorem readText (h : w.Keeps w' p) {text : String} (hread : w.readText p = .ok text) :
    w'.readText p = .ok text := by
  obtain ⟨bytes, hbytes, htext⟩ := readText_eq_ok.1 hread
  exact readText_eq_ok.2 ⟨bytes, h.read bytes hbytes, htext⟩

theorem loadManifest (h : w.Keeps w' p) {m : Manifest} (hload : Manifest.load w p = .ok m) :
    Manifest.load w' p = .ok m := by
  rw [Manifest.load] at hload ⊢
  cases htext : w.readText p with
  | error e =>
    rw [htext] at hload
    cases hload
  | ok text =>
    rw [htext] at hload
    rw [h.readText htext]
    exact hload

theorem loadBudget (h : w.Keeps w' p) {b : Budget} (hload : Budget.load w p = .ok b) :
    Budget.load w' p = .ok b := by
  obtain ⟨bytes, text, hread, htext, hparse⟩ := Budget.load_eq_ok.1 hload
  exact Budget.load_eq_ok.2 ⟨bytes, text, h.read bytes hread, htext, hparse⟩

end Workspace.Keeps

theorem Workspace.Stands.load_iff (h : w.Stands w' p) {b : Budget} :
    Budget.load w' p = .ok b ↔ Budget.load w p = .ok b := by
  simp only [Budget.load_eq_ok, h.read_eq_ok]

namespace ProjectConfig

variable {c : ProjectConfig}

/-- A configuration is the standard one, or stands in a file. -/
theorem load_eq_ok : load w project = .ok c ↔
    w.pathExists (file project) = false ∧ c = standard ∨
      ∃ text, w.readText (file project) = .ok text ∧ readToml shape.reader text = .ok c := by
  rw [load]
  cases hexists : w.pathExists (file project) with
  | false =>
    have hnone (text : String) : w.readText (file project) ≠ .ok text := by
      intro hread
      obtain ⟨bytes, hbytes, -⟩ := readText_eq_ok.1 hread
      obtain ⟨x, hx, -⟩ := read_eq_ok.1 hbytes
      cases hexists.symm.trans (pathExists_iff.2 ⟨x, hx⟩)
    simp [hnone, eq_comm]
  | true =>
    cases htext : w.readText (file project) with
    | error e => simp
    | ok text => cases hc : readToml shape.reader text <;> simp [Except.mapError, hc]

theorem load_of_keeps (h : w.Keeps w' (file project)) (hload : load w project = .ok c) :
    load w' project = .ok c := by
  rw [load_eq_ok] at hload ⊢
  exact hload.imp (fun hnone => ⟨h.absent hnone.1, hnone.2⟩)
    fun ⟨text, hread, hc⟩ => ⟨text, h.readText hread, hc⟩

/-- What is loaded as a budget is no configuration. -/
theorem load_ne_ok_of_aliases {b : Budget} (hb : Budget.load w p = .ok b)
    (halias : w.Aliases p (file project)) : load w project ≠ .ok c := by
  intro hload
  obtain ⟨bytes, text, hread, htext, hparse⟩ := Budget.load_eq_ok.1 hb
  rcases load_eq_ok.1 hload with ⟨hnone, -⟩ | ⟨text', htext', hconfig⟩
  · obtain ⟨x, -, hx⟩ := halias
    cases hnone.symm.trans (pathExists_iff.2 ⟨x, hx⟩)
  · rw [halias.read_eq] at hread
    cases (readText_eq_ok.2 ⟨bytes, hread, htext⟩).symm.trans htext'
    rw [Budget.readToml_of_parse hparse] at hconfig
    cases hconfig

end ProjectConfig

/-! ## Reports -/

namespace CommandLine

variable {now : Timestamp} {args : RatchetArgs} {report : ReportArgs} {config : ProjectConfig}
  {m : Manifest} {b tightened : Budget} {r : Report} {outcome : Outcome} {v v' : Workspace}

/-- The bytes of a report that is written to a file. -/
def reportBytes (r : Report) (report : ReportArgs) : ByteArray :=
  (r.render false report.format (r.exitCode report.ignoreSignature)).toUTF8

/-- How a command ends that reports. -/
def reportOutcome (r : Report) (report : ReportArgs) : Outcome :=
  let code := r.exitCode report.ignoreSignature
  match report.output with
  | some out => ⟨code, "", "Report written to " ++ out.text ++ "\n"⟩
  | none =>
    let rendered := r.render false report.format code
    ⟨code, String.ofList (Text.trimEnd rendered.toList) ++ "\n", ""⟩

/-- A report is written to its file, if it has one, and nothing else is done. -/
theorem emit_eq_ok : (emit r report).exec w = (.ok outcome, w') ↔
    outcome = reportOutcome r report ∧
      ((report.output = none ∧ w' = w) ∨
        ∃ out, report.output = some out ∧ w.write out (reportBytes r report) = .ok w') := by
  rw [emit, reportOutcome]
  cases hout : report.output with
  | none =>
    change ((Except.ok _, w) : Except Failure Outcome × Workspace) = (.ok outcome, w') ↔ _
    simp [eq_comm]
  | some out =>
    constructor
    · intro h
      obtain ⟨_, w₁, hwrite, h⟩ := FileAction.exec_bind_eq_ok.1 h
      cases h
      exact ⟨rfl, .inr ⟨out, rfl, FileAction.exec_change_eq_ok.1 hwrite⟩⟩
    · rintro ⟨rfl, ⟨hnone, -⟩ | ⟨out', hout', hwrite⟩⟩
      · cases hnone
      · cases hout'
        exact FileAction.exec_bind_eq_ok.2
          ⟨(), w', FileAction.exec_change_eq_ok.2 hwrite, rfl⟩

/-- The file of a report, if it has one, has the bytes of the report. -/
def Reported (w : Workspace) (r : Report) (report : ReportArgs) : Prop :=
  ∀ out, report.output = some out → w.Bears out (reportBytes r report) ∧
    endsInName (plainSteps out) = true ∧ endsInSlash out = false

/-- A path stands while a report is written to a file that it does not lead to. -/
theorem stands_of_emit (h : (emit r report).exec w = (.ok outcome, w'))
    (hout : ∀ out, report.output = some out → ¬ w'.Aliases out p) : w.Stands w' p := by
  obtain ⟨-, ⟨-, rfl⟩ | ⟨out, hsome, hwrite⟩⟩ := emit_eq_ok.1 h
  · exact .refl _ p
  · exact (write_cases hwrite).1.stands (hout out hsome)

theorem reported_of_emit (h : (emit r report).exec w = (.ok outcome, w')) :
    Reported w' r report := by
  intro out hsome
  obtain ⟨-, ⟨hnone, -⟩ | ⟨out', hsome', hwrite⟩⟩ := emit_eq_ok.1 h
  · cases hnone.symm.trans hsome
  · cases hsome'.symm.trans hsome
    exact ⟨(write_cases hwrite).2, endsInName_of_write hwrite⟩

/-- **A report that has been written is written again**, which changes no more than its time. -/
theorem exists_emit_of_reported (h : Reported w r report) :
    ∃ w', (emit r report).exec w = (.ok (reportOutcome r report), w') ∧ w.Retimed w' := by
  cases hout : report.output with
  | none => exact ⟨w, emit_eq_ok.2 ⟨rfl, .inl ⟨hout, rfl⟩⟩, .refl w⟩
  | some out =>
    obtain ⟨hbears, hname, hslash⟩ := h out hout
    obtain ⟨w', hwrite, hretimed⟩ := hbears.write hname hslash
    exact ⟨w', emit_eq_ok.2 ⟨rfl, .inr ⟨out, hout, hwrite⟩⟩, hretimed⟩

/-! ## Commands on a settled tree -/

/-- What an update is about: the configuration, the manifest and the budget that it finds. -/
structure Finds (project : Path) (args : RatchetArgs) (config : ProjectConfig) (m : Manifest)
    (b : Budget) (w : Workspace) : Prop where
  hasConfig : ProjectConfig.load w project = .ok config
  hasManifest : Manifest.load w (inProject project args.manifest) = .ok m
  hasBudget : Budget.load w (budgetPath project config args) = .ok b

namespace Finds

theorem exec_check (h : Finds project args config m b w) (now : Timestamp) :
    (perform now ⟨project, .check args report⟩).exec w =
      (emit (Ratchet.report m b (.ofIds args.runs)) report).exec w := by
  have hload : (FileAction.look fun w => (ProjectConfig.load w project).mapError
      Failure.ofConfig).exec w = (.ok config, w) :=
    FileAction.exec_look_eq_ok.2 ⟨mapError_eq_ok.2 h.hasConfig, rfl⟩
  rw [perform, FileAction.exec_bind, hload]
  exact exec_check_of_load (loadManifest_eq_ok.2 ⟨h.hasManifest, rfl⟩) h.hasBudget

/-- An update that ends with a report has saved the tightened budget, if that is another one. -/
theorem update_eq_ok (h : Finds project args config m b w)
    (htightened : Ratchet.update m b (.ofIds args.runs) = tightened) :
    (perform now ⟨project, .update args report⟩).exec w = (.ok outcome, w') ↔
      ∃ w₁, (tightened = b ∧ w₁ = w ∨ tightened ≠ b ∧
          (tightened.save (budgetPath project config args)).exec w = (.ok (), w₁)) ∧
        (emit (Ratchet.report m tightened (.ofIds args.runs)) report).exec w₁ =
          (.ok outcome, w') := by
  have hload : (FileAction.look fun w => (ProjectConfig.load w project).mapError
      Failure.ofConfig).exec w = (.ok config, w) :=
    FileAction.exec_look_eq_ok.2 ⟨mapError_eq_ok.2 h.hasConfig, rfl⟩
  have hmanifest : (loadManifest project args).exec w = (.ok m, w) :=
    loadManifest_eq_ok.2 ⟨h.hasManifest, rfl⟩
  have hbudget : (loadBudget (budgetPath project config args)).exec w = (.ok b, w) :=
    loadBudget_eq_ok.2 ⟨h.hasBudget, rfl⟩
  rw [perform, FileAction.exec_bind, hload]
  change (update project config args report).exec w = _ ↔ _
  rw [update, FileAction.exec_bind, hmanifest]
  simp only [FileAction.exec_bind, hbudget, htightened]
  by_cases hsame : tightened = b
  · simp [hsame]
  · rw [if_pos hsame, FileAction.exec_bind_eq_ok]
    constructor
    · rintro ⟨_, w₁, hsave, hemit⟩
      exact ⟨w₁, .inr ⟨hsame, ratchetAction_eq_ok.1 hsave⟩, hemit⟩
    · rintro ⟨w₁, ⟨heq, -⟩ | ⟨-, hsave⟩, hemit⟩
      · exact absurd heq hsame
      · exact ⟨(), w₁, ratchetAction_eq_ok.2 hsave, hemit⟩

end Finds

/-- An update that ends with a report has found all three. -/
theorem exists_finds
    (h : (perform now ⟨project, .update args report⟩).exec w = (.ok outcome, w')) :
    ∃ config m b, Finds project args config m b w := by
  obtain ⟨config, w₁, hload, h⟩ := FileAction.exec_bind_eq_ok.1 h
  obtain ⟨hconfig, rfl⟩ := FileAction.exec_look_eq_ok.1 hload
  change (update project config args report).exec w = _ at h
  rw [update] at h
  obtain ⟨m, w₁, hmanifest, h⟩ := FileAction.exec_bind_eq_ok.1 h
  obtain ⟨hm, rfl⟩ := loadManifest_eq_ok.1 hmanifest
  obtain ⟨b, w₁, hbudget, -⟩ := FileAction.exec_bind_eq_ok.1 h
  exact ⟨config, m, b, mapError_eq_ok.1 hconfig, hm, (loadBudget_eq_ok.1 hbudget).1⟩

/-- The configuration, the manifest and the budget are there, the manifest has nothing to tighten in
the budget, and the report has been written. -/
structure Settled (project : Path) (args : RatchetArgs) (report : ReportArgs)
    (config : ProjectConfig) (m : Manifest) (b : Budget) (w : Workspace) : Prop extends
    Finds project args config m b w where
  tight : Ratchet.update m b (.ofIds args.runs) = b
  reported : Reported w (Ratchet.report m b (.ofIds args.runs)) report

namespace Settled

/-- Nothing in a settled tree depends on times. -/
theorem retimed (h : Settled project args report config m b w) (hv : w.Retimed v) :
    Settled project args report config m b v where
  hasConfig := ProjectConfig.load_of_keeps (hv.keeps _) h.hasConfig
  hasManifest := (hv.keeps _).loadManifest h.hasManifest
  hasBudget := (hv.keeps _).loadBudget h.hasBudget
  tight := h.tight
  reported out hout := by
    obtain ⟨hbears, hends⟩ := h.reported out hout
    exact ⟨hv.bears hbears, hends⟩

/-- **On a settled tree a check and an update do the same**: they report, which changes no more than
the time of the report. -/
theorem exists_run (h : Settled project args report config m b w) (now : Timestamp) :
    ∃ w', w.Retimed w' ∧
      (∀ command, command = .check args report ∨ command = .update args report →
        (perform now ⟨project, command⟩).exec w =
          (.ok (reportOutcome (Ratchet.report m b (.ofIds args.runs)) report), w')) ∧
      ((∀ out, report.output = some out → ¬ w'.Aliases out p) → w.Stands w' p) := by
  obtain ⟨w', hemit, hretimed⟩ := exists_emit_of_reported h.reported
  refine ⟨w', hretimed, ?_, stands_of_emit hemit⟩
  rintro command (rfl | rfl)
  · rw [h.exec_check now, hemit]
  · exact (h.update_eq_ok h.tight).2 ⟨w, .inl ⟨rfl, rfl⟩, hemit⟩

end Settled

/-- What comes after a tree while checks and updates with the same arguments are run, at whatever
times. -/
inductive Again (project : Path) (args : RatchetArgs) (report : ReportArgs) (w : Workspace) :
    Workspace → Prop
  | start : Again project args report w w
  | wait {v : Workspace} (h : Again project args report w v) (clock : Int) :
      Again project args report w { v with clock }
  | run {v v' : Workspace} (h : Again project args report w v) (now : Timestamp)
      (command : Command) (hcommand : command = .check args report ∨ command = .update args report)
      (hrun : ((perform now ⟨project, command⟩).exec v).2 = v') : Again project args report w v'

/-- **A settled tree stays as it is**, up to times, and a budget that no report is written to keeps
its time too. -/
theorem Settled.again (h : Settled project args report config m b w)
    (hout : ∀ out, report.output = some out → ¬ w.Aliases out p)
    (hagain : Again project args report w v) : w.Retimed v ∧ w.Stands v p := by
  induction hagain with
  | start => exact ⟨.refl w, .refl w p⟩
  | @wait v _ clock ih =>
    have hwait : v.Retimed { v with clock } := ⟨rfl, fun _ => rfl⟩
    exact ⟨ih.1.trans hwait, ih.2.trans ⟨fun _ => hwait.placeOf_iff, fun _ _ => rfl⟩⟩
  | run _ now command hcommand hrun ih =>
    obtain ⟨v₁, hretimed, hruns, hstands⟩ := (h.retimed ih.1).exists_run (p := p) now
    rw [hruns command hcommand] at hrun
    subst hrun
    have hall := ih.1.trans hretimed
    exact ⟨hall, ih.2.trans (hstands fun out hsome halias =>
      hout out hsome (hall.aliases_iff.1 halias))⟩

/-! ## Updates -/

/-- The temporary file of the budget, once it is written, and the report are none of the three files
that an update reads, and the budget is not the configuration in the end. -/
structure Apart (project : Path) (args : RatchetArgs) (report : ReportArgs) (p : Path)
    (w w' : Workspace) : Prop where
  temporary : ∀ q ∈ [ProjectConfig.file project, inProject project args.manifest, p],
    Budget.TemporaryApart w p q
  output : ∀ out, report.output = some out →
    ∀ q ∈ [ProjectConfig.file project, inProject project args.manifest, p], ¬ w'.Aliases out q
  budget : ¬ w'.Aliases p (ProjectConfig.file project)

/-- What is stored of the options of a manifest and of a budget comes back as it is. -/
structure Storable (m : Manifest) (b : Budget) : Prop where
  time : Timestamp.parse b.generatedAt.text = .ok b.generatedAt
  manifest : ∀ r ∈ m.runs, r.engineOptions.hasDouble = false ∧
    r.engineOptions.height ≤ Budget.optionsLimit
  budget : b.Stores fun s => s.engineOptions.hasDouble = false ∧
    s.engineOptions.height ≤ Budget.optionsLimit

theorem exists_parse_of_load (h : Manifest.load w p = .ok m) :
    ∃ text, w.readText p = .ok text ∧ Manifest.parse text p = .ok m := by
  rw [Manifest.load] at h
  split at h
  · cases h
  · next text htext => exact ⟨text, htext, h⟩

/-- A tightened budget is read from its file as itself. -/
theorem Finds.parse_tightened (h : Finds project args config m b w) (hstorable : Storable m b)
    (htightened : Ratchet.update m b (.ofIds args.runs) = tightened) (q : Path) :
    Budget.parse tightened.fileText q = .ok tightened := by
  obtain ⟨_, _, -, -, hbudget⟩ := Budget.load_eq_ok.1 h.hasBudget
  obtain ⟨_, -, hmanifest⟩ := exists_parse_of_load h.hasManifest
  have hover := Manifest.over_of_parse hmanifest
  have htime : Timestamp.parse tightened.generatedAt.text = .ok tightened.generatedAt := by
    rw [← htightened]
    exact hstorable.time
  refine Budget.parse_fileText htime ?_ q
  rw [← htightened]
  refine Ratchet.stores_update ?_ ?_
  · intro run held s hheld hs
    obtain ⟨hdouble, hheight⟩ := hstorable.budget run held s hheld hs
    exact ⟨(Budget.over_of_parse hbudget run held s hheld hs).normal, hdouble, hheight⟩
  · intro r hr
    obtain ⟨hdouble, hheight⟩ := hstorable.manifest r hr
    refine ⟨(EngineSignature.over_ofRun (hover r hr)).normal,
      EngineSignature.hasDouble_ofRun (hover r hr).normal hdouble, ?_⟩
    rwa [EngineSignature.height_ofRun (hover r hr)]

/-- The configuration is kept by a save over the budget. -/
theorem Finds.keeps_config (h : Finds project args config m b w)
    (hsave : (tightened.save (budgetPath project config args)).exec w = (.ok (), w'))
    (hregular : w'.isRegular (budgetPath project config args) = true)
    (hapart : Apart project args report (budgetPath project config args) w v')
    (hbudget : ¬ w'.Aliases (budgetPath project config args) (ProjectConfig.file project)) :
    w.Keeps w' (ProjectConfig.file project) where
  absent hnone := Budget.absent_beside_save h.hasBudget hsave hregular
    (hapart.temporary _ (by simp)) hnone hbudget
  read bytes hread := Budget.read_beside_save h.hasBudget hsave (hapart.temporary _ (by simp))
    (hapart.temporary _ (by simp)) hread
    (fun halias => ProjectConfig.load_ne_ok_of_aliases h.hasBudget halias h.hasConfig)
    fun _ => hbudget

/-- The manifest is kept by a save of a budget that it has tightened. -/
theorem Finds.load_manifest (h : Finds project args config m b w)
    (htightened : Ratchet.update m b (.ofIds args.runs) = tightened) (hchanged : tightened ≠ b)
    (hsave : (tightened.save (budgetPath project config args)).exec w = (.ok (), w'))
    (hapart : Apart project args report (budgetPath project config args) w v') :
    Manifest.load w' (inProject project args.manifest) = .ok m := by
  obtain ⟨text, htext, hparse⟩ := exists_parse_of_load h.hasManifest
  obtain ⟨bytes, hread, hdecode⟩ := readText_eq_ok.1 htext
  have hread' : w'.read (inProject project args.manifest) = .ok bytes := by
    refine Budget.read_beside_save h.hasBudget hsave (hapart.temporary _ (by simp))
      (hapart.temporary _ (by simp)) hread (fun halias => ?_) fun hempty => ?_
    · -- one text would be a manifest and a budget with runs
      obtain ⟨bytes', text', hread', htext', hbudget⟩ := Budget.load_eq_ok.1 h.hasBudget
      rw [halias.read_eq] at hread'
      cases (readText_eq_ok.2 ⟨bytes', hread', htext'⟩).symm.trans htext
      refine absurd ?_ hchanged
      rw [← htightened]
      exact Ratchet.update_of_empty (Budget.runs_of_manifest hbudget hparse)
    · subst hempty
      cases hdecode
      cases hparse
  rw [Manifest.load, readText_eq_ok.2 ⟨bytes, hread', hdecode⟩]
  exact hparse

/-- **The budget of an update that ends with a report is loaded as the update left it, exactly if it
is in a regular file.** -/
theorem Finds.load_iff_isRegular (h : Finds project args config m b w)
    (hstorable : Storable m b)
    (hdone : (perform now ⟨project, .update args report⟩).exec w = (.ok outcome, w'))
    (hapart : Apart project args report (budgetPath project config args) w w') :
    Budget.load w' (budgetPath project config args) =
        .ok (Ratchet.update m b (.ofIds args.runs)) ↔
      w'.isRegular (budgetPath project config args) = true := by
  obtain ⟨w₁, hsaved, hemit⟩ := (h.update_eq_ok rfl).1 hdone
  have hbudget : w₁.Stands w' (budgetPath project config args) :=
    stands_of_emit hemit fun out hout => hapart.output out hout _ (by simp)
  rw [hbudget.isRegular_eq, hbudget.load_iff]
  rcases hsaved with ⟨hsame, rfl⟩ | ⟨-, hsave⟩
  · rw [hsame]
    exact iff_of_true h.hasBudget (Budget.isRegular_of_load h.hasBudget)
  · rw [Budget.load_of_save hsave]
    exact and_iff_left (h.parse_tightened hstorable rfl _)

/-- An update that ends with a report, and whose budget is in a regular file, leaves nothing to
do. -/
theorem Finds.settled (h : Finds project args config m b w) (hstorable : Storable m b)
    (hdone : (perform now ⟨project, .update args report⟩).exec w = (.ok outcome, w'))
    (hapart : Apart project args report (budgetPath project config args) w w')
    (hregular : w'.isRegular (budgetPath project config args) = true) :
    Settled project args report config m (Ratchet.update m b (.ofIds args.runs)) w' := by
  have hload := (h.load_iff_isRegular hstorable hdone hapart).2 hregular
  obtain ⟨w₁, hsaved, hemit⟩ := (h.update_eq_ok rfl).1 hdone
  have hstands {q : Path} (hq : q ∈ [ProjectConfig.file project, inProject project args.manifest,
      budgetPath project config args]) : w₁.Stands w' q :=
    stands_of_emit hemit fun out hout => hapart.output out hout q hq
  have hbudget : w₁.Stands w' (budgetPath project config args) := hstands (by simp)
  refine ⟨⟨?_, ?_, hload⟩, Ratchet.update_update m b _, reported_of_emit hemit⟩
  · refine ProjectConfig.load_of_keeps ?_ h.hasConfig
    refine Keeps.trans ?_ (hstands (by simp)).keeps
    rcases hsaved with ⟨-, rfl⟩ | ⟨-, hsave⟩
    · exact .refl _ _
    · rw [hbudget.isRegular_eq] at hregular
      refine h.keeps_config hsave hregular hapart ?_
      rintro ⟨x, hx, hx'⟩
      exact hapart.budget ⟨x, (hbudget.place x).2 hx, ((hstands (by simp)).place x).2 hx'⟩
  · refine (hstands (by simp)).keeps.loadManifest ?_
    rcases hsaved with ⟨-, rfl⟩ | ⟨hchanged, hsave⟩
    · exact h.hasManifest
    · exact h.load_manifest rfl hchanged hsave hapart

/-- **After an update that ends with a report the budget is loaded as the update left it, exactly if
it is in a regular file**, and then a check and another update, however many of them have been run
in the meantime, end as the update did: they print the same and have the same exit code, the report
is in its file as it was, and the entry of the budget is not touched. -/
theorem agrees_of_updates
    (hdone : (perform now ⟨project, .update args report⟩).exec w = (.ok outcome, w')) :
    ∃ config m b, Finds project args config m b w ∧
      let budget := budgetPath project config args
      let tightened := Ratchet.update m b (.ofIds args.runs)
      (Storable m b → Apart project args report budget w w' →
        (Budget.load w' budget = .ok tightened ↔ w'.isRegular budget = true) ∧
        (w'.isRegular budget = true → ∀ v, Again project args report w' v → ∀ now,
          ∃ v', (perform now ⟨project, .check args report⟩).exec v = (.ok outcome, v') ∧
            (perform now ⟨project, .update args report⟩).exec v = (.ok outcome, v') ∧
            w'.Retimed v' ∧ Budget.load v' budget = .ok tightened ∧
            ∀ e, w'.Holds budget e → v'.Holds budget e)) := by
  obtain ⟨config, m, b, h⟩ := exists_finds hdone
  refine ⟨config, m, b, h, fun hstorable hapart => ?_⟩
  have hload := h.load_iff_isRegular hstorable hdone hapart
  refine ⟨hload, fun hregular v hagain now' => ?_⟩
  have hsettled := h.settled hstorable hdone hapart hregular
  have hout : ∀ out, report.output = some out → ¬ w'.Aliases out (budgetPath project config args) :=
    fun out hout => hapart.output out hout _ (by simp)
  obtain ⟨v', hretimed, hruns, -⟩ :=
    (hsettled.retimed (hsettled.again hout hagain).1).exists_run
      (p := budgetPath project config args) now'
  have hcheck := hruns _ (.inl rfl)
  have hupdate := hruns _ (.inr rfl)
  obtain ⟨hall, hkept⟩ :=
    hsettled.again hout (.run hagain now' _ (.inl rfl) (congrArg Prod.snd hcheck))
  obtain ⟨_, -, hemit⟩ := (h.update_eq_ok rfl).1 hdone
  rw [← (emit_eq_ok.1 hemit).1] at hcheck hupdate
  exact ⟨v', hcheck, hupdate, hall, (hall.keeps _).loadBudget (hload.2 hregular),
    fun e => hkept.holds⟩

/-! ## Updates in the root -/

theorem inRoot_config : InRoot (ProjectConfig.file ⟨"/"⟩) "auditgate.toml" :=
  ⟨by decide, by decide, by decide, by decide, by decide, by decide⟩

theorem inRoot_manifest : InRoot (inProject ⟨"/"⟩ ⟨"audit.json"⟩) "audit.json" :=
  ⟨by decide, by decide, by decide, by decide, by decide, by decide⟩

theorem inRoot_report : InRoot ⟨"/report.txt"⟩ "report.txt" :=
  ⟨by decide, by decide, by decide, by decide, by decide, by decide⟩

/-- A project in the root without a configuration, with a manifest without runs. -/
theorem finds_root (hconfig : w.pathExists (ProjectConfig.file ⟨"/"⟩) = false)
    (hmanifest : w.entries.get? ["audit.json"] = some (.file "{}".toUTF8 0))
    (hbudget : w.read ⟨"/budget.json"⟩ = .ok b.fileText.toUTF8)
    (hparse : Budget.parse b.fileText ⟨"/budget.json"⟩ = .ok b) :
    Finds ⟨"/"⟩ (rootArgs ⟨"/budget.json"⟩) .standard ⟨[]⟩ b w := by
  refine ⟨ProjectConfig.load_eq_ok.2 (.inl ⟨hconfig, rfl⟩), ?_, ?_⟩
  · change Manifest.load w (inProject ⟨"/"⟩ ⟨"audit.json"⟩) = _
    rw [inProject_manifest]
    exact load_manifest_root hmanifest
  · rw [budgetPath_rootArgs (by decide)]
    exact Budget.load_eq_ok.2 ⟨_, _, hbudget, Utf8.decode?_toUTF8 _, hparse⟩

theorem storable_allowingErrors (n : UInt64) : Storable ⟨[]⟩ (allowingErrors n) where
  time := Timestamp.parse_text Timestamp.valid_epoch
  manifest r hr := absurd hr List.not_mem_nil
  budget := by
    intro run held s hheld hs
    rw [allowingErrors, SortedMap.get?_ofList_eq_some (by simp)] at hheld
    obtain ⟨-, rfl⟩ := Prod.mk.inj (List.mem_singleton.1 hheld)
    cases hs

/-- Where the names of the three files of a project in the root lead. -/
structure Ways (w : Workspace) (config manifest budget : Target) : Prop where
  config : ∃ n, w.Leads [] ["auditgate.toml"] n config
  manifest : ∃ n, w.Leads [] ["audit.json"] n manifest
  budget : ∃ n, w.Leads [] ["budget.json"] n budget

theorem Ways.not_aliases {config manifest budget : Target} {x : Place}
    (h : Ways w config manifest budget) (hx : w.placeOf p = .ok x)
    (hnot : .found x ∉ [config, manifest, budget]) :
    ∀ q ∈ [ProjectConfig.file ⟨"/"⟩, inProject ⟨"/"⟩ ⟨"audit.json"⟩, ⟨"/budget.json"⟩],
      ¬ w.Aliases p q := by
  rintro q hq ⟨y, hy, hy'⟩
  obtain rfl := Except.ok.inj (hx.symm.trans hy)
  simp only [List.mem_cons, List.not_mem_nil, or_false] at hq
  obtain ⟨⟨_, hconfig⟩, ⟨_, hmanifest⟩, ⟨_, hbudget⟩⟩ := h
  rcases hq with rfl | rfl | rfl
  · simp [inRoot_config.target_eq hconfig hy'] at hnot
  · simp [inRoot_manifest.target_eq hmanifest hy'] at hnot
  · simp [Budget.inRoot_file.target_eq hbudget hy'] at hnot

theorem leads_file {name : String} {bytes : ByteArray} {modified : Int} (hname : Named name)
    (h : w.entries.get? [name] = some (.file bytes modified)) :
    w.Leads [] [name] 0 (.found [name]) :=
  .enter rfl hname _ h (by simp) (.done _)

/-- A manifest and a budget that are files, and no configuration. -/
theorem ways_files {manifest budget : ByteArray} {modified modified' : Int}
    (hconfig : w.entries.get? ["auditgate.toml"] = none)
    (hmanifest : w.entries.get? ["audit.json"] = some (.file manifest modified))
    (hbudget : w.entries.get? ["budget.json"] = some (.file budget modified')) :
    Ways w (.free [] "auditgate.toml") (.found ["audit.json"]) (.found ["budget.json"]) :=
  ⟨⟨0, .free rfl inRoot_config.named hconfig⟩, ⟨0, leads_file inRoot_manifest.named hmanifest⟩,
    ⟨0, leads_file Budget.inRoot_file.named hbudget⟩⟩

/-- The temporary file of a budget of the root is a file of its own, if its name is free. -/
theorem temporaryApart_root {config manifest budget : Target}
    (hfree : w.entries.get? ["budget.json.tmp"] = none)
    (hways : ∀ v : Workspace, (∀ name, name ≠ "budget.json.tmp" →
      v.entries.get? [name] = w.entries.get? [name]) → Ways v config manifest budget)
    (hnot : .found ["budget.json.tmp"] ∉ [config, manifest, budget]) :
    ∀ q ∈ [ProjectConfig.file ⟨"/"⟩, inProject ⟨"/"⟩ ⟨"audit.json"⟩, ⟨"/budget.json"⟩],
      Budget.TemporaryApart w ⟨"/budget.json"⟩ q := by
  intro q hq bytes w₁ hwrite
  rw [temporaryPath_root] at hwrite ⊢
  rw [Budget.inRoot_temporary.write_free (by decide) (by decide) hfree] at hwrite
  obtain rfl := Except.ok.inj hwrite
  have hplace := placeOf_eq_ok.2 (Budget.inRoot_temporary.locate_found
    (w := w.put ["budget.json.tmp"] (.file bytes w.clock)) (by rw [get?_put, if_pos rfl]) (by simp)
    true)
  refine (hways _ fun name hname => ?_).not_aliases hplace hnot q hq
  rw [get?_put, if_neg (by simpa using hname)]

/-- An update in the root that tightens the budget. -/
theorem perform_update_root (now : Timestamp) (report : ReportArgs)
    (h : Finds ⟨"/"⟩ (rootArgs ⟨"/budget.json"⟩) .standard ⟨[]⟩ b w)
    (hchanged : Ratchet.update ⟨[]⟩ b .all ≠ b)
    (hsave : ((Ratchet.update ⟨[]⟩ b .all).save ⟨"/budget.json"⟩).exec w = (.ok (), v))
    (hemit : (emit (Ratchet.report ⟨[]⟩ (Ratchet.update ⟨[]⟩ b .all) .all) report).exec v =
      (.ok outcome, w')) :
    (perform now ⟨⟨"/"⟩, .update (rootArgs ⟨"/budget.json"⟩) report⟩).exec w =
      (.ok outcome, w') := by
  refine (h.update_eq_ok rfl).2 ⟨v, .inr ⟨hchanged, ?_⟩, hemit⟩
  rwa [budgetPath_rootArgs (by decide)]

theorem update_allowingErrors_ne :
    Ratchet.update ⟨[]⟩ (allowingErrors 5) .all ≠ allowingErrors 5 := by
  decide +kernel

/-- An update that tightens a budget and writes its report, and what follows. -/
theorem agrees_of_updates_tightened :
    let p : Path := ⟨"/budget.json"⟩
    let report : ReportArgs := ⟨false, .text, some ⟨"/report.txt"⟩⟩
    let tightened := Ratchet.update ⟨[]⟩ (allowingErrors 5) .all
    ∃ outcome w', Finds ⟨"/"⟩ (rootArgs p) .standard ⟨[]⟩ (allowingErrors 5) loose ∧
      Storable ⟨[]⟩ (allowingErrors 5) ∧
      (perform .epoch ⟨⟨"/"⟩, .update (rootArgs p) report⟩).exec loose = (.ok outcome, w') ∧
      Apart ⟨"/"⟩ (rootArgs p) report p loose w' ∧ tightened ≠ allowingErrors 5 ∧
      Budget.load w' p = .ok tightened ∧
      ∃ v', (perform .epoch ⟨⟨"/"⟩, .check (rootArgs p) report⟩).exec w' = (.ok outcome, v') ∧
        (perform .epoch ⟨⟨"/"⟩, .update (rootArgs p) report⟩).exec w' = (.ok outcome, v') := by
  intro p report tightened
  have hmanifest : loose.entries.get? ["audit.json"] = some (.file "{}".toUTF8 0) := by
    simp [loose, SortedMap.get?_ofList]
  have hbudget : loose.entries.get? ["budget.json"] =
      some (.file (allowingErrors 5).fileText.toUTF8 0) := by simp [loose, SortedMap.get?_ofList]
  have hfree (name : String) (hname : name ∉ ["audit.json", "budget.json"]) :
      loose.entries.get? [name] = none := by
    simp only [List.mem_cons, List.not_mem_nil, or_false, not_or] at hname
    simp [loose, SortedMap.get?_ofList, Ne.symm hname.1, Ne.symm hname.2]
  have hpath : budgetPath ⟨"/"⟩ .standard (rootArgs p) = p := budgetPath_rootArgs (by decide) _
  have hfinds : Finds ⟨"/"⟩ (rootArgs p) .standard ⟨[]⟩ (allowingErrors 5) loose :=
    finds_root (inRoot_config.pathExists_free (hfree _ (by decide))) hmanifest
      (Budget.inRoot_file.read_file hbudget) (parse_unsigned rfl p)
  obtain ⟨w₁, hsave, hentries⟩ := Budget.exists_save_over tightened (w := loose)
    (hfree _ (by decide)) (by simp [isDirectoryAt, hbudget])
  have hwrite : w₁.write ⟨"/report.txt"⟩
      (reportBytes (Ratchet.report ⟨[]⟩ tightened .all) report) = .ok _ :=
    inRoot_report.write_free (by decide) (by decide)
      (by rw [hentries, if_neg (by decide), hfree _ (by decide)])
  generalize hw' : w₁.put _ _ = w' at hwrite
  have hdone := perform_update_root .epoch report hfinds update_allowingErrors_ne hsave
    (emit_eq_ok.2 ⟨rfl, .inr ⟨_, rfl, hwrite⟩⟩)
  have hbudget' : w'.entries.get? ["budget.json"] =
      some (.file tightened.fileText.toUTF8 loose.clock) := by
    rw [← hw', get?_put, if_neg (by decide), hentries, if_pos rfl]
  have hother {name : String} (hname : name ∉ ["report.txt", "budget.json"]) :
      w'.entries.get? [name] = loose.entries.get? [name] := by
    simp only [List.mem_cons, List.not_mem_nil, or_false, not_or] at hname
    rw [← hw', get?_put, if_neg (by simpa using hname.1), hentries, if_neg (by simpa using hname.2)]
  have hways := ways_files ((hother (by decide)).trans (hfree _ (by decide)))
    ((hother (by decide)).trans hmanifest) hbudget'
  have hapart : Apart ⟨"/"⟩ (rootArgs p) report p loose w' := by
    refine ⟨temporaryApart_root (hfree _ (by decide)) (fun v hv => ways_files
      ((hv _ (by decide)).trans (hfree _ (by decide))) ((hv _ (by decide)).trans hmanifest)
      ((hv _ (by decide)).trans hbudget)) (by simp), fun out hout => ?_, ?_⟩
    · obtain rfl := Option.some.inj hout
      obtain ⟨bytes, modified, hreport⟩ : ∃ bytes modified,
          w'.entries.get? ["report.txt"] = some (.file bytes modified) :=
        ⟨_, _, by rw [← hw', get?_put, if_pos rfl]⟩
      exact hways.not_aliases
        (placeOf_eq_ok.2 (inRoot_report.locate_found hreport (by simp) true)) (by simp)
    · rintro ⟨x, -, hx⟩
      obtain ⟨n, hconfig⟩ := hways.config
      cases inRoot_config.target_eq hconfig hx
  have hregular : w'.isRegular p = true := isRegular_iff.2 ⟨_, _, _,
    placeOf_eq_ok.2 (Budget.inRoot_file.locate_found hbudget' (by simp) true), by decide, hbudget'⟩
  obtain ⟨config, m, b, hfound, hagrees⟩ := agrees_of_updates hdone
  obtain rfl := Except.ok.inj (hfinds.hasConfig.symm.trans hfound.hasConfig)
  obtain rfl := Except.ok.inj (hfinds.hasManifest.symm.trans hfound.hasManifest)
  obtain rfl := Except.ok.inj (hfinds.hasBudget.symm.trans hfound.hasBudget)
  obtain ⟨hload, hagain⟩ := hagrees (storable_allowingErrors 5) (by rwa [hpath])
  rw [hpath] at hload hagain
  obtain ⟨v', hcheck, hupdate, -⟩ := hagain hregular w' .start .epoch
  exact ⟨_, w', hfinds, storable_allowingErrors 5, hdone, hapart, update_allowingErrors_ne,
    hload.2 hregular, v', hcheck, hupdate⟩

/-! ## Updates that checks do not agree with -/

/-- A budget of five errors, and a link to a device in place of its temporary file. -/
def drained : Workspace :=
  ⟨SortedMap.ofList [(["audit.json"], .file "{}".toUTF8 0),
    (["budget.json"], .file (allowingErrors 5).fileText.toUTF8 0),
    (["budget.json.tmp"], .link "/null"), (["null"], .device)], [], 1⟩

/-- An update that gives the tightened budget to a device, and puts that in place of the budget. -/
theorem unloaded_of_drained :
    let p : Path := ⟨"/budget.json"⟩
    let report : ReportArgs := ⟨false, .text, none⟩
    ∃ outcome w', Finds ⟨"/"⟩ (rootArgs p) .standard ⟨[]⟩ (allowingErrors 5) drained ∧
      Storable ⟨[]⟩ (allowingErrors 5) ∧
      (perform .epoch ⟨⟨"/"⟩, .update (rootArgs p) report⟩).exec drained = (.ok outcome, w') ∧
      Apart ⟨"/"⟩ (rootArgs p) report p drained w' ∧ ∀ b, Budget.load w' p ≠ .ok b := by
  intro p report
  have hmanifest : drained.entries.get? ["audit.json"] = some (.file "{}".toUTF8 0) := by
    simp [drained, SortedMap.get?_ofList]
  have hbudget : drained.entries.get? ["budget.json"] =
      some (.file (allowingErrors 5).fileText.toUTF8 0) := by simp [drained, SortedMap.get?_ofList]
  have hlink : drained.entries.get? ["budget.json.tmp"] = some (.link "/null") := by
    simp [drained, SortedMap.get?_ofList]
  have hdevice : drained.entries.get? ["null"] = some .device := by
    simp [drained, SortedMap.get?_ofList]
  have hconfig : drained.entries.get? ["auditgate.toml"] = none := by
    simp [drained, SortedMap.get?_ofList]
  have hfinds : Finds ⟨"/"⟩ (rootArgs p) .standard ⟨[]⟩ (allowingErrors 5) drained :=
    finds_root (inRoot_config.pathExists_free hconfig) hmanifest
      (Budget.inRoot_file.read_file hbudget) (parse_unsigned rfl p)
  obtain ⟨w', hsave, hplace, hload, hother⟩ := Budget.exists_save_device
    (Ratchet.update ⟨[]⟩ (allowingErrors 5) .all) hlink hdevice (by simp [isDirectoryAt, hbudget])
  have hdone := perform_update_root .epoch report hfinds
    update_allowingErrors_ne hsave (emit_eq_ok.2 ⟨rfl, .inl ⟨rfl, rfl⟩⟩)
  refine ⟨_, w', hfinds, storable_allowingErrors 5, hdone, ⟨?_, ?_, ?_⟩, hload⟩
  · intro q hq bytes w₁ hwrite
    rw [temporaryPath_root] at hwrite ⊢
    have hplace := Budget.inRoot_temporary.placeOf_null hlink hdevice
    rw [write_device (by decide) (by decide) hplace (by simp) hdevice] at hwrite
    obtain rfl := Except.ok.inj hwrite
    exact (ways_files hconfig hmanifest hbudget).not_aliases hplace (by simp) q hq
  · intro out hout
    cases hout
  · rintro ⟨x, -, hx⟩
    obtain ⟨-, n, -, hway⟩ := locate_eq_ok.1 (placeOf_eq_ok.1 hx)
    exact inRoot_config.not_found ((hother _ (by simp)).trans hconfig) hway

/-- The target of a link that comes back to the root 39 times, on its way to the budget. -/
def detour : String :=
  "d/d/d/d/d/d/d/d/d/d/d/d/d/d/d/d/d/d/d/d/d/d/d/d/d/d/d/d/d/d/d/d/d/d/d/d/d/d/d/budget.json"

/-- Steps over links to the root come back there. -/
theorem leads_back {rest : List String} {n : Nat} {t : Target}
    (hlink : w.entries.get? ["d"] = some (.link ".")) (h : w.Leads [] rest n t) :
    ∀ k, w.Leads [] (List.replicate k "d" ++ rest) (n + k) t
  | 0 => h
  | k + 1 => by
    have hdot : steps "." = ["."] := by decide
    have hway :
        w.Leads (linkBase [] ".") (steps "." ++ (List.replicate k "d" ++ rest)) (n + k) t := by
      rw [hdot]
      exact .here rfl rfl (leads_back hlink h k)
    exact .follow rfl ⟨by decide, by decide, by decide⟩ "." hlink (by decide) hway

/-- The way of a configuration that is a link to the budget with a detour. -/
theorem leads_detour {n : Nat} {t : Target} (hback : w.entries.get? ["d"] = some (.link "."))
    (hlink : w.entries.get? ["auditgate.toml"] = some (.link detour))
    (h : w.Leads [] ["budget.json"] n t) : w.Leads [] ["auditgate.toml"] (n + 40) t := by
  have hsteps : steps detour = List.replicate 39 "d" ++ ["budget.json"] := by decide +kernel
  have hway : w.Leads (linkBase [] detour) (steps detour ++ []) (n + 39) t := by
    rw [hsteps, List.append_nil]
    exact leads_back hback h 39
  exact .follow rfl inRoot_config.named detour hlink (by decide) hway

/-- A configuration that leads to the budget, over one link too many as long as the budget is a link
itself. -/
def distant : Workspace :=
  ⟨SortedMap.ofList [(["audit.json"], .file "{}".toUTF8 0), (["auditgate.toml"], .link detour),
    (["budget.json"], .link "real.json"), (["d"], .link "."),
    (["real.json"], .file (allowingErrors 5).fileText.toUTF8 0)], [], 1⟩

/-- An update that puts a file in place of the link: now the budget is the configuration. -/
theorem unchecked_of_distant :
    let p : Path := ⟨"/budget.json"⟩
    let report : ReportArgs := ⟨false, .text, none⟩
    ∃ outcome w', Finds ⟨"/"⟩ (rootArgs p) .standard ⟨[]⟩ (allowingErrors 5) distant ∧
      Storable ⟨[]⟩ (allowingErrors 5) ∧
      (perform .epoch ⟨⟨"/"⟩, .update (rootArgs p) report⟩).exec distant = (.ok outcome, w') ∧
      (∀ q ∈ [ProjectConfig.file ⟨"/"⟩, inProject ⟨"/"⟩ ⟨"audit.json"⟩, p],
        Budget.TemporaryApart distant p q) ∧
      Budget.load w' p = .ok (Ratchet.update ⟨[]⟩ (allowingErrors 5) .all) ∧
      ∀ v, (perform .epoch ⟨⟨"/"⟩, .check (rootArgs p) report⟩).exec w' ≠ (.ok outcome, v) := by
  intro p report
  have hmanifest : distant.entries.get? ["audit.json"] = some (.file "{}".toUTF8 0) := by
    simp [distant, SortedMap.get?_ofList]
  have hconfig : distant.entries.get? ["auditgate.toml"] = some (.link detour) := by
    simp [distant, SortedMap.get?_ofList]
  have hbudget : distant.entries.get? ["budget.json"] = some (.link "real.json") := by
    simp [distant, SortedMap.get?_ofList]
  have hback : distant.entries.get? ["d"] = some (.link ".") := by
    simp [distant, SortedMap.get?_ofList]
  have hreal : distant.entries.get? ["real.json"] =
      some (.file (allowingErrors 5).fileText.toUTF8 0) := by
    simp [distant, SortedMap.get?_ofList]
  have hfree : distant.entries.get? ["budget.json.tmp"] = none := by
    simp [distant, SortedMap.get?_ofList]
  -- 41 links to the configuration, one to the budget
  have hways (v : Workspace) (hv : ∀ name, name ≠ "budget.json.tmp" →
      v.entries.get? [name] = distant.entries.get? [name]) :
      v.Leads [] ["auditgate.toml"] 41 (.found ["real.json"]) ∧
        v.Leads [] ["budget.json"] 1 (.found ["real.json"]) := by
    have hsteps : steps "real.json" = ["real.json"] := by decide
    have hreal' := leads_file ⟨by decide, by decide, by decide⟩ ((hv _ (by decide)).trans hreal)
    have hway : v.Leads [] ["budget.json"] 1 (.found ["real.json"]) :=
      .follow rfl Budget.inRoot_file.named "real.json" ((hv _ (by decide)).trans hbudget)
        (by decide) (hsteps ▸ hreal')
    exact ⟨leads_detour ((hv _ (by decide)).trans hback) ((hv _ (by decide)).trans hconfig) hway,
      hway⟩
  obtain ⟨hlong, hshort⟩ := hways distant fun _ _ => rfl
  have hfinds : Finds ⟨"/"⟩ (rootArgs p) .standard ⟨[]⟩ (allowingErrors 5) distant := by
    refine finds_root ?_ hmanifest ?_ (parse_unsigned rfl p)
    · rw [← Bool.not_eq_true, pathExists_iff]
      rintro ⟨x, hx⟩
      obtain ⟨-, n, hn, hway⟩ := locate_eq_ok.1 (placeOf_eq_ok.1 hx)
      rw [inRoot_config.steps, start, inRoot_config.absolute] at hway
      obtain ⟨rfl, -⟩ := hlong.unique hway
      exact absurd hn (by decide)
    · have hplace : distant.placeOf p = .ok ["real.json"] := by
        refine placeOf_eq_ok.2 (locate_eq_ok.2 ⟨by decide, 1, by decide, ?_⟩)
        rw [Budget.inRoot_file.steps, start, Budget.inRoot_file.absolute]
        exact hshort
      rw [read_eq hplace, bytesAt, hreal]
      rfl
  obtain ⟨w', hsave, hentries⟩ := Budget.exists_save_over
    (Ratchet.update ⟨[]⟩ (allowingErrors 5) .all) hfree (by simp [isDirectoryAt, hbudget])
  have hdone := perform_update_root .epoch report hfinds
    update_allowingErrors_ne hsave (emit_eq_ok.2 ⟨rfl, .inl ⟨rfl, rfl⟩⟩)
  have htemporary := temporaryApart_root hfree (fun v hv => ⟨⟨41, (hways v hv).1⟩,
    ⟨0, leads_file inRoot_manifest.named ((hv _ (by decide)).trans hmanifest)⟩,
    ⟨1, (hways v hv).2⟩⟩) (by simp)
  have hbudget' := hentries ["budget.json"]
  rw [if_pos rfl] at hbudget'
  have hload : Budget.load w' p = .ok (Ratchet.update ⟨[]⟩ (allowingErrors 5) .all) := by
    refine Budget.load_eq_ok.2 ⟨_, _, Budget.inRoot_file.read_file hbudget',
      Utf8.decode?_toUTF8 _, ?_⟩
    rw [update_allowingErrors]
    exact parse_unsigned rfl p
  -- the budget is no link any more, and 40 links are few enough
  have halias : w'.Aliases p (ProjectConfig.file ⟨"/"⟩) := by
    have hway : w'.Leads [] ["auditgate.toml"] 40 (.found ["budget.json"]) :=
      leads_detour (by rw [hentries, if_neg (by decide), hback])
        (by rw [hentries, if_neg (by decide), hconfig])
        (leads_file Budget.inRoot_file.named hbudget')
    refine ⟨["budget.json"],
      placeOf_eq_ok.2 (Budget.inRoot_file.locate_found hbudget' (by simp) true),
      placeOf_eq_ok.2 (locate_eq_ok.2 ⟨inRoot_config.text, 40, le_refl _, ?_⟩)⟩
    rw [inRoot_config.steps, start, inRoot_config.absolute]
    exact hway
  refine ⟨_, w', hfinds, storable_allowingErrors 5, hdone, htemporary, hload, fun v hcheck => ?_⟩
  obtain ⟨config, _, hlook, -⟩ := FileAction.exec_bind_eq_ok.1 hcheck
  exact ProjectConfig.load_ne_ok_of_aliases hload halias
    (mapError_eq_ok.1 (FileAction.exec_look_eq_ok.1 hlook).1)

/-- **Two updates that checks do not agree with**: one whose budget is given to a device, and one
after which the budget is the configuration. -/
theorem not_agreeing :
    (∃ outcome w', Finds ⟨"/"⟩ (rootArgs ⟨"/budget.json"⟩) .standard ⟨[]⟩ (allowingErrors 5)
        drained ∧
      Storable ⟨[]⟩ (allowingErrors 5) ∧
      (perform .epoch ⟨⟨"/"⟩, .update (rootArgs ⟨"/budget.json"⟩) ⟨false, .text, none⟩⟩).exec
        drained = (.ok outcome, w') ∧
      Apart ⟨"/"⟩ (rootArgs ⟨"/budget.json"⟩) ⟨false, .text, none⟩ ⟨"/budget.json"⟩ drained w' ∧
      ∀ b, Budget.load w' ⟨"/budget.json"⟩ ≠ .ok b) ∧
    ∃ outcome w', Finds ⟨"/"⟩ (rootArgs ⟨"/budget.json"⟩) .standard ⟨[]⟩ (allowingErrors 5)
        distant ∧
      Storable ⟨[]⟩ (allowingErrors 5) ∧
      (perform .epoch ⟨⟨"/"⟩, .update (rootArgs ⟨"/budget.json"⟩) ⟨false, .text, none⟩⟩).exec
        distant = (.ok outcome, w') ∧
      (∀ q ∈ [ProjectConfig.file ⟨"/"⟩, inProject ⟨"/"⟩ ⟨"audit.json"⟩, ⟨"/budget.json"⟩],
        Budget.TemporaryApart distant ⟨"/budget.json"⟩ q) ∧
      Budget.load w' ⟨"/budget.json"⟩ = .ok (Ratchet.update ⟨[]⟩ (allowingErrors 5) .all) ∧
      ∀ v, (perform .epoch ⟨⟨"/"⟩, .check (rootArgs ⟨"/budget.json"⟩)
        ⟨false, .text, none⟩⟩).exec w' ≠ (.ok outcome, v) :=
  ⟨unloaded_of_drained, unchecked_of_distant⟩

end CommandLine

end AnalysisGate
