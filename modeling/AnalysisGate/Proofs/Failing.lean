import AnalysisGate.Proofs.Reloading
import AnalysisGate.Proofs.Workspace.Standing
import Mathlib

/-!
Commands that fail.

A command that saves a budget saves it once, and fails before that or in it. A save that fails has
at most made the directory of the budget and written the temporary file (`Budget.save_eq_error`),
so what the path of the budget leads to stays as it is. One failure comes later: an update saves
the tightened budget first and writes its report then, so where the report cannot be written the
budget is tightened already (`CommandLine.spares_of_failed`).
-/
namespace AnalysisGate

open Workspace

/-! ## Saves that fail -/

namespace Budget

variable {w w' : Workspace} {p : Path} {b : Budget}

/-- What stood at the path of a budget stands there as it did, and where nothing stands once the
directory of the budget is made, nothing does. -/
structure Spares (w w' : Workspace) (p : Path) : Prop where
  kept : ∀ e, w.Holds p e → w'.Holds p e
  absent : (housed w p).pathExists p = false → w'.pathExists p = false

theorem spares_refl (w : Workspace) (p : Path) : Spares w w p where
  kept _ he := he
  absent h := by
    by_contra hexists
    rw [Bool.not_eq_false] at hexists
    cases h.symm.trans ((housed_grows w p).pathExists hexists)

/-- Making the directory of a budget spares it. -/
theorem spares_housed (w : Workspace) (p : Path) : Spares w (housed w p) p :=
  ⟨fun _ => (housed_grows w p).holds, id⟩

/-- A save that fails stops with the directory of the budget, or with the temporary file. -/
theorem save_eq_error {e : RatchetError} (h : (b.save p).exec w = (.error e, w')) :
    w' = housed w p ∨ (housed w p).write (temporaryPath p) b.fileText.toUTF8 = .ok w' := by
  have hhoused := exec_house w p
  rw [save_eq] at h
  rcases FileAction.exec_bind_eq_error.1 h with hhouse | ⟨_, w₀, hhouse, h⟩
  · rw [hhouse] at hhoused
    exact .inl hhoused
  rw [hhouse] at hhoused
  obtain rfl : w₀ = housed w p := hhoused
  rcases FileAction.exec_bind_eq_error.1 h with hwrite | ⟨_, w₁, hwrite, h⟩
  · exact .inl (FileAction.exec_change_eq_error.1 hwrite).2.symm
  · obtain rfl := (FileAction.exec_change_eq_error.1 h).2
    exact .inr (FileAction.exec_change_eq_ok.1 hwrite)

/-- **A save that fails spares the budget**, unless its temporary file is the budget itself. -/
theorem spares_of_save {e : RatchetError} (h : (b.save p).exec w = (.error e, w'))
    (halias : ¬ w'.Aliases (temporaryPath p) p) : Spares w w' p := by
  rcases save_eq_error h with rfl | hwrite
  · exact spares_housed w p
  · have hstands := (write_cases hwrite).1.stands halias
    have hspares := spares_housed w p
    exact ⟨fun e he => hstands.holds (hspares.kept e he),
      fun hnone => hstands.pathExists_eq.trans (hspares.absent hnone)⟩

end Budget

/-! ## Commands -/

namespace CommandLine

variable {now : Timestamp} {project : Path} {config : ProjectConfig} {args : RatchetArgs}
  {report : ReportArgs} {w w' : Workspace} {f : Failure} {p : Path} {b : Budget}

theorem loadManifest_eq_error (h : (loadManifest project args).exec w = (.error f, w')) :
    w' = w := by
  rcases exec_loadManifest project args w with ⟨f', hf⟩ | ⟨m, -, hm⟩
  · rw [h] at hf
    exact (Prod.mk.inj hf).2
  · rw [h] at hm
    cases hm

theorem loadBudget_eq_error (h : (loadBudget p).exec w = (.error f, w')) : w' = w := by
  rcases exec_loadBudget p w with ⟨f', hf⟩ | ⟨b, -, hb⟩
  · rw [h] at hf
    exact (Prod.mk.inj hf).2
  · rw [h] at hb
    cases hb

theorem loadBudget_eq_ok :
    (loadBudget p).exec w = (.ok b, w') ↔ Budget.load w p = .ok b ∧ w = w' := by
  rw [loadBudget, FileAction.exec_look_eq_ok]
  cases Budget.load w p <;> simp [Except.mapError]

theorem ratchetAction_eq_error {α : Type} {act : FileAction RatchetError α} :
    (ratchetAction act).exec w = (.error f, w') ↔
      ∃ e, act.exec w = (.error e, w') ∧ f = .ofRatchet e := by
  unfold ratchetAction
  rw [FileAction.exec, ExceptT.run, StateT.run]
  rcases act.exec w with ⟨e | a, w₁⟩
  · simp [eq_comm, and_comm]
  · simp

/-- A report that cannot be written changes nothing. -/
theorem emit_eq_error {r : Report} (h : (emit r report).exec w = (.error f, w')) :
    w' = w ∧ ∃ out e, report.output = some out ∧
      w.write out (r.render false report.format (r.exitCode report.ignoreSignature)).toUTF8 =
        .error e := by
  rw [emit] at h
  cases hout : report.output with
  | none =>
    rw [hout] at h
    cases h
  | some out =>
    rw [hout] at h
    rcases FileAction.exec_bind_eq_error.1 h with hwrite | ⟨_, w₁, -, h⟩
    · obtain ⟨hfailed, rfl⟩ := FileAction.exec_change_eq_error.1 hwrite
      cases hresult : w.write out (r.render false report.format
          (r.exitCode report.ignoreSignature)).toUTF8 with
      | error e => exact ⟨rfl, out, e, rfl, hresult⟩
      | ok w₁ =>
        rw [hresult] at hfailed
        cases hfailed
    · cases h

/-- An `init` fails before it changes anything, or in its save. -/
theorem init_eq_error {severities targets : List String} {force : Bool}
    (h : (init now project config args severities targets force).exec w = (.error f, w')) :
    w' = w ∨ ∃ b : Budget, ∃ e,
      (b.save (budgetPath project config args)).exec w = (.error e, w') := by
  rw [init] at h
  rcases FileAction.exec_bind_eq_error.1 h with hnew | ⟨_, w₁, hnew, h⟩
  · exact .inl (FileAction.exec_look_eq_error.1 hnew).2.symm
  obtain ⟨-, rfl⟩ := FileAction.exec_look_eq_ok.1 hnew
  rcases FileAction.exec_bind_eq_error.1 h with hmanifest | ⟨m, w₁, hmanifest, h⟩
  · exact .inl (loadManifest_eq_error hmanifest)
  obtain ⟨-, rfl⟩ := loadManifest_eq_ok.1 hmanifest
  rcases FileAction.exec_bind_eq_error.1 h with htracked | ⟨tracked, w₁, htracked, h⟩
  · exact .inl (FileAction.exec_lift_eq_error.1 htracked).2.symm
  obtain ⟨-, rfl⟩ := FileAction.exec_lift_eq_ok.1 htracked
  rcases FileAction.exec_bind_eq_error.1 h with hfloors | ⟨floors, w₁, hfloors, h⟩
  · exact .inl (FileAction.exec_lift_eq_error.1 hfloors).2.symm
  obtain ⟨-, rfl⟩ := FileAction.exec_lift_eq_ok.1 hfloors
  rcases FileAction.exec_bind_eq_error.1 h with hsave | ⟨_, w₁, -, h⟩
  · obtain ⟨e, hsave, -⟩ := ratchetAction_eq_error.1 hsave
    exact .inr ⟨_, e, hsave⟩
  · cases h

theorem refreshSignature_eq_error
    (h : (refreshSignature project config args).exec w = (.error f, w')) :
    w' = w ∨ ∃ b : Budget, ∃ e,
      (b.save (budgetPath project config args)).exec w = (.error e, w') := by
  rw [refreshSignature] at h
  rcases FileAction.exec_bind_eq_error.1 h with hmanifest | ⟨m, w₁, hmanifest, h⟩
  · exact .inl (loadManifest_eq_error hmanifest)
  obtain ⟨-, rfl⟩ := loadManifest_eq_ok.1 hmanifest
  rcases FileAction.exec_bind_eq_error.1 h with hbudget | ⟨b, w₁, hbudget, h⟩
  · exact .inl (loadBudget_eq_error hbudget)
  obtain ⟨-, rfl⟩ := loadBudget_eq_ok.1 hbudget
  rcases FileAction.exec_bind_eq_error.1 h with hsave | ⟨_, w₁, -, h⟩
  · obtain ⟨e, hsave, -⟩ := ratchetAction_eq_error.1 hsave
    exact .inr ⟨_, e, hsave⟩
  · cases h

/-- An update that has saved a tightened budget and then cannot write its report. -/
def Unreported (project : Path) (command : Command) (p : Path) (w w' : Workspace) : Prop :=
  ∃ args report m b out e, command = .update args report ∧ report.output = some out ∧
    Manifest.load w (inProject project args.manifest) = .ok m ∧ Budget.load w p = .ok b ∧
    let updated := Ratchet.update m b (.ofIds args.runs)
    let r := Ratchet.report m updated (.ofIds args.runs)
    updated ≠ b ∧ (updated.save p).exec w = (.ok (), w') ∧
      w'.write out (r.render false report.format (r.exitCode report.ignoreSignature)).toUTF8 =
        .error e

/-- An update fails before it changes anything, in its save, or after that. -/
theorem update_eq_error
    (h : (update project config args report).exec w = (.error f, w')) :
    w' = w ∨ (∃ b : Budget, ∃ e,
        (b.save (budgetPath project config args)).exec w = (.error e, w')) ∨
      Unreported project (.update args report) (budgetPath project config args) w w' := by
  rw [update] at h
  rcases FileAction.exec_bind_eq_error.1 h with hmanifest | ⟨m, w₁, hmanifest, h⟩
  · exact .inl (loadManifest_eq_error hmanifest)
  obtain ⟨hm, rfl⟩ := loadManifest_eq_ok.1 hmanifest
  rcases FileAction.exec_bind_eq_error.1 h with hbudget | ⟨b, w₁, hbudget, h⟩
  · exact .inl (loadBudget_eq_error hbudget)
  obtain ⟨hb, rfl⟩ := loadBudget_eq_ok.1 hbudget
  simp only at h
  split at h
  · next hchanged =>
    rcases FileAction.exec_bind_eq_error.1 h with hsave | ⟨_, w₁, hsave, h⟩
    · obtain ⟨e, hsave, -⟩ := ratchetAction_eq_error.1 hsave
      exact .inr (.inl ⟨_, e, hsave⟩)
    · obtain ⟨rfl, out, e, hout, hwrite⟩ := emit_eq_error h
      exact .inr (.inr ⟨args, report, m, b, out, e, rfl, hout, hm, hb, hchanged,
        ratchetAction_eq_ok.1 hsave, hwrite⟩)
  · exact .inl (emit_eq_error h).1

theorem mapError_eq_ok {ε ε' α : Type} {r : Except ε α} {word : ε → ε'} {a : α} :
    r.mapError word = .ok a ↔ r = .ok a := by
  cases r <;> simp [Except.mapError]

/-- What a command is about that saves a budget. -/
def Command.saving? : Command → Option RatchetArgs
  | .init args _ _ _ | .update args _ | .refreshSignature args => some args
  | _ => none

/-- A command that saves a budget to a path fails, and its temporary file is not the budget. -/
structure Fails (now : Timestamp) (i : Invocation) (w w' : Workspace) (p : Path) : Prop where
  asked : ∃ args, i.command.saving? = some args ∧
    ∀ config, ProjectConfig.load w i.project = .ok config → budgetPath i.project config args = p
  failed : ∃ f, (perform now i).exec w = (.error f, w')
  temporary : ¬ w'.Aliases (Budget.temporaryPath p) p

/-- **A command that fails spares the budget**: it stays as it is, with its bytes and its time, or
absent. An update is the exception whose budget is saved when its report cannot be written. -/
theorem spares_of_failed {i : Invocation} (h : Fails now i w w' p) :
    Budget.Spares w w' p ∨ Unreported i.project i.command p w w' := by
  obtain ⟨⟨args, hcommand, hpath⟩, ⟨f, hfailed⟩, halias⟩ := h
  rw [perform] at hfailed
  rcases FileAction.exec_bind_eq_error.1 hfailed with hload | ⟨config, w₁, hload, h⟩
  · obtain ⟨-, rfl⟩ := FileAction.exec_look_eq_error.1 hload
    exact .inl (Budget.spares_refl w p)
  obtain ⟨hconfig, rfl⟩ := FileAction.exec_look_eq_ok.1 hload
  obtain rfl := hpath config (mapError_eq_ok.1 hconfig)
  have hspares (h : w' = w ∨ ∃ b : Budget, ∃ e,
      (b.save (budgetPath i.project config args)).exec w = (.error e, w')) :
      Budget.Spares w w' (budgetPath i.project config args) := by
    rcases h with rfl | ⟨b, e, hsave⟩
    · exact Budget.spares_refl _ _
    · exact Budget.spares_of_save hsave halias
  obtain ⟨project, command⟩ := i
  cases command with
  | init args' severities targets force =>
    cases hcommand
    exact .inl (hspares (init_eq_error h))
  | update args' report =>
    cases hcommand
    rcases update_eq_error h with hsame | hsave | hunreported
    · exact .inl (hspares (.inl hsame))
    · exact .inl (hspares (.inr hsave))
    · exact .inr hunreported
  | refreshSignature args' =>
    cases hcommand
    exact .inl (hspares (refreshSignature_eq_error h))
  | check | status | clear | fingerprint => cases hcommand

/-! ## Failures in the root -/

/-- A project without a configuration file. -/
theorem load_config_root (hfree : w.entries.get? ["auditgate.toml"] = none) :
    ProjectConfig.load w ⟨"/"⟩ = .ok .standard := by
  have hfile : ProjectConfig.file ⟨"/"⟩ = ⟨"/auditgate.toml"⟩ := by decide
  have hname : InRoot ⟨"/auditgate.toml"⟩ "auditgate.toml" :=
    ⟨by decide, by decide, by decide, by decide, by decide, by decide⟩
  rw [ProjectConfig.load, hfile]
  simp [hname.pathExists_free hfree]

/-- A manifest of the root is the one that its text states. -/
theorem load_manifest_file {text : String} {m : Manifest} {modified : Int}
    (h : w.entries.get? ["audit.json"] = some (.file text.toUTF8 modified))
    (hparse : Manifest.parse text ⟨"/audit.json"⟩ = .ok m) :
    Manifest.load w ⟨"/audit.json"⟩ = .ok m := by
  have hname : InRoot ⟨"/audit.json"⟩ "audit.json" :=
    ⟨by decide, by decide, by decide, by decide, by decide, by decide⟩
  rw [Manifest.load, readText_of_read (hname.read_file h)]
  exact hparse

/-- A manifest without runs. -/
theorem load_manifest_root
    (h : w.entries.get? ["audit.json"] = some (.file "{}".toUTF8 0)) :
    Manifest.load w ⟨"/audit.json"⟩ = .ok ⟨[]⟩ :=
  load_manifest_file h (Manifest.parse_of_read (j := .object []) (m := ⟨[]⟩) (by decide +kernel)
    (by decide +kernel) rfl ⟨"/audit.json"⟩)

/-- A manifest of the root, and a budget. -/
def rootArgs (p : Path) : RatchetArgs := ⟨⟨"audit.json"⟩, some p, []⟩

theorem budgetPath_rootArgs (h : p.isAbsolute = true) (config : ProjectConfig) :
    budgetPath ⟨"/"⟩ config (rootArgs p) = p := by
  change (Path.mk "/").join p = p
  rw [Path.join, if_pos h]

theorem temporaryPath_root :
    Budget.temporaryPath ⟨"/budget.json"⟩ = ⟨"/budget.json.tmp"⟩ := by decide

theorem inProject_manifest : inProject ⟨"/"⟩ ⟨"audit.json"⟩ = ⟨"/audit.json"⟩ := by decide

theorem loadManifest_rootArgs {m : Manifest} (h : Manifest.load w ⟨"/audit.json"⟩ = .ok m) :
    (loadManifest ⟨"/"⟩ (rootArgs p)).exec w = (.ok m, w) :=
  loadManifest_eq_ok.2 ⟨inProject_manifest ▸ h, rfl⟩

/-- An `init` that finds no budget, or is forced, fails as its save does. -/
theorem perform_init_eq_error (now : Timestamp) (force : Bool) {m : Manifest} {e : RatchetError}
    (hp : p.isAbsolute = true) (hconfig : ProjectConfig.load w ⟨"/"⟩ = .ok .standard)
    (hm : Manifest.load w ⟨"/audit.json"⟩ = .ok m) (hnew : (w.pathExists p && !force) = false)
    (hsave : ∀ b : Budget, (b.save p).exec w = (.error e, w')) :
    (perform now ⟨⟨"/"⟩, .init (rootArgs p) [] [] force⟩).exec w =
      (.error (.ofRatchet e), w') := by
  refine FileAction.exec_bind_eq_error.2 (.inr ⟨.standard, w,
    FileAction.exec_look_eq_ok.2 ⟨by rw [hconfig]; rfl, rfl⟩, ?_⟩)
  change (init now ⟨"/"⟩ .standard (rootArgs p) [] [] force).exec w = _
  rw [init, budgetPath_rootArgs hp]
  refine FileAction.exec_bind_eq_error.2 (.inr ⟨(), w,
    FileAction.exec_look_eq_ok.2 ⟨by rw [hnew]; rfl, rfl⟩, ?_⟩)
  refine FileAction.exec_bind_eq_error.2 (.inr ⟨m, w, loadManifest_rootArgs hm, ?_⟩)
  refine FileAction.exec_bind_eq_error.2 (.inr ⟨.empty, w,
    FileAction.exec_lift_eq_ok.2 ⟨rfl, rfl⟩, ?_⟩)
  refine FileAction.exec_bind_eq_error.2 (.inr ⟨.empty, w,
    FileAction.exec_lift_eq_ok.2 ⟨rfl, rfl⟩, FileAction.exec_bind_eq_error.2 (.inl ?_)⟩)
  exact ratchetAction_eq_error.2 ⟨e, hsave _, rfl⟩

/-- A save whose temporary file is a directory fails with the directory of the budget made. -/
theorem save_blocked {q : Path} (htemporary : Budget.temporaryPath p = q)
    (hhouse : (Budget.house p).exec w = (.ok (), w'))
    (hwrite : ∀ bytes, w'.write q bytes = .error .isDirectory) (b : Budget) :
    (b.save p).exec w = (.error (.file p .isDirectory), w') := by
  rw [Budget.save_eq, htemporary]
  refine FileAction.exec_bind_eq_error.2 (.inr ⟨(), w', hhouse,
    FileAction.exec_bind_eq_error.2 (.inl (FileAction.exec_change_eq_error.2 ⟨?_, rfl⟩))⟩)
  rw [hwrite]
  rfl

/-- A budget of the root, and a directory in the way of its temporary file. -/
def blocked : Workspace :=
  ⟨SortedMap.ofList [(["audit.json"], .file "{}".toUTF8 0), (["budget.json"], .file "{}".toUTF8 0),
    (["budget.json.tmp"], .directory)], [], 1⟩

/-- A save fails there, and its temporary file is not the budget. -/
theorem save_blocked_root :
    (∀ b : Budget, (b.save ⟨"/budget.json"⟩).exec blocked =
      (.error (.file ⟨"/budget.json"⟩ .isDirectory), blocked)) ∧
      ¬ blocked.Aliases (Budget.temporaryPath ⟨"/budget.json"⟩) ⟨"/budget.json"⟩ ∧
      blocked.Holds ⟨"/budget.json"⟩ (.file "{}".toUTF8 0) := by
  have hbudget : blocked.entries.get? ["budget.json"] = some (.file "{}".toUTF8 0) := by
    simp [blocked, SortedMap.get?_ofList]
  have hdirectory : blocked.entries.get? ["budget.json.tmp"] = some .directory := by
    simp [blocked, SortedMap.get?_ofList]
  have hplace : blocked.placeOf ⟨"/budget.json"⟩ = .ok ["budget.json"] :=
    placeOf_eq_ok.2 (Budget.inRoot_file.locate_found hbudget (by simp) true)
  have hplace' : blocked.placeOf ⟨"/budget.json.tmp"⟩ = .ok ["budget.json.tmp"] :=
    placeOf_eq_ok.2 (Budget.inRoot_temporary.locate_found hdirectory (by simp) true)
  refine ⟨save_blocked temporaryPath_root (Budget.house_root blocked)
    fun _ => write_directory (by decide) (by decide) hplace' (by simp [statAt, hdirectory]), ?_,
    ⟨_, hplace, hbudget⟩⟩
  rw [temporaryPath_root]
  rintro ⟨x, hx, hx'⟩
  exact absurd ((hplace'.symm.trans hx).trans (hx'.symm.trans hplace)) (by simp)

/-- A forced `init` whose temporary file cannot be written leaves the budget. -/
theorem spares_of_failed_blocked :
    ∃ w', Fails .epoch ⟨⟨"/"⟩, .init (rootArgs ⟨"/budget.json"⟩) [] [] true⟩ blocked w'
        ⟨"/budget.json"⟩ ∧
      w'.Holds ⟨"/budget.json"⟩ (.file "{}".toUTF8 0) := by
  obtain ⟨hsave, halias, hholds⟩ := save_blocked_root
  have hfailed := perform_init_eq_error (p := ⟨"/budget.json"⟩) .epoch true (by decide)
    (load_config_root (by simp [blocked, SortedMap.get?_ofList]))
    (load_manifest_root (w := blocked) (by simp [blocked, SortedMap.get?_ofList])) (by simp) hsave
  have hfails : Fails .epoch ⟨⟨"/"⟩, .init (rootArgs ⟨"/budget.json"⟩) [] [] true⟩ blocked blocked
      ⟨"/budget.json"⟩ :=
    ⟨⟨_, rfl, fun config _ => budgetPath_rootArgs (by decide) config⟩, ⟨_, hfailed⟩, halias⟩
  refine ⟨blocked, hfails, ?_⟩
  rcases spares_of_failed hfails with hspares | ⟨args, report, m, b, out, e, hcommand, -⟩
  · exact hspares.kept _ hholds
  · cases hcommand

/-! ## Budgets that are not spared -/

theorem locate_missing_root (h : w.entries.get? ["reports"] = none) :
    w.locate true ⟨"/reports/report.txt"⟩ = .error .notFound :=
  locateSteps_missing ["report.txt"] true (by decide) (by decide)
    ⟨by decide, by decide, by decide⟩ rfl h

theorem write_missing_root {bytes : ByteArray} (h : w.entries.get? ["reports"] = none) :
    w.write ⟨"/reports/report.txt"⟩ bytes = .error .notFound := by
  have hends : endsInName (plainSteps ⟨"/reports/report.txt"⟩) = true := by decide
  have hslash : endsInSlash ⟨"/reports/report.txt"⟩ = false := by decide
  rw [write, openForWriting, locate_missing_root h]
  simp [hends, hslash, bind, Except.bind]

/-- An update that is saved fails as its report cannot be written. -/
theorem perform_update_eq_error (now : Timestamp) {m : Manifest} {b : Budget} {out : Path}
    {e : FileError} (hconfig : ProjectConfig.load w ⟨"/"⟩ = .ok .standard)
    (hm : Manifest.load w ⟨"/audit.json"⟩ = .ok m) (hb : Budget.load w ⟨"/budget.json"⟩ = .ok b)
    (hchanged : Ratchet.update m b .all ≠ b)
    (hsave : ((Ratchet.update m b .all).save ⟨"/budget.json"⟩).exec w = (.ok (), w'))
    (hwrite : ∀ bytes, w'.write out bytes = .error e) :
    (perform now ⟨⟨"/"⟩, .update (rootArgs ⟨"/budget.json"⟩) ⟨false, .text, some out⟩⟩).exec w =
      (.error (.ofFile ("Failed to write report to " ++ out.text) e), w') := by
  refine FileAction.exec_bind_eq_error.2 (.inr ⟨.standard, w,
    FileAction.exec_look_eq_ok.2 ⟨by rw [hconfig]; rfl, rfl⟩, ?_⟩)
  refine FileAction.exec_bind_eq_error.2 (.inr ⟨m, w, loadManifest_rootArgs hm, ?_⟩)
  rw [budgetPath_rootArgs (by decide)]
  refine FileAction.exec_bind_eq_error.2 (.inr ⟨b, w, loadBudget_eq_ok.2 ⟨hb, rfl⟩, ?_⟩)
  have hall : Selection.ofIds (rootArgs ⟨"/budget.json"⟩).runs = .all := rfl
  simp only [hall, if_pos hchanged]
  refine FileAction.exec_bind_eq_error.2 (.inr ⟨(), w', ratchetAction_eq_ok.2 hsave, ?_⟩)
  rw [emit]
  refine FileAction.exec_bind_eq_error.2 (.inl (FileAction.exec_change_eq_error.2 ⟨?_, rfl⟩))
  rw [hwrite]
  rfl

/-- The budget of five errors after a manifest without runs. -/
theorem update_allowingErrors :
    Ratchet.update ⟨[]⟩ (allowingErrors 5) .all =
      { Budget.empty .epoch with
        runs := SortedMap.ofList [("lint:strict", ⟨.empty, .empty, .empty, none⟩)] } := by
  decide +kernel

/-- A budget of one run without a signature is read from its file. -/
theorem parse_unsigned {run : String} {held : RunBudget} (h : held.signature = none) (p : Path) :
    let b : Budget := { Budget.empty .epoch with runs := SortedMap.ofList [(run, held)] }
    Budget.parse b.fileText p = .ok b := by
  intro b
  refine Budget.parse_fileText (Timestamp.parse_text Timestamp.valid_epoch) ?_ p
  intro id other s hother hs
  rw [SortedMap.get?_ofList_eq_some (by simp)] at hother
  obtain ⟨-, rfl⟩ := Prod.mk.inj (List.mem_singleton.1 hother)
  cases h.symm.trans hs

/-- Budgets that are read from their files have different files. -/
theorem eq_of_fileText {b b' : Budget} (h : Budget.parse b.fileText p = .ok b)
    (h' : Budget.parse b'.fileText p = .ok b')
    (hbytes : b.fileText.toUTF8 = b'.fileText.toUTF8) : b = b' := by
  have htexts := Utf8.decode?_toUTF8 b.fileText
  rw [hbytes, Utf8.decode?_toUTF8] at htexts
  rw [← Option.some.inj htexts, h'] at h
  exact (Except.ok.inj h).symm

/-- A budget of five errors. -/
def loose : Workspace :=
  ⟨SortedMap.ofList [(["audit.json"], .file "{}".toUTF8 0),
    (["budget.json"], .file (allowingErrors 5).fileText.toUTF8 0)], [], 1⟩

/-- An update whose report cannot be written has tightened the budget nonetheless. -/
theorem tightened_of_unreported :
    let p : Path := ⟨"/budget.json"⟩
    let out : Path := ⟨"/reports/report.txt"⟩
    ∃ w', Fails .epoch ⟨⟨"/"⟩, .update (rootArgs p) ⟨false, .text, some out⟩⟩ loose w' p ∧
      ¬ w'.Aliases out p ∧ loose.Holds p (.file (allowingErrors 5).fileText.toUTF8 0) ∧
      ∀ modified, ¬ w'.Holds p (.file (allowingErrors 5).fileText.toUTF8 modified) := by
  intro p out
  have hbudget : loose.entries.get? ["budget.json"] =
      some (.file (allowingErrors 5).fileText.toUTF8 0) := by simp [loose, SortedMap.get?_ofList]
  have htemporary : loose.entries.get? ["budget.json.tmp"] = none := by
    simp [loose, SortedMap.get?_ofList]
  have hreports : loose.entries.get? ["reports"] = none := by simp [loose, SortedMap.get?_ofList]
  have hm : Manifest.load loose ⟨"/audit.json"⟩ = .ok ⟨[]⟩ :=
    load_manifest_root (by simp [loose, SortedMap.get?_ofList])
  have hconfig := load_config_root (w := loose) (by simp [loose, SortedMap.get?_ofList])
  have hparse : Budget.parse (allowingErrors 5).fileText p = .ok (allowingErrors 5) :=
    parse_unsigned rfl p
  have hb : Budget.load loose p = .ok (allowingErrors 5) :=
    Budget.load_eq_ok.2 ⟨_, _, Budget.inRoot_file.read_file hbudget, Utf8.decode?_toUTF8 _, hparse⟩
  have hchanged : Ratchet.update ⟨[]⟩ (allowingErrors 5) .all ≠ allowingErrors 5 := by
    decide +kernel
  have hparse' : Budget.parse (Ratchet.update ⟨[]⟩ (allowingErrors 5) .all).fileText p =
      .ok (Ratchet.update ⟨[]⟩ (allowingErrors 5) .all) := by
    rw [update_allowingErrors]
    exact parse_unsigned rfl p
  generalize hupdated : Ratchet.update ⟨[]⟩ (allowingErrors 5) .all = updated at hchanged hparse'
  obtain ⟨w', hsave, hentries⟩ := Budget.exists_save_over (w := loose) updated htemporary
    (by simp [isDirectoryAt, hbudget])
  have hreports' : w'.entries.get? ["reports"] = none := by
    rw [hentries, if_neg (by decide), hreports]
  have hfailed := perform_update_eq_error .epoch hconfig hm hb (hupdated ▸ hchanged)
    (hupdated ▸ hsave) fun bytes => write_missing_root hreports'
  refine ⟨w', ⟨⟨_, rfl, fun config _ => budgetPath_rootArgs (by decide) config⟩, ⟨_, hfailed⟩, ?_⟩,
    ?_, ?_, fun modified hsame => ?_⟩
  · rw [temporaryPath_root]
    rintro ⟨x, hx, -⟩
    have hfree : w'.entries.get? ["budget.json.tmp"] = none := by
      rw [hentries, if_neg (by decide), htemporary]
    rw [placeOf_eq_ok, Budget.inRoot_temporary.locate_free hfree true] at hx
    cases hx
  · rintro ⟨x, hx, -⟩
    rw [placeOf_eq_ok, locate_missing_root hreports'] at hx
    cases hx
  · exact ⟨_, placeOf_eq_ok.2 (Budget.inRoot_file.locate_found hbudget (by simp) true), hbudget⟩
  · -- one text would be read as two budgets
    obtain ⟨x, hx, hentry⟩ := hsame
    have hfile := hentries ["budget.json"]
    rw [if_pos rfl] at hfile
    have hplace := placeOf_eq_ok.2 (Budget.inRoot_file.locate_found hfile (by simp) true)
    obtain rfl := Except.ok.inj (hplace.symm.trans hx)
    obtain ⟨hbytes, -⟩ := Entry.file.inj (Option.some.inj (hfile.symm.trans hentry))
    exact hchanged (eq_of_fileText hparse' hparse hbytes)

theorem house_detour (h : w.entries.get? ["logs"] = none) :
    (Budget.house ⟨"/logs/../budget.json"⟩).exec w = (.ok (), w.put ["logs"] .directory) := by
  have hparent : (Path.mk "/logs/../budget.json").parent? = some ⟨"/logs/.."⟩ := by decide
  rw [Budget.house, hparent]
  exact FileAction.exec_makeDirectories_eq_ok.2 (makeDirectories_detour h)

/-- A save to a path whose file did not exist, as a directory on its way was missing, makes that
directory and then fails: now the path leads to a file that was there. -/
theorem revealed_of_save :
    let p : Path := ⟨"/logs/../budget.json"⟩
    ∃ w', (∀ b : Budget, (b.save p).exec blocked = (.error (.file p .isDirectory), w')) ∧
      ¬ w'.Aliases (Budget.temporaryPath p) p ∧ blocked.pathExists p = false ∧
      w'.pathExists p = true := by
  intro p
  have detour : Detour p "budget.json" :=
    ⟨by decide, by decide, by decide, by decide, by decide, by decide⟩
  have detour' : Detour ⟨"/logs/../budget.json.tmp"⟩ "budget.json.tmp" :=
    ⟨by decide, by decide, by decide, by decide, by decide, by decide⟩
  have hlogs : blocked.entries.get? ["logs"] = none := by simp [blocked, SortedMap.get?_ofList]
  have hnew : blocked.pathExists p = false := detour.pathExists hlogs
  generalize hw' : blocked.put ["logs"] .directory = w'
  have hentry (name : String) : w'.entries.get? [name] =
      if [name] = ["logs"] then some .directory else blocked.entries.get? [name] :=
    hw' ▸ get?_put _ _ _ _
  have hmade : w'.entries.get? ["logs"] = some .directory := by rw [hentry, if_pos rfl]
  have hbudget : w'.entries.get? ["budget.json"] = some (.file "{}".toUTF8 0) := by
    rw [hentry, if_neg (by decide)]
    simp [blocked, SortedMap.get?_ofList]
  have hdirectory : w'.entries.get? ["budget.json.tmp"] = some .directory := by
    rw [hentry, if_neg (by decide)]
    simp [blocked, SortedMap.get?_ofList]
  have htemporary : Budget.temporaryPath p = ⟨"/logs/../budget.json.tmp"⟩ := by decide
  have hplace : w'.placeOf p = .ok ["budget.json"] := detour.placeOf hmade hbudget (by simp)
  have hplace' : w'.placeOf ⟨"/logs/../budget.json.tmp"⟩ = .ok ["budget.json.tmp"] :=
    detour'.placeOf hmade hdirectory (by simp)
  refine ⟨w', save_blocked htemporary (hw' ▸ house_detour hlogs)
    fun _ => write_directory (by decide) (by decide) hplace' (by simp [statAt, hdirectory]),
    ?_, hnew, ?_⟩
  · rw [htemporary]
    rintro ⟨x, hx, hx'⟩
    exact absurd ((hplace'.symm.trans hx).trans (hx'.symm.trans hplace)) (by simp)
  · rw [pathExists, stat, hplace]
    rfl

/-- An `init` that finds no budget, and whose save brings one to light as it fails. -/
theorem revealed_of_blocked :
    let p : Path := ⟨"/logs/../budget.json"⟩
    ∃ w', Fails .epoch ⟨⟨"/"⟩, .init (rootArgs p) [] [] false⟩ blocked w' p ∧
      blocked.pathExists p = false ∧ w'.pathExists p = true := by
  intro p
  obtain ⟨w', hsave, halias, hnew, hexists⟩ := revealed_of_save
  have hfailed := perform_init_eq_error (p := p) .epoch false (by decide)
    (load_config_root (by simp [blocked, SortedMap.get?_ofList]))
    (load_manifest_root (w := blocked) (by simp [blocked, SortedMap.get?_ofList]))
    (by rw [hnew]; rfl) hsave
  exact ⟨w', ⟨⟨_, rfl, fun config _ => budgetPath_rootArgs (by decide) config⟩, ⟨_, hfailed⟩,
    halias⟩, hnew, hexists⟩

/-- **Two failures that do not leave the budget alone**: an update whose report cannot be written,
and an `init` that makes a directory on the way to a file. -/
theorem not_spared :
    (∃ w', Fails .epoch ⟨⟨"/"⟩, .update (rootArgs ⟨"/budget.json"⟩)
        ⟨false, .text, some ⟨"/reports/report.txt"⟩⟩⟩ loose w' ⟨"/budget.json"⟩ ∧
      ¬ w'.Aliases ⟨"/reports/report.txt"⟩ ⟨"/budget.json"⟩ ∧
      loose.Holds ⟨"/budget.json"⟩ (.file (allowingErrors 5).fileText.toUTF8 0) ∧
      ∀ modified, ¬ w'.Holds ⟨"/budget.json"⟩
        (.file (allowingErrors 5).fileText.toUTF8 modified)) ∧
    ∃ w', Fails .epoch ⟨⟨"/"⟩, .init (rootArgs ⟨"/logs/../budget.json"⟩) [] [] false⟩ blocked w'
        ⟨"/logs/../budget.json"⟩ ∧
      blocked.pathExists ⟨"/logs/../budget.json"⟩ = false ∧
      w'.pathExists ⟨"/logs/../budget.json"⟩ = true :=
  ⟨tightened_of_unreported, revealed_of_blocked⟩

end CommandLine

end AnalysisGate
