import AnalysisGate.CommandLine.Run
import AnalysisGate.Proofs.History
import AnalysisGate.Proofs.Saving
import Mathlib

/-!
Commands that never loosen a budget.

Without `--force` a command finds a budget in its place and leaves it, or one that allows no more
(`bounds_run`). So over any sequence of such commands, whichever of them fail, the file at
the path of a budget never comes to allow more than it did (`allowed_of_steps`). What carries this
is that something can always be read at the path, which is what `init` looks for.
-/
namespace AnalysisGate

/-! ## Budgets in files -/

namespace Budget

variable {w w' : Workspace} {p : Path} {b held : Budget}

theorem load_eq_ok : load w p = .ok b ↔
    ∃ bytes text, w.read p = .ok bytes ∧ Utf8.decode? bytes = some text ∧
      parse text p = .ok b := by
  have hload : load w p = .ok b ↔ ∃ text, w.readText p = .ok text ∧ parse text p = .ok b := by
    rw [load]
    cases w.readText p <;> simp
  simp only [hload, Workspace.readText_eq_ok, ← exists_and_right, and_assoc]
  exact exists_comm

theorem load_congr (h : w'.read p = w.read p) : load w' p = load w p := by
  rw [load, load, Workspace.readText, Workspace.readText, h]

/-- There is no budget in a file without bytes. -/
theorem load_empty (h : w.read p = .ok .empty) : load w p ≠ .ok b := by
  intro hload
  obtain ⟨bytes, text, hread, htext, hparse⟩ := load_eq_ok.1 hload
  cases h.symm.trans hread
  cases htext
  cases hparse

/-- What is at a path can be read, and no budget that it holds allows more than `b`. -/
structure Bounds (b : Budget) (w : Workspace) (p : Path) : Prop where
  readable : ∃ bytes, w.read p = .ok bytes
  tight : ∀ {b'}, load w p = .ok b' → ∀ run path s, b'.allowed run path s ≤ b.allowed run path s

namespace Bounds

theorem of_load (h : load w p = .ok b) : b.Bounds w p where
  readable := by
    obtain ⟨bytes, -, hread, -⟩ := load_eq_ok.1 h
    exact ⟨bytes, hread⟩
  tight h' run path s := by
    cases h.symm.trans h'
    exact UInt64.le_refl _

theorem congr (h : b.Bounds w p) (hread : w'.read p = w.read p) : b.Bounds w' p where
  readable := by rw [hread]; exact h.readable
  tight h' := h.tight (load_congr hread ▸ h')

theorem pathExists (h : b.Bounds w p) : w.pathExists p = true := by
  obtain ⟨bytes, hread⟩ := h.readable
  obtain ⟨x, hx, -⟩ := Workspace.read_eq_ok.1 hread
  simp [Workspace.pathExists, Workspace.stat, hx, Except.map, Except.isOk, Except.toBool]

/-- A budget that allows no more than the one in its place is saved over it. -/
theorem save (h : b.Bounds w p) (hload : load w p = .ok held) {b' : Budget}
    (hle : ∀ run path s, b'.allowed run path s ≤ held.allowed run path s)
    (halias : ¬ (housed w p).Aliases (temporaryPath p) p) :
    b.Bounds ((b'.save p).exec w).2 p := by
  obtain ⟨bytes, text, hread, htext, hparse⟩ := load_eq_ok.1 hload
  obtain ⟨x, hx, hbytes⟩ := Workspace.read_eq_ok.1 hread
  have hentry : (w.entries.get? x).isSome := by
    by_contra hnone
    rw [Option.not_isSome_iff_eq_none] at hnone
    have hempty : w.read p = .ok .empty := by
      rw [Workspace.read_eq hx, Workspace.bytesAt, hnone]
      rw [Workspace.bytesAt, hnone] at hbytes
      split at hbytes
      · cases hbytes
      · next hne => rw [if_neg hne]
    exact load_empty hempty hload
  have hafter := read_save b' hx hentry hbytes halias
  simp only [List.mem_cons, List.not_mem_nil, or_false] at hafter
  rcases hafter with hsame | hnew | hempty
  · exact h.congr (hsame.trans hread.symm)
  · refine ⟨⟨_, hnew⟩, fun {b₁} hload₁ run path s => ?_⟩
    obtain ⟨bytes₁, text₁, hread₁, htext₁, hparse₁⟩ := load_eq_ok.1 hload₁
    cases hnew.symm.trans hread₁
    cases (Utf8.decode?_toUTF8 _).symm.trans htext₁
    rw [allowed_of_parse hparse₁]
    exact UInt64.le_trans (hle run path s) (h.tight hload run path s)
  · exact ⟨⟨_, hempty⟩, fun hload₁ => absurd hload₁ (load_empty hempty)⟩

/-- Bytes that are written elsewhere do not matter. -/
theorem write (h : b.Bounds w p) {out : Path} {bytes : ByteArray}
    (hwrite : w.write out bytes = .ok w') (halias : ¬ w'.Aliases out p) : b.Bounds w' p := by
  obtain ⟨x, hwritten⟩ := Workspace.write_spec hwrite
  obtain ⟨held, hread⟩ := h.readable
  obtain ⟨y, hy, -⟩ := Workspace.read_eq_ok.1 hread
  refine h.congr (hwritten.read hy ?_)
  rintro rfl
  exact halias ⟨y, hwritten.place, hwritten.extended.placeOf hy⟩

end Bounds

end Budget

/-! ## What commands do to the tree -/

namespace CommandLine

variable {w w' : Workspace} {project : Path} {config : ProjectConfig} {args : RatchetArgs}
  {report : ReportArgs} {p : Path} {b : Budget}

theorem exec_loadManifest (project : Path) (args : RatchetArgs) (w : Workspace) :
    (∃ f, (loadManifest project args).exec w = (.error f, w)) ∨
      ∃ m, m.Accepted ∧ (loadManifest project args).exec w = (.ok m, w) := by
  rw [loadManifest, FileAction.exec_look, Manifest.load]
  cases w.readText (inProject project args.manifest) with
  | error e => exact .inl ⟨_, rfl⟩
  | ok text =>
    cases hparse : Manifest.parse text (inProject project args.manifest) with
    | error e => exact .inl ⟨_, by simp only [hparse]; rfl⟩
    | ok m => exact .inr ⟨m, Manifest.accepted_of_parse hparse, by simp only [hparse]; rfl⟩

theorem exec_loadBudget (p : Path) (w : Workspace) :
    (∃ f, (loadBudget p).exec w = (.error f, w)) ∨
      ∃ b, Budget.load w p = .ok b ∧ (loadBudget p).exec w = (.ok b, w) := by
  rw [loadBudget, FileAction.exec_look]
  cases Budget.load w p with
  | error e => exact .inl ⟨_, rfl⟩
  | ok b => exact .inr ⟨b, rfl, rfl⟩

/-- A part of a command changes what the ratchet operation changes. -/
theorem exec_ratchetAction {α : Type} (act : FileAction RatchetError α) (w : Workspace) :
    ((ratchetAction act).exec w).2 = (act.exec w).2 := by
  unfold ratchetAction
  rw [FileAction.exec, ExceptT.run, StateT.run]
  rcases act.exec w with ⟨_ | a, w'⟩ <;> rfl

theorem exec_emit (r : Report) (report : ReportArgs) (w : Workspace) :
    ((emit r report).exec w).2 = w ∨
      ∃ out bytes, report.output = some out ∧
        w.write out bytes = .ok ((emit r report).exec w).2 := by
  rw [emit]
  cases hout : report.output with
  | none => exact .inl rfl
  | some out =>
    simp only [FileAction.exec_bind, FileAction.exec_change]
    cases hwrite : w.write out (r.render false report.format
      (r.exitCode report.ignoreSignature)).toUTF8 with
    | error e => exact .inl rfl
    | ok w' => exact .inr ⟨out, _, rfl, hwrite⟩

/-- Where there is a budget, `init` does nothing unless it is forced to. -/
theorem exec_init (now : Timestamp) (severities targets : List String)
    (h : w.pathExists (budgetPath project config args) = true) :
    ((init now project config args severities targets false).exec w).2 = w := by
  rw [init]
  simp [h]

theorem exec_check (project : Path) (config : ProjectConfig) (args : RatchetArgs)
    (report : ReportArgs) (w : Workspace) :
    ((check project config args report).exec w).2 = w ∨
      ∃ r, ((check project config args report).exec w).2 = ((emit r report).exec w).2 := by
  rw [check, FileAction.exec_bind]
  rcases exec_loadManifest project args w with ⟨f, hf⟩ | ⟨m, -, hm⟩
  · simp [hf]
  simp only [hm, FileAction.exec_bind]
  rcases exec_loadBudget (budgetPath project config args) w with ⟨f, hf⟩ | ⟨b, -, hb⟩
  · simp [hf]
  · exact .inr ⟨_, by rw [hb]⟩

/-- A command that makes a pass over the budget of a project saves what the pass leaves. -/
theorem exec_refreshSignature (project : Path) (config : ProjectConfig) (args : RatchetArgs)
    (w : Workspace) :
    ((refreshSignature project config args).exec w).2 = w ∨
      ∃ pass b, pass.manifest.Accepted ∧ Budget.load w (budgetPath project config args) = .ok b ∧
        ((refreshSignature project config args).exec w).2 =
          (((Pass.apply b pass).save (budgetPath project config args)).exec w).2 := by
  rw [refreshSignature, FileAction.exec_bind]
  rcases exec_loadManifest project args w with ⟨f, hf⟩ | ⟨m, haccepted, hm⟩
  · simp [hf]
  simp only [hm, FileAction.exec_bind]
  rcases exec_loadBudget (budgetPath project config args) w with ⟨f, hf⟩ | ⟨b, hload, hb⟩
  · simp [hf]
  refine .inr ⟨.refresh m (.ofIds args.runs), b, haccepted, hload, ?_⟩
  have hsave := exec_ratchetAction
    ((Ratchet.refresh m b (.ofIds args.runs)).save (budgetPath project config args)) w
  simp only [hb]
  rw [Pass.apply, ← hsave]
  rcases (ratchetAction _).exec w with ⟨_ | a, w'⟩ <;> rfl

theorem exec_update (project : Path) (config : ProjectConfig) (args : RatchetArgs)
    (report : ReportArgs) (w : Workspace) :
    ((update project config args report).exec w).2 = w ∨
      ∃ pass b w₁, pass.manifest.Accepted ∧
        Budget.load w (budgetPath project config args) = .ok b ∧
        (w₁ = w ∨
          w₁ = (((Pass.apply b pass).save (budgetPath project config args)).exec w).2) ∧
        (((update project config args report).exec w).2 = w₁ ∨
          ∃ r, ((update project config args report).exec w).2 =
            ((emit r report).exec w₁).2) := by
  rw [update, FileAction.exec_bind]
  rcases exec_loadManifest project args w with ⟨f, hf⟩ | ⟨m, haccepted, hm⟩
  · simp [hf]
  simp only [hm, FileAction.exec_bind]
  rcases exec_loadBudget (budgetPath project config args) w with ⟨f, hf⟩ | ⟨b, hload, hb⟩
  · simp [hf]
  right
  simp only [hb]
  by_cases hchanged : Ratchet.update m b (.ofIds args.runs) ≠ b
  · refine ⟨.update m (.ofIds args.runs), b, _, haccepted, hload, .inr rfl, ?_⟩
    have hsave := exec_ratchetAction
      ((Ratchet.update m b (.ofIds args.runs)).save (budgetPath project config args)) w
    rw [Pass.apply, ← hsave]
    simp only [if_pos hchanged, FileAction.exec_bind]
    rcases (ratchetAction _).exec w with ⟨_ | a, w'⟩
    · exact .inl rfl
    · exact .inr ⟨_, rfl⟩
  · refine ⟨.update m (.ofIds args.runs), b, w, haccepted, hload, .inl rfl,
      .inr ⟨Ratchet.report m (Ratchet.update m b (.ofIds args.runs)) (.ofIds args.runs), ?_⟩⟩
    rw [if_neg hchanged]

/-! ## Sequences of commands -/

namespace Command

/-- What a ratchet command is about that is not forced. -/
def unforced? : Command → Option RatchetArgs
  | .init args _ _ false | .check args _ | .update args _ | .refreshSignature args => some args
  | _ => none

/-- The file that a command writes its report to. -/
def output? : Command → Option Path
  | .check _ report | .update _ report => report.output
  | _ => none

end Command

/-- A ratchet command that is not forced, on the budget at a path. Neither its report nor the
temporary file of the budget is the budget itself, by this path or by another one. -/
structure Unforced (now : Timestamp) (words : List String) (w : Workspace) (p : Path) : Prop where
  asked : ∃ i args, parse words = .ok i ∧ i.command.unforced? = some args ∧
    (∀ config, ProjectConfig.load w i.project = .ok config →
      budgetPath i.project config args = p) ∧
    ∀ out, i.command.output? = some out → ¬ (run now words w).2.Aliases out p
  temporary : ¬ (Budget.housed w p).Aliases (Budget.temporaryPath p) p

/-- What happens to a tree: a command runs, or others change something, but not what can be read
at the path. -/
inductive Step (p : Path) : Workspace → Workspace → Prop
  | command {w : Workspace} (now : Timestamp) (words : List String)
      (h : Unforced now words w p) : Step p w (run now words w).2
  | others {w w' : Workspace} (h : w'.read p = w.read p) : Step p w w'

/-! ## What a budget is bounded by -/

/-- A report is written beside a budget. -/
theorem bounds_emit {r : Report} (h : b.Bounds w p)
    (hout : ∀ out, report.output = some out →
      ¬ ((emit r report).exec w).2.Aliases out p) : b.Bounds ((emit r report).exec w).2 p := by
  rcases exec_emit r report w with hsame | ⟨out, bytes, hreport, hwrite⟩
  · rwa [hsame]
  · exact h.write hwrite (hout out hreport)

/-- A pass over the budget is saved over it. -/
theorem bounds_pass {pass : Pass} {held : Budget} (h : b.Bounds w p)
    (haccepted : pass.manifest.Accepted) (hload : Budget.load w p = .ok held)
    (htemp : ¬ (Budget.housed w p).Aliases (Budget.temporaryPath p) p) :
    b.Bounds (((Pass.apply held pass).save p).exec w).2 p :=
  h.save hload (Pass.allowed_apply_le haccepted held) htemp

theorem bounds_check (h : b.Bounds w p)
    (hout : ∀ out, report.output = some out →
      ¬ ((check project config args report).exec w).2.Aliases out p) :
    b.Bounds ((check project config args report).exec w).2 p := by
  rcases exec_check project config args report w with hsame | ⟨r, hemit⟩
  · rwa [hsame]
  · rw [hemit] at hout ⊢
    exact bounds_emit h hout

theorem bounds_update (h : b.Bounds w (budgetPath project config args))
    (htemp : ¬ (Budget.housed w (budgetPath project config args)).Aliases
      (Budget.temporaryPath (budgetPath project config args)) (budgetPath project config args))
    (hout : ∀ out, report.output = some out →
      ¬ ((update project config args report).exec w).2.Aliases out
        (budgetPath project config args)) :
    b.Bounds ((update project config args report).exec w).2 (budgetPath project config args) := by
  rcases exec_update project config args report w with
    hsame | ⟨pass, held, w₁, haccepted, hload, hsaved, hend⟩
  · rwa [hsame]
  have hbounds : b.Bounds w₁ (budgetPath project config args) := by
    rcases hsaved with rfl | rfl
    · exact h
    · exact bounds_pass h haccepted hload htemp
  rcases hend with hsame | ⟨r, hemit⟩
  · rwa [hsame]
  · rw [hemit] at hout ⊢
    exact bounds_emit hbounds hout

theorem bounds_refreshSignature (h : b.Bounds w (budgetPath project config args))
    (htemp : ¬ (Budget.housed w (budgetPath project config args)).Aliases
      (Budget.temporaryPath (budgetPath project config args)) (budgetPath project config args)) :
    b.Bounds ((refreshSignature project config args).exec w).2
      (budgetPath project config args) := by
  rcases exec_refreshSignature project config args w with
    hsame | ⟨pass, held, haccepted, hload, hsaved⟩
  · rwa [hsame]
  · rw [hsaved]
    exact bounds_pass h haccepted hload htemp

theorem exec_perform (now : Timestamp) (i : Invocation) (w : Workspace) :
    ((perform now i).exec w).2 = w ∨
      ∃ config, ProjectConfig.load w i.project = .ok config ∧
        (perform now i).exec w = (match i.command with
          | .init args severities targets force =>
            init now i.project config args severities targets force
          | .check args report => check i.project config args report
          | .update args report => update i.project config args report
          | .refreshSignature args => refreshSignature i.project config args
          | .status => status (config.cache.resolve i.project)
          | .clear => clear (config.cache.resolve i.project)
          | .fingerprint targets overrides baseline =>
            fingerprint i.project config.cache targets overrides baseline : Action Outcome).exec w
        := by
  rw [perform, FileAction.exec_bind, FileAction.exec_look]
  cases hconfig : ProjectConfig.load w i.project with
  | error e => exact .inl rfl
  | ok config => exact .inr ⟨config, rfl, rfl⟩

theorem exec_run (now : Timestamp) {words : List String} {i : Invocation}
    (h : parse words = .ok i) (w : Workspace) :
    (run now words w).2 = ((perform now i).exec w).2 := by
  rw [run, h]
  simp only
  rcases (perform now i).exec w with ⟨_ | outcome, w'⟩ <;> rfl

/-- An unforced `init` of a budget that is there changes nothing. -/
theorem run_init {now : Timestamp} {words severities targets : List String}
    (hparse : parse words = .ok ⟨project, .init args severities targets false⟩)
    (hexists : ∀ config, ProjectConfig.load w project = .ok config →
      w.pathExists (budgetPath project config args) = true) : (run now words w).2 = w := by
  rw [exec_run now hparse]
  rcases exec_perform now ⟨project, .init args severities targets false⟩ w with
    hsame | ⟨config, hconfig, hexec⟩
  · exact hsame
  · rw [hexec]
    exact exec_init now severities targets (hexists config hconfig)

/-- **A command that is not forced leaves a budget bounded.** -/
theorem bounds_run {now : Timestamp} {words : List String} (h : b.Bounds w p)
    (hunforced : Unforced now words w p) : b.Bounds (run now words w).2 p := by
  obtain ⟨⟨i, args, hparse, hargs, hpath, hout⟩, htemp⟩ := hunforced
  rw [exec_run now hparse] at hout ⊢
  rcases exec_perform now i w with hsame | ⟨config, hconfig, hexec⟩
  · rwa [hsame]
  obtain rfl := hpath config hconfig
  rw [hexec] at hout ⊢
  obtain ⟨project, command⟩ := i
  cases command with
  | init args' severities targets force =>
    cases force with
    | true => cases hargs
    | false =>
      cases hargs
      have hsame := exec_init now severities targets h.pathExists
      exact hsame.symm ▸ h
  | check args' report =>
    cases hargs
    exact bounds_check h hout
  | update args' report =>
    cases hargs
    exact bounds_update h htemp hout
  | refreshSignature args' =>
    cases hargs
    exact bounds_refreshSignature h htemp
  | status | clear | fingerprint => cases hargs

theorem bounds_steps (h : b.Bounds w p) (hsteps : Relation.ReflTransGen (Step p) w w') :
    b.Bounds w' p := by
  induction hsteps with
  | refl => exact h
  | tail _ hstep ih =>
    cases hstep with
    | command now words hunforced => exact bounds_run ih hunforced
    | others hread => exact ih.congr hread

/-- **Only a forced `init` can loosen a budget.** Whatever unforced commands run after a budget
could be read at a path, and whichever of them fail, a budget that is read there later allows
nothing that this one did not allow. -/
theorem allowed_of_steps {b' : Budget} (hsteps : Relation.ReflTransGen (Step p) w w')
    (hb : Budget.load w p = .ok b) (hb' : Budget.load w' p = .ok b') (run path : String)
    (s : Severity) : b'.allowed run path s ≤ b.allowed run path s :=
  (bounds_steps (.of_load hb) hsteps).tight hb' run path s

/-- A budget that allows a number of errors in one file of one run. -/
def allowingErrors (n : UInt64) : Budget :=
  { Budget.empty .epoch with
    runs := SortedMap.ofList [("lint:strict", ⟨.empty,
      SortedMap.ofList [("a.py", SortedMap.ofList [(.error, n)])], .empty, none⟩)] }

theorem exists_parse_allowingErrors :
    ∃ b, Budget.parse (allowingErrors 5).fileText ⟨"/budget.json"⟩ = .ok b := by
  have hparsed : (Budget.parse (allowingErrors 5).fileText
      ⟨"/budget.json"⟩).toOption.isSome = true := by
    rw [Budget.parse, Budget.readValue?_fileText]
    decide +kernel
  generalize Budget.parse _ _ = r at hparsed ⊢
  cases r with
  | error e => cases hparsed
  | ok b => exact ⟨b, rfl⟩

open Workspace in
/-- A budget of five errors that `init` is refused to replace, after which the clock goes on. -/
theorem allowed_of_steps_refused :
    let p : Path := ⟨"/budget.json"⟩
    let w : Workspace :=
      ⟨SortedMap.ofList [(["budget.json"], .file (allowingErrors 5).fileText.toUTF8 0)], [], 0⟩
    let words := ["ratchet", "init", "--manifest", "audit.json", "--budget", "/budget.json"]
    let later := { (run .epoch words w).2 with clock := 1 }
    Relation.ReflTransGen (Step p) w later ∧
      ∃ b b', Budget.load w p = .ok b ∧ b.allowed "lint:strict" "a.py" .error = 5 ∧
        Budget.load later p = .ok b' ∧ b'.allowed "lint:strict" "a.py" .error ≤ 5 := by
  intro p w words later
  have hentry : w.entries.get? ["budget.json"] =
      some (.file (allowingErrors 5).fileText.toUTF8 0) := by simp [w, SortedMap.get?_ofList]
  have hplace : w.placeOf p = .ok ["budget.json"] := by
    have hname : InRoot p "budget.json" :=
      ⟨by decide, by decide, by decide, by decide, by decide, by decide⟩
    exact placeOf_eq_ok.2 (hname.locate_found hentry (by simp) true)
  have hread : w.read p = .ok (allowingErrors 5).fileText.toUTF8 := by
    rw [read_eq hplace, bytesAt, hentry]
    rfl
  obtain ⟨b, hb⟩ := exists_parse_allowingErrors
  have hload : Budget.load w p = .ok b :=
    Budget.load_eq_ok.2 ⟨_, _, hread, Utf8.decode?_toUTF8 _, hb⟩
  have hfive : b.allowed "lint:strict" "a.py" .error = 5 := by
    rw [Budget.allowed_of_parse hb]
    simp [allowingErrors, Budget.allowed, RunBudget.allowed, SeverityCounts.count,
      SortedMap.get?_ofList]
  have hhoused : Budget.housed w p = w := by
    have hparent : p.parent? = some ⟨"/"⟩ := by decide
    rw [Budget.housed, hparent]
    simp only [making_of_ok (makeDirectories_root w)]
    rfl
  have htemp : ¬ (Budget.housed w p).Aliases (Budget.temporaryPath p) p := by
    rw [hhoused]
    rintro ⟨x, hx, -⟩
    have hfree : w.entries.get? ["budget.json.tmp"] = none := by
      simp [w, SortedMap.get?_ofList]
    have hname : InRoot (Budget.temporaryPath p) "budget.json.tmp" :=
      ⟨by decide, by decide, by decide, by decide, by decide, by decide⟩
    rw [placeOf_eq_ok, hname.locate_free hfree true] at hx
    cases hx
  have hparse : parse words =
      .ok ⟨⟨"."⟩, .init ⟨⟨"audit.json"⟩, some ⟨"/budget.json"⟩, []⟩ [] [] false⟩ := rfl
  have hunforced : Unforced .epoch words w p :=
    ⟨⟨_, _, hparse, rfl, fun _ _ => rfl, fun out hout => by cases hout⟩, htemp⟩
  have hsame : (run .epoch words w).2 = w :=
    run_init hparse fun _ _ => (Budget.Bounds.of_load hload).pathExists
  -- the clock is no part of what is read
  have hlater : later.read p = w.read p := by
    have hextends : w.Extends later := by
      simp only [later, hsame]
      exact ⟨rfl, fun he => ⟨_, he, rfl⟩⟩
    exact hextends.read hplace (by simp only [later, hsame])
  have hsteps : Relation.ReflTransGen (Step p) w later :=
    .tail (.single (.command .epoch words hunforced)) (.others (hlater.trans (by rw [hsame])))
  have hload' : Budget.load later p = .ok b := (Budget.load_congr hlater).trans hload
  exact ⟨hsteps, b, b, hload, hfive, hload', hfive ▸ allowed_of_steps hsteps hload hload' _ _ _⟩

end CommandLine

end AnalysisGate
