import AnalysisGate.Proofs.EngineOptions
import AnalysisGate.Proofs.FreshBudget
import AnalysisGate.Proofs.Saving
import AnalysisGate.Proofs.Tightening
import AnalysisGate.Proofs.Timestamps
import AnalysisGate.Proofs.Workspace.Reading
import Mathlib

/-!
Reloading budgets.

A path that a budget was saved to and that leads to a file has the text of that budget
(`Budget.read_of_save`), so what is loaded there depends on the text alone. A budget whose options
have no doubles is loaded as itself (`Budget.load_saved`). A budget that is built from an accepted
manifest is loaded exactly if no selected run has options nested deeper than
`Budget.optionsLimit`; the manifest may nest them one container deeper
(`Ratchet.load_built`).
-/
namespace AnalysisGate

namespace Budget

open Workspace

variable {w w' : Workspace} {p : Path} {b b' : Budget}

/-! ## Files after a save -/

/-- **A file that a saved path leads to has the text of the budget**, wherever the links of the
path and of the temporary path lead. -/
theorem read_of_save (hsave : (b.save p).exec w = (.ok (), w')) (hregular : w'.isRegular p = true) :
    w'.read p = .ok b.fileText.toUTF8 := by
  obtain ⟨w₁, hwrite, hrename⟩ := save_eq_ok hsave
  obtain ⟨x, -, -, hx, -⟩ := isRegular_iff.1 hregular
  obtain ⟨dirs, name, name', hsiblings, hnamed, hapart⟩ := siblings_of_rename hrename hx
  exact read_of_replacement hsiblings hnamed hapart hwrite hrename hregular

/-- A budget that is loaded is in a file: what is none gives no bytes, and there is no budget in
those. -/
theorem isRegular_of_load (h : load w p = .ok b) : w.isRegular p = true := by
  obtain ⟨bytes, text, hread, -, -⟩ := load_eq_ok.1 h
  by_contra hnot
  have hempty : bytes = .empty := read_of_not_regular (Bool.eq_false_iff.2 hnot) hread
  exact load_empty (hempty ▸ hread) h

/-- What is loaded after a save is what the text of the budget holds, if the path leads to a
file. -/
theorem load_of_save (hsave : (b.save p).exec w = (.ok (), w')) :
    load w' p = .ok b' ↔ w'.isRegular p = true ∧ parse b.fileText p = .ok b' := by
  constructor
  · intro hload
    obtain ⟨bytes, text, hread, htext, hparse⟩ := load_eq_ok.1 hload
    have hregular := isRegular_of_load hload
    cases (read_of_save hsave hregular).symm.trans hread
    cases (Utf8.decode?_toUTF8 _).symm.trans htext
    exact ⟨hregular, hparse⟩
  · rintro ⟨hregular, hparse⟩
    exact load_eq_ok.2 ⟨_, _, read_of_save hsave hregular, Utf8.decode?_toUTF8 _, hparse⟩

/-! ## Saving in the root -/

theorem inRoot_file : InRoot ⟨"/budget.json"⟩ "budget.json" :=
  ⟨by decide, by decide, by decide, by decide, by decide, by decide⟩

theorem inRoot_temporary : InRoot ⟨"/budget.json.tmp"⟩ "budget.json.tmp" :=
  ⟨by decide, by decide, by decide, by decide, by decide, by decide⟩

/-- The root is there already. -/
theorem house_root (w : Workspace) : (house ⟨"/budget.json"⟩).exec w = (.ok (), w) := by
  have hparent : (Path.mk "/budget.json").parent? = some ⟨"/"⟩ := by decide
  rw [house, hparent]
  exact FileAction.exec_makeDirectories_eq_ok.2 (makeDirectories_root w)

/-- In the root a temporary file is put in place of a budget, or of nothing. -/
theorem exec_save_leaf {w₁ : Workspace} {e : Entry} (b : Budget)
    (hwrite : w.write ⟨"/budget.json.tmp"⟩ b.fileText.toUTF8 = .ok w₁)
    (he : w₁.entries.get? ["budget.json.tmp"] = some e)
    (hleaf : w₁.isDirectoryAt ["budget.json"] = false) :
    (b.save ⟨"/budget.json"⟩).exec w =
      (.ok (), w₁.replace [] "budget.json.tmp" "budget.json" e) := by
  have htemporary : temporaryPath ⟨"/budget.json"⟩ = ⟨"/budget.json.tmp"⟩ := by decide
  rw [save_eq, htemporary]
  exact FileAction.exec_bind_eq_ok.2 ⟨(), w, house_root w, FileAction.exec_bind_eq_ok.2
    ⟨(), w₁, FileAction.exec_change_eq_ok.2 hwrite, FileAction.exec_change_eq_ok.2
      (inRoot_temporary.rename_leaf inRoot_file (by decide) (by decide) (by decide) he hleaf)⟩⟩

/-- Where the name of the temporary file is free, a budget is saved to a file of the root; nothing
else changes. -/
theorem exists_save_over (b : Budget) (htemporary : w.entries.get? ["budget.json.tmp"] = none)
    (hleaf : w.isDirectoryAt ["budget.json"] = false) :
    ∃ w', (b.save ⟨"/budget.json"⟩).exec w = (.ok (), w') ∧ ∀ x, w'.entries.get? x =
      if x = ["budget.json"] then some (.file b.fileText.toUTF8 w.clock) else w.entries.get? x := by
  have hwrite : w.write ⟨"/budget.json.tmp"⟩ b.fileText.toUTF8 =
      .ok (w.put ["budget.json.tmp"] (.file b.fileText.toUTF8 w.clock)) :=
    inRoot_temporary.write_free (by decide) (by decide) htemporary
  have hleaf' : (w.put ["budget.json.tmp"] (.file b.fileText.toUTF8 w.clock)).isDirectoryAt
      ["budget.json"] = false := by
    rwa [isDirectoryAt, get?_put, if_neg (by decide), ← isDirectoryAt]
  refine ⟨_, exec_save_leaf b hwrite (by rw [get?_put, if_pos rfl]) hleaf', fun x => ?_⟩
  rw [get?_replace, get?_put]
  by_cases hx : x = ["budget.json.tmp"]
  · simp [hx, htemporary]
  · simp [hx]

/-- Where nothing is in the way, a budget is saved to a file of the root. -/
theorem exists_save_root (b : Budget) (htemporary : w.entries.get? ["budget.json.tmp"] = none)
    (hfree : w.entries.get? ["budget.json"] = none) :
    ∃ w', (b.save ⟨"/budget.json"⟩).exec w = (.ok (), w') ∧
      w'.isRegular ⟨"/budget.json"⟩ = true := by
  obtain ⟨w', hsave, hentries⟩ := exists_save_over b htemporary (by simp [isDirectoryAt, hfree])
  have hfile := hentries ["budget.json"]
  rw [if_pos rfl] at hfile
  have hplace := placeOf_eq_ok.2 (inRoot_file.locate_found hfile (by simp) true)
  exact ⟨w', hsave, isRegular_iff.2 ⟨_, _, w.clock, hplace, by decide, hfile⟩⟩

/-- Where the temporary path is a link to a device, the link comes in place of the budget. -/
theorem exists_save_device (b : Budget)
    (hlink : w.entries.get? ["budget.json.tmp"] = some (.link "/null"))
    (hdevice : w.entries.get? ["null"] = some .device)
    (hleaf : w.isDirectoryAt ["budget.json"] = false) :
    ∃ w', (b.save ⟨"/budget.json"⟩).exec w = (.ok (), w') ∧
      w'.placeOf ⟨"/budget.json"⟩ = .ok ["null"] ∧ (∀ b', load w' ⟨"/budget.json"⟩ ≠ .ok b') ∧
      ∀ x, x ∉ [["budget.json.tmp"], ["budget.json"]] → w'.entries.get? x = w.entries.get? x := by
  have hwrite : w.write ⟨"/budget.json.tmp"⟩ b.fileText.toUTF8 = .ok w :=
    write_device (by decide) (by decide) (inRoot_temporary.placeOf_null hlink hdevice) (by simp)
      hdevice
  have hsave := exec_save_leaf b hwrite hlink hleaf
  generalize hw' : w.replace [] _ _ _ = w' at hsave
  have hbudget : w'.entries.get? ["budget.json"] = some (.link "/null") := by
    rw [← hw', get?_replace]
    rfl
  have hother (x : Place) (hx : x ∉ [["budget.json.tmp"], ["budget.json"]]) :
      w'.entries.get? x = w.entries.get? x := by
    simp only [List.mem_cons, List.not_mem_nil, or_false, not_or] at hx
    rw [← hw', get?_replace, List.nil_append, List.nil_append, if_neg hx.2, if_neg hx.1]
  have hdevice' := (hother ["null"] (by simp)).trans hdevice
  have hplace := inRoot_file.placeOf_null hbudget hdevice'
  refine ⟨w', hsave, hplace, fun b' hload => ?_, hother⟩
  obtain ⟨x, bytes, modified, hx, -, hfile⟩ := isRegular_iff.1 (isRegular_of_load hload)
  cases hplace.symm.trans hx
  cases hdevice'.symm.trans hfile

/-! ## Budgets that come back -/

/-- **A saved budget is loaded as itself, exactly if its path leads to a file**; saved again, to
whatever file, what was loaded gives the same bytes. The options that the budget stores have no
doubles and do not nest too deep. -/
theorem load_saved (htime : Timestamp.parse b.generatedAt.text = .ok b.generatedAt)
    (hoptions : b.Stores fun s => s.engineOptions.Normal ∧ s.engineOptions.hasDouble = false ∧
      s.engineOptions.height ≤ optionsLimit)
    (hsave : (b.save p).exec w = (.ok (), w')) :
    (load w' p = .ok b ↔ w'.isRegular p = true) ∧
      ∀ b', load w' p = .ok b' → b' = b ∧
        ∀ q w₁ w₂, (b'.save q).exec w₁ = (.ok (), w₂) → w₂.isRegular q = true →
          w₂.read q = w'.read p := by
  have hparse := parse_fileText (p := p) htime hoptions
  constructor
  · rw [load_of_save hsave]
    exact and_iff_left hparse
  · intro b' hload
    obtain ⟨hregular, hparse'⟩ := (load_of_save hsave).1 hload
    obtain rfl : b = b' := Except.ok.inj (hparse.symm.trans hparse')
    refine ⟨rfl, fun q w₁ w₂ hagain hregular₂ => ?_⟩
    rw [read_of_save hagain hregular₂, read_of_save hsave hregular]

/-- A budget with quotes, a line break and a zero byte in its texts, the largest allowance and
options of a negative number, saved to a file and loaded again. -/
theorem load_saved_quoted :
    let options : Json := .object [("a", .array [.number (.negative 2)]), ("b\"", .object [])]
    let run : RunBudget := ⟨SortedSet.ofList [.error],
      SortedMap.ofList [("\\a\n", SortedMap.ofList [(.error, 0xFFFFFFFFFFFFFFFF)])], .empty,
      some ⟨"lint", "\"", options, "\x00"⟩⟩
    let b : Budget := ⟨.epoch, some "\"\\", none, SortedMap.ofList [("lint:\"", run)]⟩
    let p : Path := ⟨"/budget.json"⟩
    Timestamp.parse b.generatedAt.text = .ok b.generatedAt ∧
      (b.Stores fun s => s.engineOptions.Normal ∧ s.engineOptions.hasDouble = false ∧
        s.engineOptions.height ≤ optionsLimit) ∧
      ∃ w', (b.save p).exec ⟨.empty, [], 0⟩ = (.ok (), w') ∧ load w' p = .ok b := by
  intro options run b p
  have htime : Timestamp.parse b.generatedAt.text = .ok b.generatedAt :=
    Timestamp.parse_text Timestamp.valid_epoch
  have hoptions : b.Stores fun s => s.engineOptions.Normal ∧ s.engineOptions.hasDouble = false ∧
      s.engineOptions.height ≤ optionsLimit := by
    intro id held s hheld hs
    have hrun : held = run := by
      have hmem : (id, held) ∈ [("lint:\"", run)] := SortedMap.get?_eq_some_iff.1 hheld
      exact (Prod.mk.inj (List.mem_singleton.1 hmem)).2
    subst hrun
    cases hs
    exact ⟨rfl, by decide, by decide⟩
  obtain ⟨w', hsave, hregular⟩ := exists_save_root (w := ⟨.empty, [], 0⟩) b rfl rfl
  exact ⟨htime, hoptions, w', hsave, (load_saved htime hoptions hsave).1.2 hregular⟩

/-- A temporary path that is a link to a device takes the bytes of a budget and keeps none: the
link comes in place of the budget, and nothing can be loaded. -/
theorem load_saved_device :
    let b := Budget.empty .epoch
    let p : Path := ⟨"/budget.json"⟩
    let w : Workspace :=
      ⟨SortedMap.ofList [(["budget.json.tmp"], .link "/null"), (["null"], .device)], [], 0⟩
    Timestamp.parse b.generatedAt.text = .ok b.generatedAt ∧
      (b.Stores fun s => s.engineOptions.Normal ∧ s.engineOptions.hasDouble = false ∧
        s.engineOptions.height ≤ optionsLimit) ∧
      ¬ (housed w p).Aliases (temporaryPath p) p ∧
      ∃ w', (b.save p).exec w = (.ok (), w') ∧ load w' p ≠ .ok b := by
  intro b p w
  have hlink : w.entries.get? ["budget.json.tmp"] = some (.link "/null") := by
    simp [w, SortedMap.get?_ofList]
  have hdevice : w.entries.get? ["null"] = some .device := by simp [w, SortedMap.get?_ofList]
  have hfree : w.entries.get? ["budget.json"] = none := by simp [w, SortedMap.get?_ofList]
  obtain ⟨w', hsave, -, hload, -⟩ := exists_save_device (w := w) b hlink hdevice
    (by simp [isDirectoryAt, hfree])
  refine ⟨Timestamp.parse_text Timestamp.valid_epoch, ?_, ?_, w', hsave, hload b⟩
  · intro run held s hheld
    cases hheld
  · rw [← exec_house, house_root]
    rintro ⟨x, -, hx⟩
    rw [placeOf_eq_ok, inRoot_file.locate_free hfree true] at hx
    cases hx

end Budget

/-! ## Built budgets -/

/-- The options of the selected runs nest no deeper than a budget can store them. -/
def Manifest.Shallow (m : Manifest) (selection : Selection) : Prop :=
  ∀ r ∈ m.runs, selection.includes r.id = true → r.engineOptions.height ≤ Budget.optionsLimit

namespace Ratchet

/-- A built budget stores the signatures of the selected runs. -/
theorem stores_build {m : Manifest} (haccepted : m.Accepted) (now : Timestamp)
    (selection : Selection) (severities : SortedSet Severity) (targets : SeverityCounts)
    {P : EngineSignature → Prop} :
    (build now m selection severities targets).Stores P ↔
      ∀ r ∈ m.runs, selection.includes r.id = true → P (.ofRun r) := by
  constructor
  · intro h r hr hselected
    refine h r.id (buildRun (trackedOr severities) targets r) _ ?_ rfl
    rw [get?_build haccepted, if_pos hselected, haccepted.run?_of_mem hr]
    rfl
  · intro h run held s hheld hs
    rw [get?_build haccepted] at hheld
    split at hheld
    · next hselected =>
      obtain ⟨r, hr, rfl⟩ := Option.map_eq_some_iff.1 hheld
      obtain ⟨hmem, rfl⟩ := Manifest.id_of_run? hr
      cases hs
      exact h r hmem hselected
    · cases hheld

/-- **The text of a built budget is accepted exactly if the selected options do not nest too
deep**, whatever its paths are. -/
theorem exists_parse_build {text : String} {origin p : Path} {m : Manifest} {now : Timestamp}
    {selection : Selection} {severities : SortedSet Severity} {targets : SeverityCounts}
    {b : Budget} (hparse : Manifest.parse text origin = .ok m) (hnow : now.Valid)
    (hgenerated : b.generatedAt = now)
    (hruns : b.runs = (build now m selection severities targets).runs) :
    (∃ b', Budget.parse b.fileText p = .ok b') ↔ m.Shallow selection := by
  have haccepted := Manifest.accepted_of_parse hparse
  have hover := Manifest.over_of_parse hparse
  have hstores {P : EngineSignature → Prop} :
      b.Stores P ↔ ∀ r ∈ m.runs, selection.includes r.id = true → P (.ofRun r) := by
    rw [← stores_build haccepted now selection severities targets, Budget.Stores, Budget.Stores,
      hruns]
  have htime : Timestamp.parse b.generatedAt.text = .ok now := by
    rw [hgenerated]
    exact Timestamp.parse_text hnow
  rw [Budget.exists_parse_iff htime (hstores.2 fun r hr _ =>
    EngineSignature.over_ofRun (hover r hr)), hstores, Manifest.Shallow]
  exact forall₂_congr fun r hr => by rw [EngineSignature.height_ofRun (hover r hr)]

end Ratchet

/-! ## The first check -/

namespace CommandLine

variable {now : Timestamp} {project : Path} {config : ProjectConfig} {args : RatchetArgs}
  {severities targets : List String} {force : Bool} {out : Outcome} {w w' : Workspace}

theorem loadManifest_eq_ok {m : Manifest} :
    (loadManifest project args).exec w = (.ok m, w') ↔
      Manifest.load w (inProject project args.manifest) = .ok m ∧ w = w' := by
  rw [loadManifest, FileAction.exec_look_eq_ok]
  cases Manifest.load w (inProject project args.manifest) <;> simp [Except.mapError]

theorem ratchetAction_eq_ok {α : Type} {act : FileAction RatchetError α} {a : α} :
    (ratchetAction act).exec w = (.ok a, w') ↔ act.exec w = (.ok a, w') := by
  unfold ratchetAction
  rw [FileAction.exec, ExceptT.run, StateT.run]
  rcases act.exec w with ⟨e | a, w₁⟩ <;> simp

/-- An `init` that succeeds has saved a budget that it built of the manifest, with the severities
and the floors that it was asked for. -/
theorem resolved_of_init
    (h : (init now project config args severities targets force).exec w = (.ok out, w')) :
    ∃ m tracked floors, ∃ b : Budget,
      Manifest.load w (inProject project args.manifest) = .ok m ∧
      resolveSeverities config.ratchet severities = .ok tracked ∧
      resolveFloors config.ratchet targets = .ok floors ∧ b.generatedAt = now ∧
      b.runs = (Ratchet.build now m (.ofIds args.runs) tracked floors).runs ∧
      (b.save (budgetPath project config args)).exec w = (.ok (), w') := by
  rw [init] at h
  -- only the save changes the tree, so each part before it leaves the tree that it was given
  obtain ⟨_, _, hnew, h⟩ := FileAction.exec_bind_eq_ok.1 h
  obtain ⟨-, rfl⟩ := FileAction.exec_look_eq_ok.1 hnew
  obtain ⟨m, _, hmanifest, h⟩ := FileAction.exec_bind_eq_ok.1 h
  obtain ⟨hm, rfl⟩ := loadManifest_eq_ok.1 hmanifest
  obtain ⟨tracked, _, hlift, h⟩ := FileAction.exec_bind_eq_ok.1 h
  obtain ⟨htracked, rfl⟩ := FileAction.exec_lift_eq_ok.1 hlift
  obtain ⟨floors, _, hlift, h⟩ := FileAction.exec_bind_eq_ok.1 h
  obtain ⟨hfloors, rfl⟩ := FileAction.exec_lift_eq_ok.1 hlift
  obtain ⟨_, w₁, hsave, h⟩ := FileAction.exec_bind_eq_ok.1 h
  obtain rfl : w₁ = w' := (Prod.mk.inj h).2
  have hsaved := ratchetAction_eq_ok.1 hsave
  exact ⟨m, tracked, floors, { Ratchet.build now m (.ofIds args.runs) tracked floors with
      manifestPath := some args.manifest.text
      projectRoot := some project.text }, hm, htracked, hfloors, rfl, rfl, hsaved⟩

/-- An `init` that succeeds has saved a budget that it built of the manifest. -/
theorem init_eq_ok
    (h : (init now project config args severities targets force).exec w = (.ok out, w')) :
    ∃ m tracked floors, ∃ b : Budget,
      Manifest.load w (inProject project args.manifest) = .ok m ∧ b.generatedAt = now ∧
      b.runs = (Ratchet.build now m (.ofIds args.runs) tracked floors).runs ∧
      (b.save (budgetPath project config args)).exec w = (.ok (), w') := by
  obtain ⟨m, tracked, floors, b, hm, -, -, hsaved⟩ := resolved_of_init h
  exact ⟨m, tracked, floors, b, hm, hsaved⟩

/-- With its budget at hand a check goes on to report. -/
theorem exec_check_of_load {report : ReportArgs} {m : Manifest} {b : Budget}
    (hm : (loadManifest project args).exec w = (.ok m, w))
    (hload : Budget.load w (budgetPath project config args) = .ok b) :
    (check project config args report).exec w =
      (emit (Ratchet.report m b (.ofIds args.runs)) report).exec w := by
  have hbudget : (loadBudget (budgetPath project config args)).exec w = (.ok b, w) := by
    rw [loadBudget, FileAction.exec_look, hload]
    rfl
  rw [check, FileAction.exec_bind, hm]
  simp only [FileAction.exec_bind, hbudget]

end CommandLine

namespace Ratchet

open CommandLine

/-- **A built budget is loaded exactly if its path leads to a file and the selected options do not
nest too deep**: so is the budget of a successful `init`, and a check that finds it goes on to
report. -/
theorem load_built {now : Timestamp} (hnow : now.Valid) :
    (∀ text origin m selection severities targets w w' p,
      Manifest.parse text origin = .ok m →
      ((build now m selection severities targets).save p).exec w = (.ok (), w') →
        ((∃ b, Budget.load w' p = .ok b) ↔ w'.isRegular p = true ∧ m.Shallow selection)) ∧
    ∀ project config args severities targets force w w' out,
      (init now project config args severities targets force).exec w = (.ok out, w') →
        ∃ m, Manifest.load w (inProject project args.manifest) = .ok m ∧
          ((∃ b, Budget.load w' (budgetPath project config args) = .ok b ∧
            ∀ reporting m', (loadManifest project args).exec w' = (.ok m', w') →
              (check project config args reporting).exec w' =
                (emit (report m' b (.ofIds args.runs)) reporting).exec w') ↔
            w'.isRegular (budgetPath project config args) = true ∧
              m.Shallow (.ofIds args.runs)) := by
  constructor
  · intro text origin m selection severities targets w w' p hparse hsave
    rw [← exists_parse_build (p := p) (b := build now m selection severities targets) hparse hnow
      rfl rfl, ← exists_and_left]
    exact exists_congr fun b => Budget.load_of_save hsave
  · -- `init` names the manifest and the project in the budget, which `build` does not
    intro project config args severities targets force w w' out hinit
    obtain ⟨m, tracked, floors, b, hm, hgenerated, hruns, hsave⟩ := init_eq_ok hinit
    refine ⟨m, hm, ?_⟩
    obtain ⟨text, hparse⟩ : ∃ text,
        Manifest.parse text (inProject project args.manifest) = .ok m := by
      rw [Manifest.load] at hm
      split at hm
      · cases hm
      · exact ⟨_, hm⟩
    rw [← exists_parse_build (p := budgetPath project config args) hparse hnow hgenerated hruns,
      ← exists_and_left]
    refine exists_congr fun b' => ?_
    rw [Budget.load_of_save hsave]
    refine and_iff_left_of_imp fun hload reporting m' hm' => ?_
    exact exec_check_of_load hm' ((Budget.load_of_save hsave).2 hload)

/-- A budget that `init` makes of one run is there for the check after it. -/
theorem load_built_checked :
    let document : Json := .object [("runs", .array [.object [("tool", .string "lint"),
      ("mode", .string "strict"), ("engineOptions", .array [.number (.natural 1)])]])]
    let w : Workspace :=
      ⟨SortedMap.ofList [(["audit.json"], .file document.compactText.toUTF8 0)], [], 0⟩
    let args : RatchetArgs := ⟨⟨"audit.json"⟩, some ⟨"budget.json"⟩, []⟩
    let config : ProjectConfig := ⟨.standard, .standard⟩
    Timestamp.epoch.Valid ∧
      ∃ out w', (init .epoch ⟨"/"⟩ config args [] [] false).exec w = (.ok out, w') ∧
        ∃ b, Budget.load w' (budgetPath ⟨"/"⟩ config args) = .ok b := by
  intro document w args config
  have hmanifestPath : inProject ⟨"/"⟩ args.manifest = ⟨"/audit.json"⟩ := by decide
  have hbudgetPath : budgetPath ⟨"/"⟩ config args = ⟨"/budget.json"⟩ := by decide
  let m : Manifest := ⟨[⟨"lint", "strict", [], .array [.number (.natural 1)]⟩]⟩
  have hparse (origin : Path) : Manifest.parse document.compactText origin = .ok m :=
    Manifest.parse_of_read (j := document) (by decide +kernel) (by decide +kernel)
      (by decide +kernel) origin
  -- the bytes are kept closed, so that nothing unfolds the text of the document
  have hm : Manifest.load w (inProject ⟨"/"⟩ args.manifest) = .ok m := by
    have hname : Workspace.InRoot ⟨"/audit.json"⟩ "audit.json" :=
      ⟨by decide, by decide, by decide, by decide, by decide, by decide⟩
    have hfile : w.entries.get? ["audit.json"] =
        some (.file document.compactText.toUTF8 0) := by
      simp [w, SortedMap.get?_ofList]
    generalize hbytes : document.compactText.toUTF8 = bytes at hfile
    have hplace := Workspace.placeOf_eq_ok.2 (hname.locate_found hfile (by simp) true)
    have hread : w.read ⟨"/audit.json"⟩ = .ok bytes := by
      rw [Workspace.read_eq hplace, Workspace.bytesAt, hfile]
      rfl
    have htext := Workspace.readText_of_read (hbytes ▸ hread)
    rw [hmanifestPath, Manifest.load, htext]
    exact hparse _
  let b : Budget := { build .epoch m .all .empty .empty with
    manifestPath := some "audit.json"
    projectRoot := some "/" }
  obtain ⟨w', hsave, hregular⟩ := Budget.exists_save_root (w := w) b
    (by simp [w, SortedMap.get?_ofList]) (by simp [w, SortedMap.get?_ofList])
  rw [← hbudgetPath] at hsave hregular
  have hnew : w.pathExists (budgetPath ⟨"/"⟩ config args) = false := by
    rw [hbudgetPath, Workspace.pathExists, Workspace.stat, Workspace.placeOf,
      Budget.inRoot_file.locate_free (by simp [w, SortedMap.get?_ofList]) true]
    rfl
  -- the parts of the command one by one, of which only the last changes the tree
  have hinit : ∃ out, (init .epoch ⟨"/"⟩ config args [] [] false).exec w = (.ok out, w') := by
    refine ⟨_, FileAction.exec_bind_eq_ok.2 ⟨(), w, FileAction.exec_look_eq_ok.2 ⟨?_, rfl⟩,
      FileAction.exec_bind_eq_ok.2 ⟨m, w, loadManifest_eq_ok.2 ⟨hm, rfl⟩,
      FileAction.exec_bind_eq_ok.2 ⟨.empty, w, FileAction.exec_lift_eq_ok.2 ⟨rfl, rfl⟩,
      FileAction.exec_bind_eq_ok.2 ⟨.empty, w, FileAction.exec_lift_eq_ok.2 ⟨rfl, rfl⟩,
      FileAction.exec_bind_eq_ok.2 ⟨(), w', ratchetAction_eq_ok.2 hsave, rfl⟩⟩⟩⟩⟩⟩
    rw [hnew]
    rfl
  obtain ⟨out, hinit⟩ := hinit
  obtain ⟨m', hm', hreloads⟩ := (load_built Timestamp.valid_epoch).2 _ _ _ _ _ _ _ _ _ hinit
  cases hm.symm.trans hm'
  obtain ⟨b', hload, -⟩ := hreloads.2 ⟨hregular, by
    intro r hr _
    obtain rfl := List.mem_singleton.1 hr
    decide⟩
  exact ⟨Timestamp.valid_epoch, out, w', hinit, b', hload⟩

/-- Options in 124 containers are accepted in a manifest, but not in the budget that is built of
it: there one more container is around them. -/
theorem load_built_deep :
    let options : Json := (fun j => .array [j])^[123] (.array [])
    let document : Json := .object [("runs", .array [.object [("tool", .string "t"),
      ("mode", .string "m"), ("engineOptions", options)]])]
    let p : Path := ⟨"/budget.json"⟩
    ∃ m w', Manifest.parse document.compactText ⟨"manifest.json"⟩ = .ok m ∧
      ((build .epoch m .all .empty .empty).save p).exec ⟨.empty, [], 0⟩ = (.ok (), w') ∧
      w'.isRegular p = true ∧ ∀ b, Budget.load w' p ≠ .ok b := by
  intro options document p
  let m : Manifest := ⟨[⟨"t", "m", [], options⟩]⟩
  have hm : Manifest.parse document.compactText ⟨"manifest.json"⟩ = .ok m :=
    Manifest.parse_of_read (j := document) (by decide +kernel) (by decide +kernel)
      (by decide +kernel) _
  obtain ⟨w', hsave, hregular⟩ := Budget.exists_save_root (w := ⟨.empty, [], 0⟩)
    (build .epoch m .all .empty .empty) rfl rfl
  refine ⟨m, w', hm, hsave, hregular, fun b hload => ?_⟩
  have hshallow : m.Shallow .all := (exists_parse_build hm Timestamp.valid_epoch rfl rfl).1
    ⟨b, ((Budget.load_of_save hsave).1 hload).2⟩
  have hheight := hshallow ⟨"t", "m", [], options⟩ (List.mem_singleton.2 rfl) rfl
  exact absurd hheight (by decide +kernel)

end Ratchet

end AnalysisGate
