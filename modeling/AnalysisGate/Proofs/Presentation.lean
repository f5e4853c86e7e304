import AnalysisGate.Proofs.EngineOptions
import AnalysisGate.Proofs.FreshBudget
import Mathlib

/-!
The presentation of a manifest.

Manifests agree if they have runs of the same tools and modes, and for each of them the same sums by
path and severity and equivalent engine options. No operation tells manifests that agree apart
(`Ratchet.same_of_agrees`), although the count maps that they make of them may hold different
zeros. The order of entries and of diagnostics, their further fields, the spelling of a path and
the number of entries that it is split over leave the sums as they are.
-/
namespace AnalysisGate

/-- Two runs say the same of every path and severity, of one tool in one mode with one
configuration. -/
structure ManifestRun.Agrees (r r' : ManifestRun) : Prop where
  tool : r.tool = r'.tool
  mode : r.mode = r'.mode
  tally : ∀ path s, r.tally path s = r'.tally path s
  options : r.engineOptions.Equivalent r'.engineOptions

/-- Each run of one manifest agrees with one of the other. -/
structure Manifest.Agrees (m m' : Manifest) : Prop where
  left : ∀ r ∈ m.runs, ∃ r' ∈ m'.runs, r.Agrees r'
  right : ∀ r' ∈ m'.runs, ∃ r ∈ m.runs, r.Agrees r'

/-! ## Entries that say the same -/

/-- Diagnostics count with their severities only, in any order. -/
theorem FileReport.tally_eq {f f' : FileReport} {l l' : List ManifestDiagnostic}
    (hf : f.diagnostics = some l) (hf' : f'.diagnostics = some l')
    (h : (l.map (·.severity)).Perm (l'.map (·.severity))) : f.tally = f'.tally := by
  have hcount (p : String → Bool) (l : List ManifestDiagnostic) :
      (l.countP fun d => p d.severity) = (l.map (·.severity)).countP p := by
    rw [List.countP_map]
    rfl
  funext s
  simp only [tally, hf, hf']
  rw [hcount fun token => Severity.ofToken? token = some s,
    hcount fun token => Severity.ofToken? token = some s]
  exact h.countP_eq _

namespace ManifestRun

/-- Entries count with their normalized paths and what they say, in any order. -/
theorem tally_perm {r r' : ManifestRun}
    (h : (r.files.map fun f => (normalizePath f.path, f.tally)).Perm
      (r'.files.map fun f => (normalizePath f.path, f.tally))) (path : String) (s : Severity) :
    r.tally path s = r'.tally path s := by
  have hsum (r : ManifestRun) : r.tally path s =
      ((r.files.map fun f => (normalizePath f.path, f.tally)).map fun e =>
        if e.1 = path then e.2 s else 0).sum := by
    rw [List.map_map]
    rfl
  rw [hsum, hsum]
  exact (h.map _).sum_eq

/-- An entry may be split into two of one path, spelled in any way. -/
theorem tally_split {r r' : ManifestRun} {f g h : FileReport} {rest : List FileReport}
    (hr : r.files = f :: rest) (hr' : r'.files = g :: h :: rest)
    (hg : normalizePath g.path = normalizePath f.path)
    (hh : normalizePath h.path = normalizePath f.path)
    (hsum : ∀ s, f.tally s = g.tally s + h.tally s) (path : String) (s : Severity) :
    r.tally path s = r'.tally path s := by
  rw [tally, tally, hr, hr', List.map_cons, List.map_cons, List.map_cons, List.sum_cons,
    List.sum_cons, List.sum_cons, hg, hh, hsum, ← Nat.add_assoc]
  split <;> rfl

theorem Agrees.id {r r' : ManifestRun} (h : r.Agrees r') : r.id = r'.id := by
  rw [ManifestRun.id, ManifestRun.id, h.tool, h.mode]

/-- Runs that agree have one signature. -/
theorem Agrees.ofRun {r r' : ManifestRun} (h : r.Agrees r')
    (hr : Json.Over Json.finiteDoubles r.engineOptions)
    (hr' : Json.Over Json.finiteDoubles r'.engineOptions) :
    EngineSignature.ofRun r = EngineSignature.ofRun r' := by
  have hcanonical : r.engineOptions.canonical = r'.engineOptions.canonical :=
    (Json.canonical_eq_iff Json.doubleText_injective.injOn hr hr').2 h.options
  rw [EngineSignature.ofRun, EngineSignature.ofRun, EngineSignature.ofOptions,
    EngineSignature.ofOptions, EngineSignature.hashOf, EngineSignature.hashOf,
    EngineSignature.signedText, EngineSignature.signedText, h.tool, h.mode, hcanonical]

end ManifestRun

/-! ## Maps of one content -/

/-- Only the counts that are not zero are kept, so maps with the same counts keep the same. -/
theorem RunBudget.prunePaths_congr {c c' : PathCounts}
    (h : ∀ path s, c.cell path s = c'.cell path s) : prunePaths c = prunePaths c' := by
  have hkept (path : String) :
      ((c.get? path).getD .empty).filter (fun _ n => 0 < n) =
        ((c'.get? path).getD .empty).filter fun _ n => 0 < n := by
    have hcell (counts : SeverityCounts) (s : Severity) :
        (counts.filter fun _ n => 0 < n).get? s =
          if 0 < counts.count s then some (counts.count s) else none := by
      rw [SortedMap.get?_filter, SeverityCounts.count]
      cases counts.get? s with
      | none => rfl
      | some n => by_cases hn : 0 < n <;> simp [Option.filter, hn]
    refine SortedMap.ext_get? fun s => ?_
    have hs := h path s
    rw [PathCounts.cell, PathCounts.cell] at hs
    rw [hcell, hcell, hs]
  have hpath (c : PathCounts) (path : String) : (prunePaths c).get? path =
      let kept := ((c.get? path).getD .empty).filter fun _ n => 0 < n
      if kept.isEmpty then none else some kept := by
    rw [prunePaths, SortedMap.get?_filterMap]
    cases c.get? path <;> rfl
  refine SortedMap.ext_get? fun path => ?_
  rw [hpath, hpath, hkept]

namespace Ratchet

theorem findings_congr {counts counts' : PathCounts}
    (h : ∀ path s, counts.cell path s = counts'.cell path s) (held : RunBudget) :
    findings held counts = findings held counts' := by
  refine (findings_ascending held counts).eq_of_mem_iff (findings_ascending held counts')
    fun f => ?_
  rw [mem_findings, mem_findings, h]

theorem tightenPaths_congr {counts counts' : PathCounts}
    (h : ∀ path s, counts.cell path s = counts'.cell path s) (targets : SeverityCounts)
    (paths : PathCounts) :
    tightenPaths targets counts paths = tightenPaths targets counts' paths := by
  have hcells (path : String) (s : Severity) :
      ((counts.get? path).getD .empty).count s = ((counts'.get? path).getD .empty).count s :=
    h path s
  simp only [tightenPaths, hcells]

end Ratchet

/-! ## Operations -/

theorem map_eq_of_rel {α β γ : Type} {R : α → β → Prop} {f : α → γ} {g : β → γ}
    (hR : ∀ {a b}, R a b → f a = g b) {x : Option α} {y : Option β} (h : Option.Rel R x y) :
    x.map f = y.map g := by
  cases h with
  | none => rfl
  | some hab => exact congrArg some (hR hab)

section Operations

variable {text text' : String} {origin origin' : Path} {m m' : Manifest}
  (hm : Manifest.parse text origin = .ok m) (hm' : Manifest.parse text' origin' = .ok m')
  (hagrees : m.Agrees m')

include hm hm' hagrees

/-- Manifests that agree find runs under the same ids, which agree and have one signature. -/
theorem Manifest.Agrees.run? (run : String) :
    Option.Rel (fun r r' => r.Agrees r' ∧ EngineSignature.ofRun r = EngineSignature.ofRun r')
      (m.run? run) (m'.run? run) := by
  have haccepted := accepted_of_parse hm
  have haccepted' := accepted_of_parse hm'
  cases hr : m.run? run with
  | some r =>
    obtain ⟨hmem, rfl⟩ := id_of_run? hr
    obtain ⟨r', hmem', hsame⟩ := hagrees.left r hmem
    rw [hsame.id, haccepted'.run?_of_mem hmem']
    exact .some ⟨hsame, hsame.ofRun (over_of_parse hm r hmem) (over_of_parse hm' r' hmem')⟩
  | none =>
    cases hr' : m'.run? run with
    | none => exact .none
    | some r' =>
      obtain ⟨hmem', rfl⟩ := id_of_run? hr'
      obtain ⟨r, hmem, hsame⟩ := hagrees.right r' hmem'
      rw [← hsame.id, haccepted.run?_of_mem hmem] at hr
      cases hr

theorem Manifest.Agrees.tally (run path : String) (s : Severity) :
    m.tally run path s = m'.tally run path s := by
  rw [Manifest.tally, Manifest.tally,
    map_eq_of_rel (fun h => h.1.tally path s) (hagrees.run? hm hm' run)]

theorem Manifest.Agrees.ofRun (run : String) :
    (m.run? run).map EngineSignature.ofRun = (m'.run? run).map EngineSignature.ofRun :=
  map_eq_of_rel (fun h => h.2) (hagrees.run? hm hm' run)

/-- What is counted of a run is the same in every cell, though not as a map. -/
theorem Manifest.Agrees.cell (run : String) (tracked : SortedSet Severity) (path : String)
    (s : Severity) :
    PathCounts.cell (((m.run? run).map (·.counts tracked)).getD .empty) path s =
      PathCounts.cell (((m'.run? run).map (·.counts tracked)).getD .empty) path s := by
  rw [m.cell_countsOf, m'.cell_countsOf, hagrees.tally hm hm']

omit hm hm' in
theorem Manifest.Agrees.runIds : m.runIds = m'.runIds := by
  have hids (run : String) :
      run ∈ m.runs.map ManifestRun.id ↔ run ∈ m'.runs.map ManifestRun.id := by
    rw [List.mem_map, List.mem_map]
    constructor
    · rintro ⟨r, hr, rfl⟩
      obtain ⟨r', hr', hsame⟩ := hagrees.left r hr
      exact ⟨r', hr', hsame.id.symm⟩
    · rintro ⟨r', hr', rfl⟩
      obtain ⟨r, hr, hsame⟩ := hagrees.right r' hr'
      exact ⟨r, hr, hsame.id⟩
  exact SortedSet.ofList_congr hids

namespace Ratchet

theorem report_of_agrees (b : Budget) (selection : Selection) :
    report m b selection = report m' b selection := by
  have hrun (run : String) : runReport m b run = runReport m' b run := by
    have hfindings := findings_congr (hagrees.cell hm hm' run
      ((b.runs.get? run).getD .empty).tracked) ((b.runs.get? run).getD .empty)
    have hactual := congrArg (Option.map (·.hash)) (hagrees.ofRun hm hm' run)
    rw [Option.map_map, Option.map_map] at hactual
    have hhash : (m.run? run).map (fun r => (EngineSignature.ofRun r).hash) =
        (m'.run? run).map fun r => (EngineSignature.ofRun r).hash := hactual
    rw [runReport, runReport]
    simp only [hfindings, hhash]
  rw [report, report, reportedRuns, reportedRuns, hagrees.runIds]
  exact congrArg Report.mk (List.map_congr_left fun run _ => hrun run)

theorem update_of_agrees (b : Budget) (selection : Selection) :
    update m b selection = update m' b selection := by
  have hrun (run : String) (held : RunBudget) :
      updateRun (m.run? run) held = updateRun (m'.run? run) held := by
    have hpaths := tightenPaths_congr
      (hagrees.cell hm hm' run (allowedSeverities held.paths)) held.targets held.paths
    rw [updateRun, updateRun]
    simp only [hpaths, hagrees.ofRun hm hm' run]
  simp only [update, hrun]

theorem refresh_of_agrees (b : Budget) (selection : Selection) :
    refresh m b selection = refresh m' b selection := by
  have hruns : (refresh m b selection).runs = (refresh m' b selection).runs := by
    refine SortedMap.ext_get? fun run => ?_
    rw [get?_refresh (Manifest.accepted_of_parse hm), get?_refresh (Manifest.accepted_of_parse hm')]
    have hrel := hagrees.run? hm hm' run
    generalize m.run? run = found at hrel
    generalize m'.run? run = found' at hrel
    cases hrel with
    | none => rfl
    | some hsame => simp only [refreshRun, hsame.2]
  show { b with runs := (refresh m b selection).runs } =
    ({ b with runs := (refresh m' b selection).runs } : Budget)
  rw [hruns]

theorem build_of_agrees (now now' : Timestamp) (selection : Selection)
    (severities : SortedSet Severity) (targets : SeverityCounts) :
    (build now m selection severities targets).runs =
      (build now' m' selection severities targets).runs := by
  refine SortedMap.ext_get? fun run => ?_
  rw [get?_build (Manifest.accepted_of_parse hm), get?_build (Manifest.accepted_of_parse hm')]
  have hrun : (m.run? run).map (buildRun (trackedOr severities) targets) =
      (m'.run? run).map (buildRun (trackedOr severities) targets) := by
    refine map_eq_of_rel (fun {r r'} h => ?_) (hagrees.run? hm hm' run)
    have hpaths : RunBudget.prunePaths (r.counts (trackedOr severities)) =
        RunBudget.prunePaths (r'.counts (trackedOr severities)) :=
      RunBudget.prunePaths_congr fun path s => by
        rw [r.cell_counts, r'.cell_counts, h.1.tally]
    rw [buildRun, buildRun, hpaths, h.2]
  rw [hrun]

/-- **No operation tells manifests that agree apart.** -/
theorem same_of_agrees (b : Budget) (selection : Selection) (severities : SortedSet Severity)
    (targets : SeverityCounts) (now now' : Timestamp) :
    report m b selection = report m' b selection ∧
      update m b selection = update m' b selection ∧
      refresh m b selection = refresh m' b selection ∧
      (build now m selection severities targets).runs =
        (build now' m' selection severities targets).runs :=
  ⟨report_of_agrees hm hm' hagrees b selection, update_of_agrees hm hm' hagrees b selection,
    refresh_of_agrees hm hm' hagrees b selection,
    build_of_agrees hm hm' hagrees now now' selection severities targets⟩

end Ratchet

end Operations

/-- Two runs that stand the other way round: one has its options in another order and a path split
over spellings of it and over a list and totals; the other has entries and diagnostics in another
order, of which one has a further field. -/
theorem Ratchet.same_of_agrees_rearranged :
    let run (tool : String) (files : List Json) (options : List (String × Json)) : Json :=
      .object [("tool", .string tool), ("mode", .string "check"), ("perFile", .array files),
        ("engineOptions", .object options)]
    let totals (path : String) (errors warnings : Nat) : Json :=
      .object [("path", .string path), ("errors", .ofNat errors), ("warnings", .ofNat warnings)]
    let listed (path : String) (l : List Json) : Json :=
      .object [("path", .string path), ("diagnostics", .array l)]
    let diagnostic (severity : String) (fields : List (String × Json)) : Json :=
      .object (("severity", .string severity) :: fields)
    let document : Json := .object [("runs", .array [
      run "lint"
        [totals "c.py" 1 0, listed "d.py" [diagnostic "error" [], diagnostic "info" []]] [],
      run "tsc" [totals "src/a.ts" 2 1]
        [("strict", .bool true), ("include", .ofStrings ["src", "lib", "src"])]])]
    let document' : Json := .object [("runs", .array [
      run "tsc" [listed "./src/a.ts" [diagnostic "error" [], diagnostic "Warnings" []],
          totals "src\\a.ts" 1 0]
        [("include", .ofStrings ["lib", "src"]), ("strict", .bool true)],
      run "lint" [listed "d.py" [diagnostic "info" [("line", .ofNat 3)], diagnostic "error" []],
        totals "./c.py" 1 0] []])]
    ∃ m m', Manifest.parse document.compactText ⟨"manifest.json"⟩ = .ok m ∧
      Manifest.parse document'.compactText ⟨"manifest.json"⟩ = .ok m' ∧ m ≠ m' ∧ m.Agrees m' ∧
      report m (.empty .epoch) .all = report m' (.empty .epoch) .all := by
  intro run totals listed diagnostic document document'
  let lint : ManifestRun := ⟨"lint", "check", [⟨"c.py", 1, 0, 0, none⟩,
    ⟨"d.py", 0, 0, 0, some [⟨"error", .empty⟩, ⟨"info", .empty⟩]⟩], .object []⟩
  let lint' : ManifestRun := ⟨"lint", "check",
    [⟨"d.py", 0, 0, 0, some [⟨"info", SortedMap.ofList [("line", .ofNat 3)]⟩, ⟨"error", .empty⟩]⟩,
      ⟨"./c.py", 1, 0, 0, none⟩], .object []⟩
  let tsc : ManifestRun := ⟨"tsc", "check", [⟨"src/a.ts", 2, 1, 0, none⟩],
    .object [("include", .ofStrings ["src", "lib", "src"]), ("strict", .bool true)]⟩
  let tsc' : ManifestRun := ⟨"tsc", "check",
    [⟨"./src/a.ts", 0, 0, 0, some [⟨"error", .empty⟩, ⟨"Warnings", .empty⟩]⟩,
      ⟨"src\\a.ts", 1, 0, 0, none⟩],
    .object [("include", .ofStrings ["lib", "src"]), ("strict", .bool true)]⟩
  have hm : Manifest.parse document.compactText ⟨"manifest.json"⟩ = .ok ⟨[lint, tsc]⟩ :=
    Manifest.parse_of_read (j := document) (m := ⟨[lint, tsc]⟩) (by decide +kernel)
      (by decide +kernel) (by decide +kernel) _
  have hm' : Manifest.parse document'.compactText ⟨"manifest.json"⟩ = .ok ⟨[tsc', lint']⟩ :=
    Manifest.parse_of_read (j := document') (m := ⟨[tsc', lint']⟩) (by decide +kernel)
      (by decide +kernel) (by decide +kernel) _
  have hoptions {r r' : ManifestRun} (hr : r ∈ [lint, tsc]) (hr' : r' ∈ [tsc', lint'])
      (h : r.engineOptions.canonical = r'.engineOptions.canonical) :
      r.engineOptions.Equivalent r'.engineOptions :=
    (Json.canonical_eq_iff Json.doubleText_injective.injOn (Manifest.over_of_parse hm r hr)
      (Manifest.over_of_parse hm' r' hr')).1 h
  have hlint : lint.Agrees lint' := by
    refine ⟨rfl, rfl, ManifestRun.tally_perm ?_, hoptions (by simp) (by simp) rfl⟩
    have hlisted : FileReport.tally
          ⟨"d.py", 0, 0, 0, some [⟨"error", .empty⟩, ⟨"info", .empty⟩]⟩ =
        FileReport.tally ⟨"d.py", 0, 0, 0,
          some [⟨"info", SortedMap.ofList [("line", .ofNat 3)]⟩, ⟨"error", .empty⟩]⟩ :=
      FileReport.tally_eq rfl rfl (.swap ..)
    have htotals : FileReport.tally ⟨"./c.py", 1, 0, 0, none⟩ =
        FileReport.tally ⟨"c.py", 1, 0, 0, none⟩ := rfl
    have hpath : normalizePath "./c.py" = normalizePath "c.py" := by decide
    simp only [lint, lint', List.map_cons, List.map_nil, hlisted, htotals, hpath]
    exact .swap ..
  have htsc : tsc.Agrees tsc' := by
    refine ⟨rfl, rfl, ManifestRun.tally_split rfl rfl (by decide) (by decide) fun s => ?_,
      hoptions (by simp) (by simp) (by decide +kernel)⟩
    cases s <;> decide
  have hagrees : Manifest.Agrees ⟨[lint, tsc]⟩ ⟨[tsc', lint']⟩ := by
    constructor
    · intro r hr
      simp only [List.mem_cons, List.not_mem_nil, or_false] at hr
      rcases hr with rfl | rfl
      · exact ⟨lint', by simp, hlint⟩
      · exact ⟨tsc', by simp, htsc⟩
    · intro r hr
      simp only [List.mem_cons, List.not_mem_nil, or_false] at hr
      rcases hr with rfl | rfl
      · exact ⟨tsc, by simp, htsc⟩
      · exact ⟨lint, by simp, hlint⟩
  exact ⟨_, _, hm, hm', by decide, hagrees,
    (same_of_agrees hm hm' hagrees (.empty .epoch) .all .empty .empty .epoch .epoch).1⟩

end AnalysisGate
