import AnalysisGate.Proofs.Agreement
import AnalysisGate.Proofs.ByteOrder
import Mathlib

/-!
What `init` records.

The severities come from one source, the command line or the configuration
(`CommandLine.tracked_of_resolveSeverities`). Floors come from both: a fold of insertions holds at
a key what the last element puts there that is read at that key
(`SortedMap.get?_foldlM_insert`), so the last floor on the command line decides, and where it has
none, of the configured tokens the last one in the order of bytes
(`CommandLine.get?_resolveFloors`). Nothing of that is lost in the file: the budget that is loaded
after an `init` has the runs, the severities, the floors and the counts that were asked for
(`CommandLine.records_of_init`).
-/
namespace AnalysisGate

/-! ## The last of a list -/

section LastRead

variable {α ε κ β : Type} {read : α → Except ε (κ × β)} {a : α} {l : List α} {k : κ} {v : β}

/-- Of the elements of a list that are read as a value at a key, the last one is read as this
value. -/
def LastRead (read : α → Except ε (κ × β)) (l : List α) (k : κ) (v : β) : Prop :=
  ∃ before a after, l = before ++ a :: after ∧ read a = .ok (k, v) ∧
    ∀ later ∈ after, ∀ v', read later ≠ .ok (k, v')

theorem not_lastRead_nil : ¬ LastRead read [] k v := by
  rintro ⟨before, a, after, heq, -⟩
  cases before <;> cases heq

/-- The last is in the rest or, where the rest has none, it is the head. -/
theorem lastRead_cons : LastRead read (a :: l) k v ↔
    LastRead read l k v ∨ (∀ later ∈ l, ∀ v', read later ≠ .ok (k, v')) ∧ read a = .ok (k, v) := by
  constructor
  · rintro ⟨before, a', after, heq, hread, hlater⟩
    cases before with
    | nil =>
      obtain ⟨rfl, rfl⟩ := List.cons.inj heq
      exact .inr ⟨hlater, hread⟩
    | cons b before =>
      obtain ⟨rfl, rfl⟩ := List.cons.inj heq
      exact .inl ⟨before, a', after, rfl, hread, hlater⟩
  · rintro (⟨before, a', after, rfl, hread, hlater⟩ | ⟨hlater, hread⟩)
    · exact ⟨a :: before, a', after, rfl, hread, hlater⟩
    · exact ⟨[], a, l, rfl, hread, hlater⟩

/-- **Of the values that are put at a key the last one stays**, and where none is put there, the
one that was there before. -/
theorem SortedMap.get?_foldlM_insert [Ord κ] [Std.TransOrd κ] [Std.LawfulEqOrd κ] [DecidableEq κ]
    {m m' : SortedMap κ β}
    (h : l.foldlM (fun m a => (read a).map fun e => m.insert e.1 e.2) m = .ok m') :
    m'.get? k = some v ↔
      LastRead read l k v ∨ (∀ a ∈ l, ∀ v', read a ≠ .ok (k, v')) ∧ m.get? k = some v := by
  induction l generalizing m with
  | nil =>
    obtain rfl : m = m' := Except.ok.inj h
    simp [not_lastRead_nil]
  | cons a rest ih =>
    rw [List.foldlM_cons] at h
    cases hread : read a with
    | error e =>
      rw [hread] at h
      cases h
    | ok e =>
      rw [hread] at h
      rw [ih h, lastRead_cons, SortedMap.get?_insert, List.forall_mem_cons, hread]
      obtain ⟨k', v'⟩ := e
      by_cases hk : k = k'
      · -- what was at this key before is hidden by the head
        subst hk
        simp
      · simp [hk, Ne.symm hk]

end LastRead

/-! ## Floors -/

namespace RatchetConfig

variable {c : RatchetConfig} {s : Severity} {n : UInt64}

/-- The configured floor of a severity: of the tokens that denote it the one has it that is the
last in the order of bytes. -/
def SetsFloor (c : RatchetConfig) (s : Severity) (n : UInt64) : Prop :=
  ∃ token, c.targets.get? token = some n ∧ Severity.parse token = .ok s ∧
    ∀ other n', c.targets.get? other = some n' → Severity.parse other = .ok s → other ≠ token →
      Text.bytes other < Text.bytes token

/-- What a configured token and its floor say. -/
def readTarget (e : String × UInt64) : Except SeverityError (Severity × UInt64) :=
  (Severity.parse e.1).map fun s => (s, e.2)

theorem readTarget_eq_ok {e : String × UInt64} :
    readTarget e = .ok (s, n) ↔ Severity.parse e.1 = .ok s ∧ e.2 = n := by
  rw [readTarget]
  cases Severity.parse e.1 <;> simp [Except.map]

/-- The tokens stand in the order of their bytes. -/
theorem lastRead_targets : LastRead readTarget c.targets.entries s n ↔ c.SetsFloor s n := by
  have hascending := c.targets.ascending
  constructor
  · rintro ⟨before, ⟨token, n⟩, after, heq, hread, hlater⟩
    obtain ⟨hparse, rfl⟩ := readTarget_eq_ok.1 hread
    refine ⟨token, SortedMap.get?_eq_some_iff.2 (by simp [heq]), hparse,
      fun other n' hother hdenotes hne => ?_⟩
    have hmem := SortedMap.get?_eq_some_iff.1 hother
    rw [heq] at hmem hascending
    -- what stands before is smaller, and what stands after would have been read later
    obtain ⟨-, -, hacross⟩ := List.pairwise_append.1 hascending
    rcases List.mem_append.1 hmem with hbefore | hmem
    · exact Text.bytes_lt_iff.2 (hacross (other, n') hbefore (token, n) List.mem_cons_self)
    rcases List.mem_cons.1 hmem with hsame | hafter
    · exact absurd (Prod.mk.inj hsame).1 hne
    · exact (hlater (other, n') hafter n' (readTarget_eq_ok.2 ⟨hdenotes, rfl⟩)).elim
  · rintro ⟨token, htoken, hparse, hgreatest⟩
    obtain ⟨before, after, heq⟩ := List.append_of_mem (SortedMap.get?_eq_some_iff.1 htoken)
    refine ⟨before, (token, n), after, heq, readTarget_eq_ok.2 ⟨hparse, rfl⟩,
      fun ⟨other, n'⟩ hlater k hread => ?_⟩
    have hother : c.targets.get? other = some n' :=
      SortedMap.get?_eq_some_iff.2 (by simp [heq, hlater])
    have hself : compare token token = .eq := Std.ReflCmp.compare_self
    rw [heq] at hascending
    obtain ⟨-, htail, -⟩ := List.pairwise_append.1 hascending
    have hlt : compare token other = .lt := (List.pairwise_cons.1 htail).1 (other, n') hlater
    have hne : other ≠ token := by
      rintro rfl
      cases hself.symm.trans hlt
    have hgt := hgreatest other n' hother (readTarget_eq_ok.1 hread).1 hne
    cases hself.symm.trans (Std.TransCmp.lt_trans hlt (Text.bytes_lt_iff.1 hgt))

/-- Of the configured spellings of a severity the last one in the order of bytes decides. -/
theorem get?_targetFloors {floors : SeverityCounts} (h : c.targetFloors = .ok floors) :
    floors.get? s = some n ↔ c.SetsFloor s n := by
  have hfold : c.targets.entries.foldlM
      (fun m e => (readTarget e).map fun e => m.insert e.1 e.2) SortedMap.empty = .ok floors := by
    rw [← h, targetFloors]
    refine congrArg (List.foldlM · _ _) (funext fun m => funext fun e => ?_)
    rw [readTarget]
    cases Severity.parse e.1 <;> rfl
  rw [SortedMap.get?_foldlM_insert hfold, lastRead_targets]
  simp

end RatchetConfig

namespace CommandLine

variable {c : RatchetConfig} {tokens specs : List String} {s : Severity} {n : UInt64}

/-- Floors that are added are read one after the other. -/
theorem addFloors_eq (floors : SeverityCounts) (specs : List String) :
    addFloors floors specs =
      (specs.foldlM (fun m spec => (parseFloor spec).map fun e => m.insert e.1 e.2)
        floors).mapError fun e => .ofRatchet (.ofFloor e) := by
  induction specs generalizing floors with
  | nil => rfl
  | cons spec rest ih =>
    rw [addFloors, List.foldlM_cons]
    cases parseFloor spec with
    | error e => rfl
    | ok e => exact ih _

/-- The floor to record for a severity: the last one on the command line, and the configured one
where there is none. -/
def AskedFloor (c : RatchetConfig) (specs : List String) (s : Severity) (n : UInt64) : Prop :=
  LastRead parseFloor specs s n ∨
    (∀ spec ∈ specs, ∀ k, parseFloor spec ≠ .ok (s, k)) ∧ c.SetsFloor s n

/-- **The command line overrides the configuration severity by severity.** -/
theorem get?_resolveFloors {floors : SeverityCounts} (h : resolveFloors c specs = .ok floors) :
    floors.get? s = some n ↔ AskedFloor c specs s n := by
  rw [resolveFloors] at h
  cases hconfigured : c.targetFloors with
  | error e =>
    rw [hconfigured] at h
    cases h
  | ok configured =>
    rw [hconfigured] at h
    simp only [addFloors_eq] at h
    rw [SortedMap.get?_foldlM_insert (mapError_eq_ok.1 h), RatchetConfig.get?_targetFloors
      hconfigured, AskedFloor]

end CommandLine

/-! ## Severities -/

/-- A severity that one of the tokens denotes. -/
def Severity.Denoted (tokens : List String) (s : Severity) : Prop :=
  ∃ token ∈ tokens, parse token = .ok s

theorem Severity.mem_parseSet {tokens : List String} {named : SortedSet Severity} {s : Severity}
    (h : parseSet tokens = .ok named) : s ∈ named.keys ↔ s.Denoted tokens := by
  induction tokens generalizing named with
  | nil =>
    cases h
    simp [Denoted, SortedMap.mem_keys]
  | cons token rest ih =>
    rw [parseSet] at h
    cases htoken : parse token with
    | error e =>
      rw [htoken] at h
      cases h
    | ok s' =>
      cases hrest : parseSet rest with
      | error e =>
        rw [htoken, hrest] at h
        cases h
      | ok named' =>
        rw [htoken, hrest] at h
        obtain rfl : named'.insert s' () = named := Except.ok.inj h
        rw [SortedMap.mem_keys_insert, ih hrest, Denoted, Denoted, List.exists_mem_cons_iff,
          htoken, Except.ok.injEq, eq_comm]

/-- Tokens that are read name what they denote; without tokens, errors and warnings are tracked. -/
theorem Severity.tracked_parseSet {tokens : List String} {named : SortedSet Severity} {s : Severity}
    (h : parseSet tokens = .ok named) :
    s.Tracked named ↔ if tokens = [] then s = .error ∨ s = .warning else s.Denoted tokens := by
  rw [Tracked, SortedMap.contains_iff_mem_keys, mem_parseSet h]
  cases tokens with
  | nil =>
    obtain rfl : SortedMap.empty = named := Except.ok.inj h
    have hempty : (SortedMap.empty : SortedSet Severity).isEmpty = true := rfl
    simp [Denoted, hempty]
  | cons token rest =>
    -- the first token alone keeps the set from being empty
    have hnamed : named.isEmpty = false := by
      by_contra hempty
      rw [Bool.not_eq_false] at hempty
      cases htoken : parse token with
      | error e =>
        rw [parseSet, htoken] at h
        cases h
      | ok s' =>
        have hmem := (mem_parseSet h).2 ⟨token, .head _, htoken⟩
        rw [SortedMap.mem_keys, SortedMap.get?_of_isEmpty hempty] at hmem
        cases hmem
    simp [hnamed]

namespace CommandLine

variable {c : RatchetConfig} {tokens : List String} {s : Severity}

/-- The severities to track: those that the tokens of the command line denote, or else those of
the configuration, or else errors and warnings. -/
def AskedSeverity (c : RatchetConfig) (tokens : List String) (s : Severity) : Prop :=
  if tokens ≠ [] then s.Denoted tokens
  else if c.severities ≠ [] then s.Denoted c.severities
  else s = .error ∨ s = .warning

/-- **The command line replaces the severities of the configuration.** -/
theorem tracked_of_resolveSeverities {named : SortedSet Severity}
    (h : resolveSeverities c tokens = .ok named) : s.Tracked named ↔ AskedSeverity c tokens s := by
  have h := mapError_eq_ok.1 h
  cases tokens with
  | nil =>
    rw [Severity.tracked_parseSet h, AskedSeverity]
    simp
  | cons token rest =>
    rw [Severity.tracked_parseSet h, AskedSeverity]
    simp

end CommandLine

/-! ## Budgets -/

/-- Runs with the same severities, allowances and floors; their signatures may differ. -/
structure RunBudget.Same (r r' : RunBudget) : Prop where
  severities : r.severities = r'.severities
  paths : r.paths = r'.paths
  targets : r.targets = r'.targets

namespace Budget

variable {b b' : Budget} {m : Manifest} {c : RatchetConfig} {runs severities targets : List String}

/-- The floor of a severity in a run, where there is one. -/
def floor? (b : Budget) (run : String) (s : Severity) : Option UInt64 :=
  ((b.runs.get? run).getD .empty).targets.get? s

/-- **A budget records what was asked for**: a run for each run of the manifest that is named, or
for each of them if none is, with the severities and the floors that the command line and the
configuration ask for and, of the tracked severities, the counts of the manifest. -/
structure Records (b : Budget) (m : Manifest) (c : RatchetConfig)
    (runs severities targets : List String) : Prop where
  runs : ∀ run, run ∈ b.runs.keys ↔ (runs = [] ∨ run ∈ runs) ∧ run ∈ m.runs.map ManifestRun.id
  tracked : ∀ run ∈ b.runs.keys, ∀ s, b.Tracks run s ↔ CommandLine.AskedSeverity c severities s
  floors : ∀ run ∈ b.runs.keys, ∀ s n,
    b.floor? run s = some n ↔ CommandLine.AskedFloor c targets s n
  allowances : ∀ run ∈ b.runs.keys, ∀ path s, b.Tracks run s →
    b.allowed run path s = UInt64.ofNat (m.tally run path s)

/-- What is recorded does not depend on the signatures. -/
theorem Records.of_rel (h : b.Records m c runs severities targets)
    (hrel : b.runs.Rel RunBudget.Same b'.runs) : b'.Records m c runs severities targets := by
  have hsame (run : String) :
      ((b.runs.get? run).getD .empty).Same ((b'.runs.get? run).getD .empty) :=
    hrel.getD ⟨rfl, rfl, rfl⟩ run
  have htracks (run : String) (s : Severity) : b'.Tracks run s ↔ b.Tracks run s := by
    rw [Tracks, Tracks, (hsame run).severities]
  have hfloor (run : String) (s : Severity) : b'.floor? run s = b.floor? run s := by
    rw [floor?, floor?, (hsame run).targets]
  have hallowed (run path : String) (s : Severity) :
      b'.allowed run path s = b.allowed run path s := by
    rw [allowed, allowed, RunBudget.allowed, RunBudget.allowed, (hsame run).paths]
  constructor
  case runs => exact fun run => hrel.mem_keys.trans (h.runs run)
  case tracked =>
    intro run hrun s
    rw [htracks, h.tracked run (hrel.mem_keys.1 hrun)]
  case floors =>
    intro run hrun s n
    rw [hfloor, h.floors run (hrel.mem_keys.1 hrun)]
  case allowances =>
    intro run hrun path s htracked
    rw [hallowed, h.allowances run (hrel.mem_keys.1 hrun) path s ((htracks run s).1 htracked)]

/-- A budget that is read from the file of another one records what that one records. -/
theorem Records.of_parse {p : Path} (h : b.Records m c runs severities targets)
    (hparse : parse b.fileText p = .ok b') : b'.Records m c runs severities targets := by
  have hrel := recovers_runs (parse_eq_ok.1 hparse)
  exact h.of_rel (hrel.mono fun hheld => ⟨RunBudget.recovers_severities hheld,
    RunBudget.recovers_paths hheld, RunBudget.recovers_targets hheld⟩)

end Budget

theorem Selection.includes_ofIds {ids : List String} {id : String} :
    (ofIds ids).includes id = true ↔ ids = [] ∨ id ∈ ids := by
  rw [ofIds]
  split
  · next hempty => simp [includes, List.isEmpty_iff.1 hempty]
  · next hnamed =>
    rw [List.isEmpty_iff] at hnamed
    rw [includes, SortedMap.contains_iff_mem_keys, SortedSet.mem_keys_ofList]
    simp [hnamed]

namespace CommandLine

variable {now : Timestamp} {project : Path} {args : RatchetArgs} {m : Manifest}
  {c : RatchetConfig} {runs severities targets : List String} {force : Bool} {out : Outcome}
  {w w' : Workspace}

/-- A budget that is built of what the tokens resolve to records what they ask for. -/
theorem records_build {tracked : SortedSet Severity} {floors : SeverityCounts} (now : Timestamp)
    (haccepted : m.Accepted) (htracked : resolveSeverities c severities = .ok tracked)
    (hfloors : resolveFloors c targets = .ok floors) :
    (Ratchet.build now m (.ofIds runs) tracked floors).Records m c runs severities targets := by
  have hheld {run : String} :=
    (Ratchet.mem_keys_build haccepted now (.ofIds runs) tracked floors run).1
  constructor
  case runs =>
    intro run
    rw [Ratchet.mem_keys_build haccepted, Selection.includes_ofIds]
  case tracked =>
    intro run hrun s
    obtain ⟨hselected, hmem⟩ := hheld hrun
    rw [Ratchet.tracks_build haccepted now _ tracked floors hselected hmem,
      tracked_of_resolveSeverities htracked]
  case floors =>
    intro run hrun s n
    obtain ⟨hselected, hmem⟩ := hheld hrun
    obtain ⟨r, hr, rfl⟩ := List.mem_map.1 hmem
    rw [Budget.floor?, Ratchet.get?_build haccepted, if_pos hselected, haccepted.run?_of_mem hr]
    exact get?_resolveFloors hfloors
  case allowances =>
    intro run hrun path s htracks
    obtain ⟨hselected, hmem⟩ := hheld hrun
    rw [Ratchet.tracks_build haccepted now _ tracked floors hselected hmem] at htracks
    rw [Ratchet.allowed_build_eq haccepted, if_pos ⟨hselected, htracks⟩]

/-- **A successful `init` records what was asked for**: the budget can be loaded again exactly if
its path leads to a file then and the selected options do not nest too deep, and whatever is
loaded there has the runs, severities, floors and counts that were asked for. -/
theorem records_of_init (hnow : now.Valid)
    (h : (perform now ⟨project, .init args severities targets force⟩).exec w = (.ok out, w')) :
    ∃ config m, ProjectConfig.load w project = .ok config ∧
      Manifest.load w (inProject project args.manifest) = .ok m ∧
      ((∃ b, Budget.load w' (budgetPath project config args) = .ok b) ↔
        w'.isRegular (budgetPath project config args) = true ∧ m.Shallow (.ofIds args.runs)) ∧
      ∀ b, Budget.load w' (budgetPath project config args) = .ok b →
        b.Records m config.ratchet args.runs severities targets := by
  rw [perform] at h
  obtain ⟨config, _, hload, h⟩ := FileAction.exec_bind_eq_ok.1 h
  obtain ⟨hconfig, rfl⟩ := FileAction.exec_look_eq_ok.1 hload
  obtain ⟨m, tracked, floors, b, hm, htracked, hfloors, hgenerated, hruns, hsave⟩ :=
    resolved_of_init h
  obtain ⟨text, -, hparse⟩ := exists_parse_of_load hm
  refine ⟨config, m, mapError_eq_ok.1 hconfig, hm, ?_, fun b' hload => ?_⟩
  · rw [← Ratchet.exists_parse_build (p := budgetPath project config args) hparse hnow hgenerated
      hruns, ← exists_and_left]
    exact exists_congr fun b' => Budget.load_of_save hsave
  · have hbuilt : (Ratchet.build now m (.ofIds args.runs) tracked floors).Records m
        config.ratchet args.runs severities targets :=
      records_build now (Manifest.accepted_of_parse hparse) htracked hfloors
    -- the budget that is saved names the manifest and the project too
    have hsame : (Ratchet.build now m (.ofIds args.runs) tracked floors).runs.Rel
        RunBudget.Same b.runs := by
      rw [hruns]
      exact SortedMap.rel_self (fun _ => ⟨rfl, rfl, rfl⟩) _
    exact (hbuilt.of_rel hsame).of_parse ((Budget.load_of_save hsave).1 hload).2

/-- An `init` succeeds that finds no budget, reads what it needs and saves what it builds. -/
theorem perform_init_of_save {config : ProjectConfig} {tracked : SortedSet Severity}
    {floors : SeverityCounts} {p : Path} (hconfig : ProjectConfig.load w project = .ok config)
    (hpath : budgetPath project config args = p) (hnew : (w.pathExists p && !force) = false)
    (hm : Manifest.load w (inProject project args.manifest) = .ok m)
    (htracked : resolveSeverities config.ratchet severities = .ok tracked)
    (hfloors : resolveFloors config.ratchet targets = .ok floors)
    (hsave : (Budget.save { Ratchet.build now m (.ofIds args.runs) tracked floors with
      manifestPath := some args.manifest.text
      projectRoot := some project.text } p).exec w = (.ok (), w')) :
    ∃ out, (perform now ⟨project, .init args severities targets force⟩).exec w = (.ok out, w') := by
  have hinit : ∃ out,
      (init now project config args severities targets force).exec w = (.ok out, w') := by
    rw [init, hpath]
    refine ⟨_, FileAction.exec_bind_eq_ok.2 ⟨(), w, FileAction.exec_look_eq_ok.2 ⟨?_, rfl⟩,
      FileAction.exec_bind_eq_ok.2 ⟨m, w, loadManifest_eq_ok.2 ⟨hm, rfl⟩,
      FileAction.exec_bind_eq_ok.2 ⟨tracked, w, FileAction.exec_lift_eq_ok.2 ⟨htracked, rfl⟩,
      FileAction.exec_bind_eq_ok.2 ⟨floors, w, FileAction.exec_lift_eq_ok.2 ⟨hfloors, rfl⟩,
      FileAction.exec_bind_eq_ok.2 ⟨(), w', ratchetAction_eq_ok.2 hsave, rfl⟩⟩⟩⟩⟩⟩
    rw [hnew]
    rfl
  obtain ⟨out, hinit⟩ := hinit
  exact ⟨out, FileAction.exec_bind_eq_ok.2
    ⟨config, w, FileAction.exec_look_eq_ok.2 ⟨by rw [hconfig]; rfl, rfl⟩, hinit⟩⟩

/-! ## An `init` with respelled tokens -/

/-- The configuration of a project in the root is the one that its file states. -/
theorem load_config_file {text : String} {config : ProjectConfig} {modified : Int}
    (hfile : w.entries.get? ["auditgate.toml"] = some (.file text.toUTF8 modified))
    (hread : ProjectConfig.readToml ProjectConfig.shape.reader text = .ok config) :
    ProjectConfig.load w ⟨"/"⟩ = .ok config :=
  ProjectConfig.load_eq_ok.2
    (.inr ⟨text, Workspace.readText_of_read (inRoot_config.read_file hfile), hread⟩)

/-- Two warnings of one run. -/
def warningsDocument : Json :=
  .object [("runs", .array [.object [("tool", .string "lint"), ("mode", .string "strict"),
    ("perFile", .array [.object [("path", .string "./a.py"),
      ("warnings", .number (.natural 2))]])]])]

def warningsManifest : Manifest :=
  ⟨[⟨"lint", "strict", [⟨"./a.py", 0, 2, 0, none⟩], .null⟩]⟩

/-- A configuration that gives one severity two floors, under two spellings. -/
def respelledText : String :=
  "[ratchet]\nseverities = [\"error\"]\n[ratchet.targets]\n" ++
    "info = 5\ninformation = 4\nwarning = 6\n"

def respelledConfig : RatchetConfig :=
  ⟨none, ["error"], SortedMap.ofList [("info", 5), ("information", 4), ("warning", 6)]⟩

def respelled : Workspace :=
  ⟨SortedMap.ofList [(["audit.json"], .file warningsDocument.compactText.toUTF8 0),
    (["auditgate.toml"], .file respelledText.toUTF8 0)], [], 0⟩

theorem load_config_respelled :
    ProjectConfig.load respelled ⟨"/"⟩ = .ok ⟨.standard, respelledConfig⟩ := by
  have hfile : respelled.entries.get? ["auditgate.toml"] =
      some (.file respelledText.toUTF8 0) := by simp [respelled, SortedMap.get?_ofList]
  exact load_config_file hfile (by decide +kernel)

theorem load_manifest_respelled :
    Manifest.load respelled (inProject ⟨"/"⟩ ⟨"audit.json"⟩) = .ok warningsManifest := by
  have hfile : respelled.entries.get? ["audit.json"] =
      some (.file warningsDocument.compactText.toUTF8 0) := by
    simp [respelled, SortedMap.get?_ofList]
  rw [inProject_manifest]
  exact load_manifest_file hfile (Manifest.parse_of_read (j := warningsDocument)
    (by decide +kernel) (by decide +kernel) (by decide +kernel) _)

/-- Of the two spellings the longer one is the last in the order of bytes. -/
theorem setsFloor_respelled : respelledConfig.SetsFloor .information 4 := by
  refine ⟨"information", rfl, by decide, fun other n hother hparse hne => ?_⟩
  have hmem : (other, n) ∈ [("info", 5), ("information", 4), ("warning", 6)] :=
    SortedMap.get?_eq_some_iff.1 hother
  simp only [List.mem_cons, List.not_mem_nil, or_false, Prod.mk.injEq] at hmem
  rcases hmem with ⟨rfl, -⟩ | ⟨rfl, -⟩ | ⟨rfl, -⟩
  · exact Text.bytes_lt_iff.2 (by decide)
  · exact absurd rfl hne
  · exact absurd hparse (by decide)

/-- The floors of two spellings on the command line are both floors of warnings. -/
theorem parseFloor_respelled :
    parseFloor "warning=1" = .ok (.warning, 1) ∧
      parseFloor " WARNINGS = 3" = .ok (.warning, 3) := by
  decide +kernel

/-- An `init` of two tokens and two floors on the command line succeeds. -/
theorem exists_init_respelled :
    ∃ out w', (perform .epoch ⟨⟨"/"⟩, .init (rootArgs ⟨"/budget.json"⟩) ["Warnings", "info"]
        ["warning=1", " WARNINGS = 3"] false⟩).exec respelled = (.ok out, w') ∧
      w'.isRegular ⟨"/budget.json"⟩ = true := by
  let tracked : SortedSet Severity := SortedSet.ofList [.warning, .information]
  let floors : SeverityCounts := SortedMap.ofList [(.warning, 3), (.information, 4)]
  have htracked : resolveSeverities respelledConfig ["Warnings", "info"] = .ok tracked :=
    mapError_eq_ok.2 (by decide +kernel)
  have hfloors : resolveFloors respelledConfig ["warning=1", " WARNINGS = 3"] = .ok floors := by
    have hconfigured : respelledConfig.targetFloors =
        .ok (SortedMap.ofList [(.warning, 6), (.information, 4)]) := by decide +kernel
    rw [resolveFloors, hconfigured]
    simp only [addFloors_eq]
    exact mapError_eq_ok.2 (by decide +kernel)
  have hfree : respelled.entries.get? ["budget.json"] = none := by
    simp [respelled, SortedMap.get?_ofList]
  have hnew : (respelled.pathExists ⟨"/budget.json"⟩ && !false) = false := by
    rw [Budget.inRoot_file.pathExists_free hfree]
    rfl
  obtain ⟨w', hsave, hregular⟩ := Budget.exists_save_root (w := respelled)
    { Ratchet.build .epoch warningsManifest (.ofIds []) tracked floors with
      manifestPath := some "audit.json"
      projectRoot := some "/" } (by simp [respelled, SortedMap.get?_ofList]) hfree
  obtain ⟨out, hinit⟩ := perform_init_of_save load_config_respelled
    (budgetPath_rootArgs (by decide) _) hnew load_manifest_respelled htracked hfloors hsave
  exact ⟨out, w', hinit, hregular⟩

/-- Two spellings of one severity in the configuration and on the command line: of the configured
ones the last in the order of bytes decides, of the others the later, and the configured severities
do not count. -/
theorem records_of_init_respelled :
    Timestamp.epoch.Valid ∧ ∃ out w' b,
      (perform .epoch ⟨⟨"/"⟩, .init (rootArgs ⟨"/budget.json"⟩) ["Warnings", "info"]
        ["warning=1", " WARNINGS = 3"] false⟩).exec respelled = (.ok out, w') ∧
      Budget.load w' ⟨"/budget.json"⟩ = .ok b ∧ "lint:strict" ∈ b.runs.keys ∧
      ¬ b.Tracks "lint:strict" .error ∧ b.floor? "lint:strict" .warning = some 3 ∧
      b.floor? "lint:strict" .information = some 4 ∧
      b.allowed "lint:strict" "a.py" .warning = 2 := by
  obtain ⟨out, w', hinit, hregular⟩ := exists_init_respelled
  obtain ⟨config, m, hconfig, hm, hload, hrecords⟩ := records_of_init Timestamp.valid_epoch hinit
  cases load_config_respelled.symm.trans hconfig
  cases load_manifest_respelled.symm.trans hm
  rw [budgetPath_rootArgs (by decide)] at hload hrecords
  have hshallow : warningsManifest.Shallow (.ofIds []) := by
    intro r hr _
    obtain rfl := List.mem_singleton.1 hr
    decide
  obtain ⟨b, hb⟩ := hload.2 ⟨hregular, hshallow⟩
  have hrecords := hrecords b hb
  have hrun : "lint:strict" ∈ b.runs.keys := (hrecords.runs _).2 ⟨.inl rfl, by decide⟩
  have htracks (s : Severity) : b.Tracks "lint:strict" s ↔ s.Denoted ["Warnings", "info"] :=
    hrecords.tracked _ hrun s
  obtain ⟨hfirst, hsecond⟩ := parseFloor_respelled
  refine ⟨Timestamp.valid_epoch, out, w', b, hinit, hb, hrun, ?error, ?warning, ?information,
    ?allowed⟩
  case error =>
    rw [htracks]
    rintro ⟨token, htoken, hparse⟩
    simp only [List.mem_cons, List.not_mem_nil, or_false] at htoken
    rcases htoken with rfl | rfl <;> exact absurd hparse (by decide)
  case warning =>
    exact (hrecords.floors _ hrun _ _).2 (.inl ⟨["warning=1"], _, [], rfl, hsecond, by simp⟩)
  case information =>
    refine (hrecords.floors _ hrun _ _).2 (.inr ⟨fun spec hspec k hparse => ?_,
      setsFloor_respelled⟩)
    simp only [List.mem_cons, List.not_mem_nil, or_false] at hspec
    rcases hspec with rfl | rfl
    · cases hfirst.symm.trans hparse
    · cases hsecond.symm.trans hparse
  case allowed =>
    rw [hrecords.allowances _ hrun _ _ ((htracks _).2 ⟨"Warnings", .head _, by decide⟩)]
    decide +kernel

/-! ## An `init` that records nothing -/

/-- A manifest, and a link to a device in place of the temporary file of the budget. -/
def unrecorded : Workspace :=
  ⟨SortedMap.ofList [(["audit.json"], .file "{}".toUTF8 0),
    (["budget.json.tmp"], .link "/null"), (["null"], .device)], [], 0⟩

/-- An `init` that gives its budget to a device: it succeeds, its temporary file is none of the
other files, there are no options that might not be stored, and no budget can be loaded. -/
theorem not_recorded :
    let p : Path := ⟨"/budget.json"⟩
    (∀ q ∈ [ProjectConfig.file ⟨"/"⟩, inProject ⟨"/"⟩ ⟨"audit.json"⟩, p],
      Budget.TemporaryApart unrecorded p q) ∧
      Manifest.load unrecorded (inProject ⟨"/"⟩ ⟨"audit.json"⟩) = .ok ⟨[]⟩ ∧
      ∃ out w', (perform .epoch ⟨⟨"/"⟩, .init (rootArgs p) [] [] false⟩).exec unrecorded =
          (.ok out, w') ∧ ∀ b, Budget.load w' p ≠ .ok b := by
  intro p
  have hmanifest : unrecorded.entries.get? ["audit.json"] = some (.file "{}".toUTF8 0) := by
    simp [unrecorded, SortedMap.get?_ofList]
  have hlink : unrecorded.entries.get? ["budget.json.tmp"] = some (.link "/null") := by
    simp [unrecorded, SortedMap.get?_ofList]
  have hdevice : unrecorded.entries.get? ["null"] = some .device := by
    simp [unrecorded, SortedMap.get?_ofList]
  have hconfig : unrecorded.entries.get? ["auditgate.toml"] = none := by
    simp [unrecorded, SortedMap.get?_ofList]
  have hfree : unrecorded.entries.get? ["budget.json"] = none := by
    simp [unrecorded, SortedMap.get?_ofList]
  have hapart : ∀ q ∈ [ProjectConfig.file ⟨"/"⟩, inProject ⟨"/"⟩ ⟨"audit.json"⟩, p],
      Budget.TemporaryApart unrecorded p q := by
    intro q hq bytes w₁ hwrite
    rw [temporaryPath_root] at hwrite ⊢
    have hplace := Budget.inRoot_temporary.placeOf_null hlink hdevice
    rw [Workspace.write_device (by decide) (by decide) hplace (by simp) hdevice] at hwrite
    obtain rfl := Except.ok.inj hwrite
    have hways : Ways unrecorded (.free [] "auditgate.toml") (.found ["audit.json"])
        (.free [] "budget.json") :=
      ⟨⟨0, .free rfl inRoot_config.named hconfig⟩, ⟨0, leads_file inRoot_manifest.named hmanifest⟩,
        ⟨0, .free rfl Budget.inRoot_file.named hfree⟩⟩
    exact hways.not_aliases hplace (by simp) q hq
  have hm : Manifest.load unrecorded (inProject ⟨"/"⟩ ⟨"audit.json"⟩) = .ok ⟨[]⟩ := by
    rw [inProject_manifest]
    exact load_manifest_root hmanifest
  obtain ⟨w', hsave, -, hload, -⟩ := Budget.exists_save_device (w := unrecorded)
    { Ratchet.build .epoch ⟨[]⟩ (.ofIds []) .empty .empty with
      manifestPath := some "audit.json"
      projectRoot := some "/" } hlink hdevice (by simp [Workspace.isDirectoryAt, hfree])
  have hnew : (unrecorded.pathExists p && !false) = false := by
    rw [Budget.inRoot_file.pathExists_free hfree]
    rfl
  have hinit : ∃ out, (perform .epoch ⟨⟨"/"⟩, .init (rootArgs p) [] [] false⟩).exec unrecorded =
      (.ok out, w') :=
    perform_init_of_save (load_config_root hconfig) (budgetPath_rootArgs (by decide) _) hnew hm
      rfl rfl hsave
  obtain ⟨out, hinit⟩ := hinit
  exact ⟨hapart, hm, out, w', hinit, hload⟩

end CommandLine

end AnalysisGate
