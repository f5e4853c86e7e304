import AnalysisGate.Budget
import AnalysisGate.Proofs.Json.Records
import AnalysisGate.Proofs.Json.Rereading
import Mathlib

/-!
Budget files.

A budget that is read from the file of another one allows exactly what that one allows, whatever
its texts and its engine options are (`Budget.allowed_of_parse`). That a budget is read at all
depends on the options only: they may not nest deeper than `Budget.optionsLimit`
(`Budget.exists_parse_iff`). If they have no doubles either, it is that budget
(`Budget.parse_fileText`).
-/
namespace AnalysisGate

/-! ## Counts -/

namespace Severity

theorem name_injective : Function.Injective name := by
  intro a b h
  cases a <;> cases b <;> first | rfl | exact absurd h (by decide)

theorem key_name (s : Severity) : key s.name = .ok s := by
  cases s <;> rfl

theorem reader_string (m : Medium) (text : String) :
    Severity.reader m (.string text) = key text := by
  have hstring : Reader.string m (.string text) = .ok text := rfl
  rw [reader, hstring]
  simp only [bind, Except.bind]

theorem recovers {m : Medium} {depth : Nat} {s s' : Severity} :
    Severity.reader.Recovers m depth (.string s.name) s' ↔ s = s' := by
  constructor
  · rintro ⟨v, hv, hs⟩
    cases Json.seen_string.symm.trans hv
    rw [reader_string, key_name] at hs
    exact Except.ok.inj hs
  · rintro rfl
    refine ⟨.string s.name, Json.seen_string, ?_⟩
    rw [reader_string, key_name]

end Severity

namespace SeverityCounts

variable {m : Medium} {depth : Nat} {c c' : SeverityCounts}

theorem recovers (h : SeverityCounts.reader.Recovers m depth c.toJson c') : c = c' := by
  obtain ⟨-, hrel⟩ := (Reader.recovers_mapWith Severity.name_injective Severity.key_name).1 h
  exact hrel.eq fun h => Reader.recovers_count.1 h

theorem exists_recovers (hdepth : depth ≤ Json.nestingLimit) :
    ∃ c', SeverityCounts.reader.Recovers m depth c.toJson c' :=
  Reader.exists_recovers_mapWith Severity.name_injective Severity.key_name hdepth
    fun _ _ => ⟨_, Reader.recovers_count.2 rfl⟩

end SeverityCounts

/-! ## Signatures -/

namespace EngineSignature

variable {m : Medium} {depth : Nat} {s s' : EngineSignature}

theorem part_tool : shape.Part "tool" Reader.string EngineSignature.tool :=
  Shape.part_field rfl (fun _ _ => rfl) (by simp [shape])

theorem part_mode : shape.Part "mode" Reader.string EngineSignature.mode :=
  Shape.part_field rfl (fun _ _ => rfl) (by simp [shape])

theorem part_engineOptions :
    shape.Part "engineOptions" Reader.value EngineSignature.engineOptions :=
  Shape.part_field rfl (fun _ _ => rfl) (by simp [shape])

theorem part_hash : shape.Part "hash" Reader.string EngineSignature.hash :=
  Shape.part_field rfl (fun _ _ => rfl) (by simp [shape])

/-- A signature is recovered as itself, if its options have no doubles. -/
theorem recovers (hn : s.engineOptions.Normal) (hd : s.engineOptions.hasDouble = false)
    (hdepth : depth + 1 + s.engineOptions.height ≤ Json.nestingLimit + 1)
    (h : Reader.Recovers shape.reader m depth s.toJson s') : s = s' := by
  have htool := Shape.recovers_part h part_tool (by simp) (.head _)
  have hmode := Shape.recovers_part h part_mode (by simp) (.tail _ (.head _))
  have hoptions := Shape.recovers_part h part_engineOptions (by simp)
    (.tail _ (.tail _ (.head _)))
  have hhash := Shape.recovers_part h part_hash (by simp)
    (.tail _ (.tail _ (.tail _ (.head _))))
  cases s
  cases s'
  congr
  · exact Reader.recovers_string.1 htool
  · exact Reader.recovers_string.1 hmode
  · exact (Reader.recovers_value hn hd hdepth).unique hoptions
  · exact Reader.recovers_string.1 hhash

/-- Some signature is recovered exactly if the options do not nest too deep. -/
theorem exists_recovers_iff (hv : Json.Over Json.finiteDoubles s.engineOptions)
    (hdepth : depth ≤ Json.nestingLimit) :
    (∃ s', Reader.Recovers shape.reader .tree depth s.toJson s') ↔
      depth + s.engineOptions.height ≤ Json.nestingLimit := by
  have hoptions : (∃ v, Reader.value.Recovers .tree (depth + 1) s.engineOptions v) ↔
      depth + s.engineOptions.height ≤ Json.nestingLimit := by
    rw [Reader.recovers_value_iff hv]
    omega
  rw [← hoptions]
  constructor
  · rintro ⟨s', h⟩
    exact ⟨_, Shape.recovers_part h part_engineOptions (by simp) (.tail _ (.tail _ (.head _)))⟩
  · rintro ⟨v, h⟩
    refine Shape.exists_recovers hdepth (by simp) ?_ (by simp [shape])
    have hstring {t : String} : Reader.string.Recovers .tree (depth + 1) (.string t) t :=
      Reader.recovers_string.2 rfl
    simp only [List.forall_mem_cons, List.not_mem_nil, false_imp_iff, implies_true, and_true]
    exact ⟨Shape.admits_field rfl hstring, Shape.admits_field rfl hstring,
      Shape.admits_field rfl h, Shape.admits_field rfl hstring⟩

/-- What is written for a signature is not null. -/
theorem seen_ne_null : s.toJson.seen m depth ≠ some .null := by
  intro h
  rcases Json.seen_object.1 h with ⟨-, vs, -, heq⟩ | ⟨-, -, heq⟩ <;> cases heq

end EngineSignature

/-! ## Runs -/

namespace RunBudget

variable {m : Medium} {depth : Nat} {r r' : RunBudget}

theorem recovers_path {c c' : SeverityCounts}
    (h : Reader.Recovers pathShape.reader m depth (.object [("severities", c.toJson)]) c') :
    c = c' := by
  have hpart : pathShape.Part "severities" SeverityCounts.reader id :=
    Shape.part_field rfl (fun _ _ => rfl) (by simp [pathShape])
  exact SeverityCounts.recovers
    (Shape.recovers_part h hpart (by simp) (List.mem_singleton.2 rfl))

theorem exists_recovers_path {c : SeverityCounts} (hdepth : depth + 1 ≤ Json.nestingLimit) :
    ∃ c', Reader.Recovers pathShape.reader m depth (.object [("severities", c.toJson)]) c' := by
  refine Shape.exists_recovers (by omega) (by simp) ?_ (by simp [pathShape])
  obtain ⟨c', hc'⟩ := SeverityCounts.exists_recovers (c := c) hdepth
  rw [List.forall_mem_singleton]
  exact Shape.admits_field rfl hc'

theorem recovers_paths (h : Reader.Recovers shape.reader m depth r.toJson r') :
    r.paths = r'.paths := by
  have hpart : shape.Part "paths" (Reader.map pathShape.reader) RunBudget.paths :=
    Shape.part_field rfl (fun _ _ => rfl) (by simp [shape])
  have hpaths := Shape.recovers_part h hpart (by simp) (.tail _ (.head _))
  exact (Reader.recovers_map.1 hpaths).2.eq recovers_path

theorem severitiesToJson_eq (s : SortedSet Severity) :
    severitiesToJson s = .array (s.keys.map fun s => .string s.name) := by
  rw [severitiesToJson, Json.ofStrings, List.map_map]
  rfl

theorem recovers_severities (h : Reader.Recovers shape.reader m depth r.toJson r') :
    r.severities = r'.severities := by
  have hpart : shape.Part "severities"
      (fun m j => (Reader.list Severity.reader m j).map SortedSet.ofList) RunBudget.severities :=
    Shape.part_field_map rfl (fun _ _ => rfl) (by simp [shape])
  obtain ⟨l, hlist, hset⟩ :=
    Reader.recovers_made.1 (Shape.recovers_part h hpart (by simp) (.head _))
  rw [severitiesToJson_eq, Reader.recovers_list] at hlist
  have hkeys : r.severities.keys.map id = l :=
    (forall₂_eq_map (f := id) fun _ _ => Severity.recovers).1 hlist.2
  rw [← hset, ← hkeys, List.map_id, SortedSet.ofList_keys]

theorem recovers_targets (h : Reader.Recovers shape.reader m depth r.toJson r') :
    r.targets = r'.targets := by
  have hpart : shape.Part "targets" SeverityCounts.reader RunBudget.targets :=
    Shape.part_field rfl (fun _ _ => rfl) (by simp [shape])
  exact SeverityCounts.recovers
    (Shape.recovers_part h hpart (by simp) (.tail _ (.tail _ (.head _))))

theorem part_signature :
    shape.Part "engineSignature" (Reader.optional EngineSignature.shape.reader)
      RunBudget.signature :=
  Shape.part_field rfl (fun _ _ => rfl) (by simp [shape])

/-- The signature of a run that is recovered is recovered itself. -/
theorem recovers_signature (h : Reader.Recovers shape.reader m depth r.toJson r') :
    Option.Rel (fun s s' =>
        Reader.Recovers EngineSignature.shape.reader m (depth + 1) s.toJson s')
      r.signature r'.signature := by
  have hsignature := Shape.recovers_part h part_signature (by simp)
    (.tail _ (.tail _ (.tail _ (.head _))))
  cases hr : r.signature with
  | none =>
    rw [hr] at hsignature
    rw [Reader.recovers_null.1 hsignature]
    exact .none
  | some s =>
    rw [hr] at hsignature
    obtain ⟨s', hs', heq⟩ :=
      (Reader.recovers_optional EngineSignature.seen_ne_null).1 hsignature
    rw [← heq]
    exact .some hs'

/-- A run is recovered as itself, if the options of its signature have no doubles. -/
theorem recovers (hoptions : ∀ s, r.signature = some s → s.engineOptions.Normal ∧
      s.engineOptions.hasDouble = false ∧
      depth + 2 + s.engineOptions.height ≤ Json.nestingLimit + 1)
    (h : Reader.Recovers shape.reader m depth r.toJson r') : r = r' := by
  have hsignature : r.signature = r'.signature := by
    have hrel := recovers_signature h
    generalize r'.signature = signature' at hrel
    cases hr : r.signature with
    | none =>
      rw [hr] at hrel
      cases hrel
      rfl
    | some s =>
      rw [hr] at hrel
      obtain ⟨hn, hd, hheight⟩ := hoptions s hr
      cases hrel with
      | some hs => rw [EngineSignature.recovers hn hd hheight hs]
  have hpaths := recovers_paths h
  have hseverities := recovers_severities h
  have htargets := recovers_targets h
  cases r
  cases r'
  rw [RunBudget.mk.injEq]
  exact ⟨hseverities, hpaths, htargets, hsignature⟩

/-- Some run is recovered exactly if its options do not nest too deep. -/
theorem exists_recovers_iff
    (hv : ∀ s, r.signature = some s → Json.Over Json.finiteDoubles s.engineOptions)
    (hdepth : depth + 3 ≤ Json.nestingLimit) :
    (∃ r', Reader.Recovers shape.reader .tree depth r.toJson r') ↔
      ∀ s, r.signature = some s → depth + 1 + s.engineOptions.height ≤ Json.nestingLimit := by
  constructor
  · rintro ⟨r', h⟩ s hs
    have hrel := recovers_signature h
    rw [hs] at hrel
    generalize r'.signature = signature' at hrel
    cases hrel with
    | some hs' =>
      exact (EngineSignature.exists_recovers_iff (hv s hs) (by omega)).1 ⟨_, hs'⟩
  · intro hheight
    refine Shape.exists_recovers (by omega) (by simp) ?_ (by simp [shape])
    simp only [List.forall_mem_cons, List.not_mem_nil, false_imp_iff, implies_true, and_true]
    refine ⟨?_, ?_, ?_, ?_⟩
    · have hseverities : (Reader.list Severity.reader).Recovers .tree (depth + 1)
          (severitiesToJson r.severities) r.severities.keys := by
        rw [severitiesToJson_eq]
        exact Reader.recovers_list_self (by omega) fun _ _ => Severity.recovers.2 rfl
      exact Shape.admits_field rfl hseverities
    · have hpaths : ∃ paths, (Reader.map pathShape.reader).Recovers .tree (depth + 1)
          (.ofMap (fun c => .object [("severities", c.toJson)]) r.paths) paths :=
        Reader.exists_recovers_map (by omega) fun _ _ => exists_recovers_path (by omega)
      obtain ⟨paths, hpaths⟩ := hpaths
      exact Shape.admits_field rfl hpaths
    · have htargets : ∃ targets, SeverityCounts.reader.Recovers .tree (depth + 1)
          r.targets.toJson targets := SeverityCounts.exists_recovers (by omega)
      obtain ⟨targets, htargets⟩ := htargets
      exact Shape.admits_field rfl htargets
    · cases hs : r.signature with
      | none => exact Shape.admits_field rfl (Reader.recovers_null.2 rfl)
      | some s =>
        obtain ⟨s', hs'⟩ := (EngineSignature.exists_recovers_iff (hv s hs)
          (show depth + 1 ≤ Json.nestingLimit by omega)).2 (hheight s hs)
        exact Shape.admits_field rfl
          ((Reader.recovers_optional EngineSignature.seen_ne_null).2 ⟨s', hs', rfl⟩)

end RunBudget

/-! ## Files -/

namespace Budget

variable {m : Medium} {depth : Nat} {b b' : Budget}

/-- The options of a signature in a budget may nest this deep: four containers are around them. -/
def optionsLimit : Nat := Json.nestingLimit - 4

/-- The members of the document of a budget. -/
def members (b : Budget) : List (String × Json) :=
  [("schemaVersion", .ofNat RatchetError.schemaVersion),
    ("generatedAt", .string b.generatedAt.text)] ++
    optionalMember "manifestPath" b.manifestPath ++ optionalMember "projectRoot" b.projectRoot ++
    [("runs", .ofMap RunBudget.toJson b.runs)]

theorem keys_nodup (b : Budget) : (b.members.map Prod.fst).Nodup := by
  rw [members]
  cases b.manifestPath <;> cases b.projectRoot <;> simp [optionalMember]

theorem part_runs : shape.Part "runs" (Reader.map RunBudget.shape.reader) Budget.runs :=
  Shape.part_field rfl (fun _ _ => rfl) (by simp [shape])

theorem recovers_runs (h : Reader.Recovers shape.reader m depth b.toJson b') :
    b.runs.Rel (fun r r' =>
      Reader.Recovers RunBudget.shape.reader m (depth + 2) r.toJson r') b'.runs := by
  have hruns := Shape.recovers_part h part_runs b.keys_nodup (List.mem_append_right _ (.head _))
  exact (Reader.recovers_map.1 hruns).2

theorem recovers_allowed (h : Reader.Recovers shape.reader m depth b.toJson b')
    (run path : String) (s : Severity) : b'.allowed run path s = b.allowed run path s := by
  have hpaths := (recovers_runs h).mono RunBudget.recovers_paths
  have hheld := hpaths.getD (a := RunBudget.empty) (b := RunBudget.empty) rfl run
  rw [allowed, allowed, RunBudget.allowed, RunBudget.allowed, hheld]

theorem recovers_generatedAt (h : Reader.Recovers shape.reader m depth b.toJson b') :
    Timestamp.parse b.generatedAt.text = .ok b'.generatedAt := by
  have hpart : shape.Part "generatedAt" timestampReader Budget.generatedAt :=
    Shape.part_field rfl (fun _ _ => rfl) (by simp [shape])
  obtain ⟨v, hv, hread⟩ := Shape.recovers_part h hpart b.keys_nodup
    (j := .string b.generatedAt.text) (by simp)
  cases Json.seen_string.symm.trans hv
  rw [timestampReader] at hread
  cases ht : Timestamp.parse b.generatedAt.text with
  | error e =>
    rw [ht] at hread
    cases hread
  | ok t =>
    rw [ht] at hread
    exact congrArg Except.ok (Except.ok.inj hread)

/-- A text that is left out where there is none. -/
theorem recovers_optionalMember {k : String} {part : Budget → Option String}
    (hpart : shape.Part k (Reader.optional Reader.string) part) (hstart : part shape.start = none)
    (hsome : ∀ s, part b = some s → (k, .string s) ∈ b.members)
    (hnone : part b = none → k ∉ b.members.map Prod.fst)
    (h : Reader.Recovers shape.reader m depth b.toJson b') : part b = part b' := by
  cases hb : part b with
  | none =>
    rw [Shape.recovers_part_absent h hpart.frame b.keys_nodup (hnone hb), hstart]
  | some s =>
    have hread := Shape.recovers_part h hpart b.keys_nodup (hsome s hb)
    have hnull : (Json.string s).seen m (depth + 1) ≠ some .null := by
      rw [Json.seen_string]
      exact nofun
    obtain ⟨t, ht, heq⟩ := (Reader.recovers_optional hnull).1 hread
    rw [← heq, Reader.recovers_string.1 ht]

theorem recovers_manifestPath (h : Reader.Recovers shape.reader m depth b.toJson b') :
    b.manifestPath = b'.manifestPath := by
  have hpart : shape.Part "manifestPath" (Reader.optional Reader.string) Budget.manifestPath :=
    Shape.part_field rfl (fun _ _ => rfl) (by simp [shape])
  refine recovers_optionalMember hpart rfl (fun s hs => ?_) (fun hs => ?_) h
  · simp [members, hs, optionalMember]
  · cases hroot : b.projectRoot <;> simp [members, hs, hroot, optionalMember]

theorem recovers_projectRoot (h : Reader.Recovers shape.reader m depth b.toJson b') :
    b.projectRoot = b'.projectRoot := by
  have hpart : shape.Part "projectRoot" (Reader.optional Reader.string) Budget.projectRoot :=
    Shape.part_field rfl (fun _ _ => rfl) (by simp [shape])
  refine recovers_optionalMember hpart rfl (fun s hs => ?_) (fun hs => ?_) h
  · simp [members, hs, optionalMember]
  · cases hpath : b.manifestPath <;> simp [members, hs, hpath, optionalMember]

/-- A property of every signature that a budget stores. -/
def Stores (b : Budget) (P : EngineSignature → Prop) : Prop :=
  ∀ run held s, b.runs.get? run = some held → held.signature = some s → P s

/-- **A budget is recovered as itself**, if the options that it stores have no doubles and do not
nest too deep. -/
theorem recovers (htime : Timestamp.parse b.generatedAt.text = .ok b.generatedAt)
    (hoptions : b.Stores fun s => s.engineOptions.Normal ∧ s.engineOptions.hasDouble = false ∧
      s.engineOptions.height ≤ optionsLimit)
    (h : Reader.Recovers shape.reader m 1 b.toJson b') : b = b' := by
  have hruns : b.runs = b'.runs := by
    refine SortedMap.ext_get? fun run => ?_
    have hrel := recovers_runs h
    cases hr : b.runs.get? run with
    | none => rw [hrel.none_right hr]
    | some r =>
      obtain ⟨r', hr', hread⟩ := hrel.exists_right hr
      rw [hr', RunBudget.recovers (fun s hs => ?_) hread]
      obtain ⟨hn, hd, hheight⟩ := hoptions run r s hr hs
      have hlimit : optionsLimit + 4 = Json.nestingLimit := rfl
      exact ⟨hn, hd, by omega⟩
  have htime' := htime.symm.trans (recovers_generatedAt h)
  have hpath := recovers_manifestPath h
  have hroot := recovers_projectRoot h
  cases b
  cases b'
  rw [Budget.mk.injEq]
  exact ⟨Except.ok.inj htime', hpath, hroot, hruns⟩

/-- Some budget is recovered exactly if no options that are stored nest too deep. -/
theorem exists_recovers_iff {t : Timestamp} (htime : Timestamp.parse b.generatedAt.text = .ok t)
    (hv : b.Stores fun s => Json.Over Json.finiteDoubles s.engineOptions) :
    (∃ b', Reader.Recovers shape.reader .tree 1 b.toJson b') ↔
      b.Stores fun s => s.engineOptions.height ≤ optionsLimit := by
  have hlimit : optionsLimit + 4 = Json.nestingLimit := rfl
  constructor
  · rintro ⟨b', h⟩ run held s hheld hs
    obtain ⟨r', -, hread⟩ := (recovers_runs h).exists_right hheld
    have hheight := (RunBudget.exists_recovers_iff (fun s hs => hv run held s hheld hs)
      (by decide)).1 ⟨r', hread⟩ s hs
    omega
  · intro hheight
    refine Shape.exists_recovers (l := b.members) (by decide) b.keys_nodup ?_ ?_
    · have hversion : Reader.word32.Recovers .tree 2 (.ofNat RatchetError.schemaVersion) 1 :=
        ⟨_, Json.seen_ofCount, rfl⟩
      have htimestamp : timestampReader.Recovers .tree 2 (.string b.generatedAt.text) t :=
        ⟨_, Json.seen_string, by rw [timestampReader, htime]; rfl⟩
      have hoptional {s : String} :
          (Reader.optional Reader.string).Recovers .tree 2 (.string s) (some s) :=
        ⟨_, Json.seen_string, rfl⟩
      have hruns : ∃ runs, (Reader.map RunBudget.shape.reader).Recovers .tree 2
          (.ofMap RunBudget.toJson b.runs) runs := by
        refine Reader.exists_recovers_map (by decide) fun e he => ?_
        have hheld : b.runs.get? e.1 = some e.2 := SortedMap.get?_eq_some_iff.2 he
        refine (RunBudget.exists_recovers_iff (fun s hs => hv e.1 e.2 s hheld hs)
          (by decide)).2 fun s hs => ?_
        have hs' := hheight e.1 e.2 s hheld hs
        omega
      -- every member is read by the field of its name
      obtain ⟨runs, hruns⟩ := hruns
      intro e he
      simp only [members, List.mem_append, List.mem_cons, List.not_mem_nil, or_false] at he
      rcases he with (((rfl | rfl) | he) | he) | rfl
      · exact Shape.admits_field rfl hversion
      · exact Shape.admits_field rfl htimestamp
      · cases hpath : b.manifestPath with
        | none => simp [hpath, optionalMember] at he
        | some s =>
          rw [hpath] at he
          obtain rfl := List.mem_singleton.1 he
          exact Shape.admits_field rfl hoptional
      · cases hroot : b.projectRoot with
        | none => simp [hroot, optionalMember] at he
        | some s =>
          rw [hroot] at he
          obtain rfl := List.mem_singleton.1 he
          exact Shape.admits_field rfl hoptional
      · exact Shape.admits_field rfl hruns
    · intro f hf hrequired
      simp only [shape, List.mem_cons, List.not_mem_nil, or_false] at hf
      rcases hf with rfl | rfl | rfl | rfl | rfl
      · simp [members]
      · simp [members]
      · cases hrequired
      · cases hrequired
      · cases hrequired

/-! ## Texts of budgets -/

theorem toList_fileText (b : Budget) :
    b.fileText.toList = Json.write .pretty 0 b.toJson ++ ['\n'] := by
  rw [fileText, String.toList_append, Json.toList_prettyText]
  rfl

theorem readValue?_fileText (b : Budget) :
    Json.readValue? b.fileText.toList = b.toJson.seen .tree 1 := by
  rw [Json.readValue?, toList_fileText,
    Json.read?_write Json.Layout.blank_pretty _ (by simp [Json.isSpace])]
  rfl

/-- The schema of a budget that is written is the one that is read. -/
theorem foreignSchema?_seen {j : Json} (h : b.toJson.seen .tree 1 = some j) :
    foreignSchema? j = none := by
  have hobject : (Json.object b.members).seen .tree 1 = some j := h
  rcases Json.seen_object.1 hobject with ⟨-, vs, hvs, rfl⟩ | ⟨-, hmedium, -⟩
  · have hkeys : b.members.map Prod.fst = vs.map Prod.fst :=
      map_eq_of_forall₂ hvs fun _ _ _ h => h.1
    have hversion : ("schemaVersion", Json.ofNat RatchetError.schemaVersion) ∈ b.members := by
      simp [members]
    obtain ⟨⟨k, v⟩, hv, rfl, hseen⟩ := exists_of_mem_left hvs hversion
    cases Json.seen_ofCount.symm.trans hseen
    have hget : (Json.object (Json.arrange .tree vs)).get? "schemaVersion" =
        some (.ofNat RatchetError.schemaVersion) := by
      rw [Json.get?_eq_ofList,
        SortedMap.get?_ofList_eq_some (Json.nodup_arrange (hkeys ▸ b.keys_nodup)),
        Json.mem_arrange (hkeys ▸ b.keys_nodup)]
      exact hv
    rw [foreignSchema?, hget]
    exact if_pos rfl
  · exact absurd rfl hmedium

theorem parse_eq_ok {p : Path} :
    parse b.fileText p = .ok b' ↔ Reader.Recovers shape.reader .tree 1 b.toJson b' := by
  rw [parse, readValue?_fileText, Reader.Recovers]
  cases hseen : b.toJson.seen .tree 1 with
  | none => simp
  | some j =>
    simp only [foreignSchema?_seen hseen]
    cases hj : shape.reader .tree j <;> simp [hj, Except.mapError]

/-- **A budget that is read from the file of another one allows what that one allows.** -/
theorem allowed_of_parse {p : Path} (h : parse b.fileText p = .ok b') (run path : String)
    (s : Severity) : b'.allowed run path s = b.allowed run path s :=
  recovers_allowed (parse_eq_ok.1 h) run path s

/-- A budget can be read from its file exactly if no options in it nest too deep. -/
theorem exists_parse_iff {p : Path} {t : Timestamp}
    (htime : Timestamp.parse b.generatedAt.text = .ok t)
    (hv : b.Stores fun s => Json.Over Json.finiteDoubles s.engineOptions) :
    (∃ b', parse b.fileText p = .ok b') ↔
      b.Stores fun s => s.engineOptions.height ≤ optionsLimit := by
  rw [← exists_recovers_iff htime hv]
  exact exists_congr fun _ => parse_eq_ok

/-- **A budget is read from its file as itself**, if the options in it have no doubles and do not
nest too deep. -/
theorem parse_fileText (htime : Timestamp.parse b.generatedAt.text = .ok b.generatedAt)
    (hoptions : b.Stores fun s => s.engineOptions.Normal ∧ s.engineOptions.hasDouble = false ∧
      s.engineOptions.height ≤ optionsLimit) (p : Path) : parse b.fileText p = .ok b := by
  have hv : b.Stores fun s => Json.Over Json.finiteDoubles s.engineOptions := by
    intro run held s hheld hs
    obtain ⟨hn, hd, -⟩ := hoptions run held s hheld hs
    exact Json.over_of_hasDouble hn hd
  obtain ⟨b', hb'⟩ := (exists_parse_iff htime hv (p := p)).2 fun run held s hheld hs =>
    (hoptions run held s hheld hs).2.2
  rw [hb', recovers htime hoptions (parse_eq_ok.1 hb')]

end Budget

end AnalysisGate
