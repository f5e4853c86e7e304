import AnalysisGate.CommandLine.Run
import AnalysisGate.Proofs.Json.Equivalence
import AnalysisGate.Proofs.StoreFile
import AnalysisGate.Proofs.Targets
import AnalysisGate.Proofs.Workspace.Actions
import Mathlib

/-!
Files with fingerprints that are known.

A file with what a collection has printed is read as the fingerprints of the collection, whatever
the names of its files are. A file with a bare map is read as the map exactly if no file of it has
the name of the member in which collections print their fingerprints: a map with such a name is
taken for a collection, and as it is none, it is refused (`CommandLine.loadBaseline_exact`).
-/
namespace AnalysisGate

/-! ## Texts of values -/

/-- The text of a value without doubles is read as the value, in every layout. -/
theorem Json.readValue?_write {s : Json.Layout} (hs : s.Blank) {j : Json} (hj : j.Exact)
    (hheight : j.height ≤ Json.nestingLimit) {rest : List Char}
    (hrest : ∀ c ∈ rest, Json.isSpace c = true) :
    Json.readValue? (Json.write s 0 j ++ rest) = some j := by
  have hreread : j.reread 1 = j := Json.reread_eq_self hj.normal hj.noDouble (by omega)
  rw [Json.readValue?, Json.read?_write hs j hrest, hreread]
  exact hj.normal

/-- An object in which each name comes once, in order, is kept if its members are. -/
theorem Json.exact_object {l : List (String × Json)}
    (hkeys : (l.map Prod.fst).Pairwise fun a b => compare a b = .lt)
    (hmembers : ∀ e ∈ l, e.2.Exact) : (Json.object l).Exact where
  normal := Json.normal_object.2 ⟨List.pairwise_map.1 hkeys, fun e he => (hmembers e he).normal⟩
  noDouble := Json.hasDoubleMembers_eq_false.2 fun e he => (hmembers e he).noDouble

/-! ## Fingerprints as values -/

namespace Fingerprint

/-- A fingerprint is read from its own members as itself. -/
theorem reader_toJson (f : Fingerprint) (m : Medium) : reader m f.toJson = .ok f := by
  cases f <;> rfl

/-- The members of a fingerprint are no fingerprints. -/
theorem not_map (f : Fingerprint) : ∃ e, FingerprintMap.reader .tree f.toJson = .error e := by
  cases f <;> exact ⟨_, rfl⟩

theorem exact_toJson (f : Fingerprint) : f.toJson.Exact := by
  cases f with
  | content hash modified size =>
    have hkeys : ["contentHash", "modifiedAtNanos", "sizeBytes"].Pairwise
        fun a b => compare a b = .lt := by decide
    refine Json.exact_object hkeys ?_
    simp only [List.forall_mem_cons]
    exact ⟨⟨rfl, rfl⟩, ⟨rfl, rfl⟩, ⟨rfl, rfl⟩, nofun⟩
  | missing | unreadable => exact ⟨rfl, rfl⟩

end Fingerprint

namespace FingerprintMap

/-- **The reader takes back the fingerprints of a map**, under arbitrary names. -/
theorem reader_toJson (n : FingerprintMap) (m : Medium) : reader m n.toJson = .ok n := by
  refine Reader.members_eq_ok.2 ⟨n.entries, List.forall₂_map_left_iff.2 ?_, ?_⟩
  · exact List.forall₂_same.2 fun e _ => ⟨rfl, e.2.reader_toJson m⟩
  · exact SortedMap.ofList_entries n

theorem exact_toJson (n : FingerprintMap) : n.toJson.Exact := by
  refine Json.exact_object ?_ ?_
  · rw [List.map_map]
    exact n.keys_ascending
  · intro e he
    obtain ⟨f, -, rfl⟩ := List.mem_map.1 he
    exact f.2.exact_toJson

theorem get?_toJson (n : FingerprintMap) (k : String) :
    n.toJson.get? k = (n.get? k).map Fingerprint.toJson := by
  have hget := Json.get?_object (List.pairwise_map.2 n.ascending) k
    (m := n.entries.map fun e => (e.1, e.2.toJson))
  rw [← SortedMap.get?_mapValues (fun _ => Fingerprint.toJson) n k]
  exact hget

/-- The texts of a map, on one line or with a line for each part. -/
theorem readValue?_texts (n : FingerprintMap) :
    Json.readValue? n.toJson.compactText.toList = some n.toJson ∧
      Json.readValue? n.toJson.prettyText.toList = some n.toJson := by
  have hread {s : Json.Layout} (hs : s.Blank) :
      Json.readValue? (Json.write s 0 n.toJson) = some n.toJson := by
    have h := Json.readValue?_write hs n.exact_toJson (n.height_toJson.trans (by decide))
      (List.forall_mem_nil _)
    rwa [List.append_nil] at h
  rw [Json.toList_compactText, Json.toList_prettyText]
  exact ⟨hread Json.Layout.blank_compact, hread Json.Layout.blank_pretty⟩

end FingerprintMap

namespace Collection

theorem get?_toJson (c : Collection) :
    c.toJson.get? "fingerprints" = some c.fingerprints.toJson := rfl

theorem exact_toJson (c : Collection) : c.toJson.Exact := by
  have hkeys : ["fingerprints", "hashed", "reused", "truncated"].Pairwise
      fun a b => compare a b = .lt := by decide
  refine Json.exact_object hkeys ?_
  simp only [List.forall_mem_cons]
  exact ⟨c.fingerprints.exact_toJson, ⟨rfl, rfl⟩, ⟨rfl, rfl⟩, ⟨rfl, rfl⟩, nofun⟩

theorem height_toJson (c : Collection) : c.toJson.height ≤ 3 := by
  refine Nat.succ_le_succ (Json.heightMembers_le_iff.2 ?_)
  simp only [List.forall_mem_cons]
  exact ⟨c.fingerprints.height_toJson, Nat.zero_le _, Nat.zero_le _, Nat.zero_le _, nofun⟩

/-- What is printed of a collection is read as its document. -/
theorem readValue?_printed (c : Collection) :
    Json.readValue? (c.toJson.prettyText ++ "\n").toList = some c.toJson := by
  have htext : (c.toJson.prettyText ++ "\n").toList =
      Json.write .pretty 0 c.toJson ++ ['\n'] := by
    rw [String.toList_append, Json.toList_prettyText]
    rfl
  rw [htext]
  exact Json.readValue?_write Json.Layout.blank_pretty c.exact_toJson
    (c.height_toJson.trans (by decide)) (by simp [Json.isSpace])

end Collection

namespace CommandLine

/-! ## Baselines -/

/-- A bare map is taken for a collection if one of its files has the name of its fingerprints. -/
theorem baselineOf_map (n : FingerprintMap) :
    ("fingerprints" ∉ n.keys → baselineOf n.toJson = .ok n) ∧
      ("fingerprints" ∈ n.keys → ∃ e, baselineOf n.toJson = .error e) := by
  rw [baselineOf, FingerprintMap.get?_toJson]
  constructor
  · intro hk
    rw [SortedMap.get?_none_of_not_mem hk]
    exact n.reader_toJson .tree
  · intro hk
    obtain ⟨f, hf⟩ := Option.isSome_iff_exists.1 (SortedMap.mem_keys.1 hk)
    rw [hf]
    exact f.not_map

theorem baselineOf_collection (c : Collection) : baselineOf c.toJson = .ok c.fingerprints := by
  rw [baselineOf, Collection.get?_toJson]
  exact c.fingerprints.reader_toJson .tree

variable {w : Workspace} {p : Path} {text : String} {j : Json}

theorem exec_loadBaseline (htext : w.readText p = .ok text)
    (hj : Json.readValue? text.toList = some j) :
    (loadBaseline p).exec w =
      ((baselineOf j).mapError fun e =>
        ⟨"Baseline " ++ p.text ++ " is not a fingerprint map", [e.message .tree]⟩, w) := by
  rw [loadBaseline, FileAction.exec_look, htext]
  simp only [Except.mapError, bind, Except.bind, hj]

/-- What is made of a look at the tree. -/
theorem outcome_of_look {f : Workspace → Collection} {make : Collection → Outcome}
    {outcome : Outcome} {w' : Workspace}
    (h : (FileAction.look (fun w => .ok (f w)) >>= fun c => pure (make c) : Action Outcome).exec w =
      (.ok outcome, w')) : outcome = make (f w) := by
  obtain ⟨c, w₁, hlook, hmake⟩ := FileAction.exec_bind_eq_ok.1 h
  obtain ⟨hc, -⟩ := FileAction.exec_look_eq_ok.1 hlook
  cases hc
  cases hmake
  rfl

/-- The fingerprints that a command knows before it collects: those of its baseline, if it has
one. -/
def Knows (w : Workspace) : Option Path → Option FingerprintMap → Prop
  | none, known => known = none
  | some p, known => ∃ n, (loadBaseline p).exec w = (.ok n, w) ∧ known = some n

/-- What a command collects: with the options of the configuration, or what replaces them, and with
the fingerprints that it knows. -/
def Collects (w : Workspace) (project : Path) (config : CacheConfig) (targets : List Path)
    (overrides : CacheOverrides) (baseline : Option Path) (c : Collection) : Prop :=
  let effective := overrides.apply config
  ∃ known, Knows w baseline known ∧
    c = Collection.collect w project targets
      ⟨effective.extensions, effective.respectIgnore, effective.maxFilesLimit,
        effective.maxBytesLimit, known⟩

/-- What the command prints is the document of what it collects. -/
theorem stdout_of_fingerprint {project : Path} {config : CacheConfig} {targets : List Path}
    {overrides : CacheOverrides} {baseline : Option Path} {w' : Workspace} {outcome : Outcome}
    (h : (fingerprint project config targets overrides baseline).exec w = (.ok outcome, w')) :
    ∃ c, Collects w project config targets overrides baseline c ∧
      outcome.stdout = c.toJson.prettyText ++ "\n" := by
  unfold fingerprint at h
  cases baseline with
  | none =>
    obtain ⟨known, w₁, hknown, h⟩ := FileAction.exec_bind_eq_ok.1 h
    cases hknown
    rw [outcome_of_look h]
    exact ⟨_, ⟨none, rfl, rfl⟩, rfl⟩
  | some p =>
    obtain ⟨n, w₁, hload, h⟩ := FileAction.exec_bind_eq_ok.1 h
    obtain ⟨-, rfl⟩ := FileAction.exec_look_eq_ok.1 hload
    obtain ⟨known, w₂, hknown, h⟩ := FileAction.exec_bind_eq_ok.1 h
    cases hknown
    rw [outcome_of_look h]
    exact ⟨_, ⟨some n, ⟨n, hload, rfl⟩, rfl⟩, rfl⟩

theorem exec_loadBaseline_collection {c : Collection} (htext : w.readText p = .ok text)
    (hj : Json.readValue? text.toList = some c.toJson) :
    (loadBaseline p).exec w = (.ok c.fingerprints, w) := by
  rw [exec_loadBaseline htext hj, baselineOf_collection]
  rfl

/-- **Baselines are read back exactly, unless a bare map has a file named like the member of a
collection.** A file with a text of a map, on one line or on many, is read as the map, and one with
what the command prints as the fingerprints that it has collected under its options, for all names
of files; but a bare map with a file of the name `fingerprints` is refused. -/
theorem loadBaseline_exact (w : Workspace) (p : Path) (text : String)
    (htext : w.readText p = .ok text) :
    (∀ n : FingerprintMap, Json.readValue? text.toList = some n.toJson →
      ("fingerprints" ∉ n.keys → (loadBaseline p).exec w = (.ok n, w)) ∧
      ("fingerprints" ∈ n.keys → ∃ cause, (loadBaseline p).exec w =
        (.error ⟨"Baseline " ++ p.text ++ " is not a fingerprint map", [cause]⟩, w))) ∧
    (∀ n : FingerprintMap, text = n.toJson.compactText ∨ text = n.toJson.prettyText →
      Json.readValue? text.toList = some n.toJson) ∧
    (∀ c : Collection, Json.readValue? text.toList = some c.toJson →
      (loadBaseline p).exec w = (.ok c.fingerprints, w)) ∧
    ∀ project config targets overrides baseline v v' outcome,
      (fingerprint project config targets overrides baseline).exec v = (.ok outcome, v') →
      text = outcome.stdout →
      ∃ c, Collects v project config targets overrides baseline c ∧
        (loadBaseline p).exec w = (.ok c.fingerprints, w) := by
  refine ⟨fun n hj => ⟨fun hk => ?map, fun hk => ?taken⟩, fun n hn => ?texts,
    fun c => exec_loadBaseline_collection htext,
    fun project config targets overrides baseline v v' outcome h hstdout => ?printed⟩
  case map =>
    rw [exec_loadBaseline htext hj, (baselineOf_map n).1 hk]
    rfl
  case taken =>
    obtain ⟨e, he⟩ := (baselineOf_map n).2 hk
    rw [exec_loadBaseline htext hj, he]
    exact ⟨_, rfl⟩
  case texts =>
    rcases hn with rfl | rfl
    · exact n.readValue?_texts.1
    · exact n.readValue?_texts.2
  case printed =>
    obtain ⟨c, hcollects, hprinted⟩ := stdout_of_fingerprint h
    rw [hstdout, hprinted] at htext
    exact ⟨c, hcollects, exec_loadBaseline_collection htext (Collection.readValue?_printed c)⟩

theorem inRoot_base : Workspace.InRoot ⟨"/base.json"⟩ "base.json" :=
  ⟨by decide, by decide, by decide, by decide, by decide, by decide⟩

/-- A file of the root with the text of a map. -/
def mapFile (n : FingerprintMap) : Workspace :=
  ⟨SortedMap.ofList [(["base.json"], .file n.toJson.compactText.toUTF8 0)], [], 0⟩

theorem readText_mapFile (n : FingerprintMap) :
    (mapFile n).readText ⟨"/base.json"⟩ = .ok n.toJson.compactText := by
  have hfile : (mapFile n).entries.get? ["base.json"] =
      some (.file n.toJson.compactText.toUTF8 0) := by
    simp [mapFile, SortedMap.get?_ofList]
  exact Workspace.readText_of_read (inRoot_base.read_file hfile)

/-- A map of a file that is missing is read back. -/
theorem loadBaseline_exact_missing :
    let n : FingerprintMap := SortedMap.ofList [("a.py", .missing)]
    (loadBaseline ⟨"/base.json"⟩).exec (mapFile n) = (.ok n, mapFile n) := by
  intro n
  have hk : "fingerprints" ∉ n.keys := by decide
  obtain ⟨hmap, htexts, -⟩ := loadBaseline_exact _ _ _ (readText_mapFile n)
  exact (hmap n (htexts n (.inl rfl))).1 hk

/-- A target that is missing is collected under its name. -/
theorem collect_missing :
    (Collection.collect ⟨.empty, [], 0⟩ ⟨"/"⟩ [⟨"fingerprints"⟩]
        ⟨[], false, none, none, none⟩).fingerprints =
      SortedMap.ofList [("fingerprints", .missing)] := by
  let w : Workspace := ⟨.empty, [], 0⟩
  have hname : Workspace.InRoot ⟨"/fingerprints"⟩ "fingerprints" :=
    ⟨by decide, by decide, by decide, by decide, by decide, by decide⟩
  have hfree : w.entries.get? ["fingerprints"] = none := rfl
  have hstat : w.stat ⟨"/fingerprints"⟩ = .error .notFound := hname.stat_free hfree
  have hjoin : Path.join ⟨"/"⟩ ⟨"fingerprints"⟩ = ⟨"/fingerprints"⟩ := by decide
  have hkey : Path.key ⟨"/"⟩ ⟨"/fingerprints"⟩ = "fingerprints" := by decide
  have hnamed : ∀ target ∈ [Path.mk "fingerprints"],
      w.isDirectory (Path.join ⟨"/"⟩ target) = false := by
    simp [hjoin, Workspace.isDirectory, hstat]
  apply SortedMap.ext_get?
  intro k
  rw [Collection.get?_collect_unlimited, Collection.files_candidates_of_named hnamed,
    List.map_singleton, hjoin, hkey, SortedMap.get?_ofList, SortedMap.get?_ofList]
  by_cases hk : "fingerprints" = k
  · simp [hk, Fingerprint.ofFile, Fingerprint.probe, hstat, Fingerprint.ofFailure, w]
  · simp [hk]

/-- The fingerprints of a target of the name `fingerprints` are collected, but a bare map of them
is not read back. -/
theorem loadBaseline_misread :
    let n : FingerprintMap := SortedMap.ofList [("fingerprints", .missing)]
    (Collection.collect ⟨.empty, [], 0⟩ ⟨"/"⟩ [⟨"fingerprints"⟩]
        ⟨[], false, none, none, none⟩).fingerprints = n ∧
      (mapFile n).readText ⟨"/base.json"⟩ = .ok n.toJson.compactText ∧
      (loadBaseline ⟨"/base.json"⟩).exec (mapFile n) ≠ (.ok n, mapFile n) := by
  intro n
  refine ⟨collect_missing, readText_mapFile n, ?_⟩
  have hk : "fingerprints" ∈ n.keys := by decide
  obtain ⟨e, he⟩ := (baselineOf_map n).2 hk
  rw [exec_loadBaseline (readText_mapFile n) (FingerprintMap.readValue?_texts n).1, he]
  nofun

end CommandLine

end AnalysisGate
