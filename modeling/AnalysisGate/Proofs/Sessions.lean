import AnalysisGate.Proofs.CacheKeys
import AnalysisGate.Proofs.CanonicalOrder
import AnalysisGate.Proofs.StoreFile
import AnalysisGate.Proofs.Workspace.Reading
import AnalysisGate.Proofs.Workspace.Temporary
import Mathlib

/-!
Sessions with a run cache.

A session records, invalidates, clears, persists and reloads in any order. What it looks up is what
two maps from keys to runs say, one in memory and one on disk: persisting copies the first to the
second and reloading the second to the first (`Session.lookup_of_steps`). The dirty flag only ever
saves a write that would leave the second as it is. A persist can succeed and leave no file at the
path of the store, if a device has taken the bytes; then nothing is on disk
(`Session.lookup_of_steps_device`).
-/
namespace AnalysisGate

namespace RunCache

/-! ## Persisting -/

/-- The tree in which a cache replaces its store: its directory is made, its lock is open and its
temporary file is written. -/
def staged (c : RunCache) (w : Workspace) : Workspace :=
  ((do c.prepare; c.writeTemporary : FileAction StoreError Unit).exec w).2

variable {c c' : RunCache} {w w' : Workspace}

theorem exec_persist (h : c.persist.exec w = (.ok c', w')) :
    c' = { c with dirty := false } ∧ (c.dirty = false ∧ w' = w ∨ c.dirty = true ∧
      ∃ w₁ : Workspace, w₁.write c.temporaryPath (encode c.entries).toUTF8 = .ok (c.staged w) ∧
        (c.staged w).rename c.temporaryPath c.storePath = .ok w') := by
  cases hdirty : c.dirty with
  | false =>
    rw [persist, hdirty] at h
    cases h
    exact ⟨by rw [← hdirty], .inl ⟨rfl, rfl⟩⟩
  | true =>
    rw [persist, hdirty] at h
    simp only [Bool.not_true, Bool.false_eq_true, if_false] at h
    obtain ⟨u₁, w₁, hprepare, h⟩ := FileAction.exec_bind_eq_ok.1 h
    obtain ⟨u₂, w₂, hwrite, h⟩ := FileAction.exec_bind_eq_ok.1 h
    obtain ⟨u₃, w₃, hrename, h⟩ := FileAction.exec_bind_eq_ok.1 h
    cases h
    have hstaged : c.staged w = w₂ := by
      simp only [staged, FileAction.exec_bind, hprepare, hwrite]
    rw [hstaged]
    exact ⟨rfl, .inr ⟨rfl, w₁, FileAction.exec_change_eq_ok.1 hwrite,
      FileAction.exec_change_eq_ok.1 hrename⟩⟩

/-- The temporary file of a store is its sibling. -/
theorem siblings_store (c : RunCache) : ∃ dirs,
    Workspace.Siblings c.temporaryPath c.storePath dirs "run_cache.json.tmp" "run_cache.json" := by
  have hplain : '/' ∉ "run_cache.json".toList := by decide
  obtain ⟨before, hparted⟩ := Path.parted_join c.directory hplain
  have hname : Path.NamesEntry "run_cache.json".toList := ⟨by decide, by decide, by decide⟩
  have hsiblings : Workspace.Siblings c.temporaryPath c.storePath _ _ _ :=
    hparted.siblings hname (by decide) (by decide)
  have hlast : String.ofList ((Path.splitName "run_cache.json".toList).1 ++
      '.' :: "json.tmp".toList) = "run_cache.json.tmp" := by decide
  rw [String.ofList_toList, hlast] at hsiblings
  exact ⟨_, hsiblings⟩

/-- **A file at the path of the store is what a dirty cache has written**, wherever the links of
this path and of the temporary path lead. -/
theorem read_of_persist (h : c.persist.exec w = (.ok c', w')) (hdirty : c.dirty = true)
    (hregular : w'.isRegular c.storePath = true) :
    w'.read c.storePath = .ok (encode c.entries).toUTF8 := by
  obtain ⟨-, ⟨hclean, -⟩ | ⟨-, w₁, hwrite, hrename⟩⟩ := exec_persist h
  · cases hclean.symm.trans hdirty
  obtain ⟨dirs, hsiblings⟩ := siblings_store c
  have hnamed : Workspace.Named "run_cache.json" := ⟨by decide, by decide, by decide⟩
  exact Workspace.read_of_replacement hsiblings hnamed (by decide) hwrite hrename hregular

/-- **A cache that has been persisted is what a reader finds in its store**, but for the doubles, if
it was dirty and the path of the store leads to a file. -/
theorem readStore_rereading (h : c.persist.exec w = (.ok c', w')) (hdirty : c.dirty = true)
    (hfinite : ∀ e ∈ c.entries.entries, e.2.Finite)
    (hheight : (Json.ofMap CacheEntry.toJson c.entries).height ≤ Json.nestingLimit)
    (hregular : w'.isRegular c.storePath = true) :
    readStore w' c.storePath = c.entries.mapValues fun _ e => e.reread := by
  rw [readStore, read_of_persist h hdirty hregular]
  simp only [decode_rereading hfinite hheight, Option.getD_some]

theorem readStore_of_persist (h : c.persist.exec w = (.ok c', w')) (hdirty : c.dirty = true)
    (hstorable : Storable c.entries) (hregular : w'.isRegular c.storePath = true) :
    readStore w' c.storePath = c.entries.mapValues fun _ e => e.kept := by
  rw [readStore, read_of_persist h hdirty hregular]
  simp only [decode_encode hstorable, Option.getD_some]

/-- A store that is no file is read as empty. -/
theorem readStore_of_not_regular {p : Path} (h : w.isRegular p = false) :
    readStore w p = .empty := by
  cases hread : w.read p with
  | error e => rw [readStore, hread]
  | ok bytes =>
    rw [readStore, hread, Workspace.read_of_not_regular h hread]
    simp [decode_empty]

/-- A cache that nests too deep leaves a store that is read as empty. -/
theorem readStore_of_deep (h : c.persist.exec w = (.ok c', w')) (hdirty : c.dirty = true)
    (hfinite : ∀ e ∈ c.entries.entries, e.2.Finite)
    (hdeep : Json.nestingLimit < (Json.ofMap CacheEntry.toJson c.entries).height) :
    readStore w' c.storePath = .empty := by
  cases hregular : w'.isRegular c.storePath with
  | false => exact readStore_of_not_regular hregular
  | true =>
    rw [readStore, read_of_persist h hdirty hregular]
    simp only [decode_eq_none hfinite hdeep, Option.getD_none]

/-- The values of what is read from a store have finite doubles only. -/
theorem finite_of_readStore {p : Path} {t : String} {e : CacheEntry}
    (he : (readStore w p).get? t = some e) : e.Finite := by
  rw [readStore] at he
  split at he
  · next bytes _ =>
    cases hdecode : decode bytes with
    | none =>
      rw [hdecode] at he
      cases he
    | some entries =>
      rw [hdecode, Option.getD_some] at he
      exact finite_of_decode hdecode he
  · cases he

/-! ### In the root -/

section Root

open Workspace

/-- The root has room for the files of a cache: what stands in the places of the lock and of the
store is no directory and no link, and there is no temporary file. -/
structure Room (w : Workspace) : Prop where
  lock : ∀ e, w.entries.get? ["run_cache.lock"] = some e → e.route = .leaf
  temporary : w.entries.get? ["run_cache.json.tmp"] = none
  store : ∀ e, w.entries.get? ["run_cache.json"] = some e → e.route = .leaf

theorem room_empty (clock : Int) : Room ⟨.empty, [], clock⟩ := ⟨nofun, rfl, nofun⟩

theorem inRoot_lock : InRoot (CachePaths.lock ⟨"/"⟩) "run_cache.lock" :=
  ⟨by decide, by decide, by decide, by decide, by decide, by decide⟩

theorem inRoot_store : InRoot (CachePaths.store ⟨"/"⟩) "run_cache.json" :=
  ⟨by decide, by decide, by decide, by decide, by decide, by decide⟩

theorem inRoot_temporary :
    InRoot ((CachePaths.store ⟨"/"⟩).withExtension "json.tmp") "run_cache.json.tmp" :=
  ⟨by decide, by decide, by decide, by decide, by decide, by decide⟩

variable (entries : SortedMap String CacheEntry) (dirty : Bool)

/-- The directory of a cache of the root is there, and its lock is opened. -/
theorem exec_prepare_root
    (hlock : ∀ e, w.entries.get? ["run_cache.lock"] = some e → e.route = .leaf) :
    ∃ w₁, (prepare ⟨⟨"/"⟩, entries, dirty⟩).exec w = (.ok (), w₁) ∧
      (∀ e, w₁.entries.get? ["run_cache.lock"] = some e → e.route = .leaf) ∧
      ∀ x, x ≠ ["run_cache.lock"] → w₁.entries.get? x = w.entries.get? x := by
  suffices hcreate : ∃ w₁, w.create (CachePaths.lock ⟨"/"⟩) = .ok w₁ ∧
      (∀ e, w₁.entries.get? ["run_cache.lock"] = some e → e.route = .leaf) ∧
      ∀ x, x ≠ ["run_cache.lock"] → w₁.entries.get? x = w.entries.get? x by
    obtain ⟨w₁, hcreate, hothers⟩ := hcreate
    exact ⟨w₁, FileAction.exec_bind_eq_ok.2 ⟨(), w,
      FileAction.exec_makeDirectories_eq_ok.2 (makeDirectories_root w),
      FileAction.exec_change_eq_ok.2 hcreate⟩, hothers⟩
  cases he : w.entries.get? ["run_cache.lock"] with
  | some e =>
    have hcreate := inRoot_lock.create_leaf (by decide) (by decide) he (hlock e he)
    exact ⟨w, hcreate, hlock, fun _ _ => rfl⟩
  | none =>
    refine ⟨_, inRoot_lock.create_free (by decide) (by decide) he, fun e he' => ?_, fun x hx => ?_⟩
    · rw [get?_put, if_pos rfl] at he'
      cases he'
      rfl
    · rw [get?_put, if_neg hx]

/-- The lock takes no room of the other files. -/
theorem Room.prepare {w₁ : Workspace} (h : Room w)
    (hlock : ∀ e, w₁.entries.get? ["run_cache.lock"] = some e → e.route = .leaf)
    (hothers : ∀ x, x ≠ ["run_cache.lock"] → w₁.entries.get? x = w.entries.get? x) : Room w₁ where
  lock := hlock
  temporary := (hothers _ (by decide)).trans h.temporary
  store e he := h.store e ((hothers _ (by decide)).symm.trans he)

/-- The temporary file of a cache of the root is written. -/
theorem exec_writeTemporary_root (h : Room w) :
    (writeTemporary ⟨⟨"/"⟩, entries, dirty⟩).exec w =
      (.ok (), w.put ["run_cache.json.tmp"] (.file (encode entries).toUTF8 w.clock)) :=
  FileAction.exec_change_eq_ok.2
    (inRoot_temporary.write_free (by decide) (by decide) h.temporary)

/-- The temporary file of a cache of the root takes the place of the store. -/
theorem exec_replaceStore_root (bytes : ByteArray) (modified : Int) (h : Room w) :
    ∃ w₁, (replaceStore ⟨⟨"/"⟩, entries, dirty⟩).exec
        (w.put ["run_cache.json.tmp"] (.file bytes modified)) = (.ok (), w₁) ∧ Room w₁ ∧
      w₁.entries.get? ["run_cache.json"] = some (.file bytes modified) := by
  generalize hw₁ : w.put ["run_cache.json.tmp"] (.file bytes modified) = w₁
  have hothers (x : Place) (hx : x ≠ ["run_cache.json.tmp"]) :
      w₁.entries.get? x = w.entries.get? x := by
    rw [← hw₁, get?_put, if_neg hx]
  have htemporary : w₁.entries.get? ["run_cache.json.tmp"] = some (.file bytes modified) := by
    rw [← hw₁, get?_put, if_pos rfl]
  have hleaf : w₁.isDirectoryAt ["run_cache.json"] = false := by
    rw [isDirectoryAt, hothers _ (by decide)]
    cases he : w.entries.get? ["run_cache.json"] with
    | none => rfl
    | some e =>
      have hroute := h.store e he
      cases e <;> first | rfl | cases hroute
  have hrename := inRoot_temporary.rename_leaf inRoot_store (by decide) (by decide) (by decide)
    htemporary hleaf
  refine ⟨_, FileAction.exec_change_eq_ok.2 hrename, ⟨fun e he => ?_, ?_, fun e he => ?_⟩, ?_⟩
  · rw [get?_replace, if_neg (by decide), if_neg (by decide), hothers _ (by decide)] at he
    exact h.lock e he
  · rw [get?_replace]
    rfl
  · rw [get?_replace, List.nil_append, if_pos rfl] at he
    cases he
    rfl
  · rw [get?_replace, List.nil_append, if_pos rfl]

/-- Where the root has room, a cache of the root is persisted to a file. -/
theorem exists_persist_of_room (h : Room w) :
    ∃ w', (RunCache.mk ⟨"/"⟩ entries true).persist.exec w = (.ok ⟨⟨"/"⟩, entries, false⟩, w') ∧
      w'.isRegular (CachePaths.store ⟨"/"⟩) = true ∧ Room w' := by
  obtain ⟨w₁, hprepare, hlock, hothers⟩ := exec_prepare_root entries true h.lock
  have hroom := h.prepare hlock hothers
  have hwrite := exec_writeTemporary_root entries true hroom
  generalize (encode entries).toUTF8 = bytes at hwrite
  obtain ⟨w₂, hreplace, hroom', hfile⟩ := exec_replaceStore_root entries true bytes w₁.clock hroom
  have hplace := placeOf_eq_ok.2 (inRoot_store.locate_found hfile (by simp) true)
  refine ⟨w₂, ?_, isRegular_iff.2 ⟨_, bytes, w₁.clock, hplace, by decide, hfile⟩, hroom'⟩
  simp only [persist, Bool.not_true, Bool.false_eq_true, if_false, FileAction.exec_bind, hprepare,
    hwrite, hreplace, FileAction.exec_pure]

/-! A link to a device in the place of the temporary file takes the bytes of a store and keeps
none. -/

theorem exec_writeTemporary_device
    (hlink : w.entries.get? ["run_cache.json.tmp"] = some (.link "/null"))
    (hdevice : w.entries.get? ["null"] = some .device) :
    (writeTemporary ⟨⟨"/"⟩, entries, dirty⟩).exec w = (.ok (), w) := by
  have hwrite (bytes : ByteArray) :
      w.write ((CachePaths.store ⟨"/"⟩).withExtension "json.tmp") bytes = .ok w :=
    write_device (by decide) (by decide) (inRoot_temporary.placeOf_null hlink hdevice) (by simp)
      hdevice
  exact FileAction.exec_change_eq_ok.2 (hwrite _)

/-- The link comes in place of the store, and nothing else changes. -/
theorem exec_replaceStore_device
    (hlink : w.entries.get? ["run_cache.json.tmp"] = some (.link "/null"))
    (hdevice : w.entries.get? ["null"] = some .device)
    (hfree : w.entries.get? ["run_cache.json"] = none) :
    ∃ w₁, (replaceStore ⟨⟨"/"⟩, entries, dirty⟩).exec w = (.ok (), w₁) ∧
      w₁.placeOf (CachePaths.store ⟨"/"⟩) = .ok ["null"] ∧
      w₁.entries.get? ["run_cache.json.tmp"] = none ∧
      ∀ x, x ∉ [["run_cache.json.tmp"], ["run_cache.json"]] →
        w₁.entries.get? x = w.entries.get? x := by
  have hrename := inRoot_temporary.rename_free inRoot_store (by decide) (by decide) (by decide)
    hlink hfree
  generalize hw₁ : w.replace [] _ _ _ = w₁ at hrename
  have hget (x : Place) : w₁.entries.get? x = if x = ["run_cache.json"] then some (.link "/null")
      else if x = ["run_cache.json.tmp"] then none else w.entries.get? x := by
    rw [← hw₁, get?_replace]
    rfl
  have hstore : w₁.entries.get? ["run_cache.json"] = some (.link "/null") := by simp [hget]
  have hnull : w₁.entries.get? ["null"] = some .device := by simpa [hget] using hdevice
  refine ⟨w₁, FileAction.exec_change_eq_ok.2 hrename, inRoot_store.placeOf_null hstore hnull,
    by simp [hget], fun x hx => ?_⟩
  simp only [List.mem_cons, List.not_mem_nil, or_false, not_or] at hx
  rw [hget, if_neg hx.2, if_neg hx.1]

/-- Such a persist of a cache of the root succeeds, and there is no store until the link is moved
to its path, which then leads to no file. -/
theorem exists_persist_device
    (hlock : ∀ e, w.entries.get? ["run_cache.lock"] = some e → e.route = .leaf)
    (hlink : w.entries.get? ["run_cache.json.tmp"] = some (.link "/null"))
    (hdevice : w.entries.get? ["null"] = some .device)
    (hfree : w.entries.get? ["run_cache.json"] = none) :
    ∃ w', (RunCache.mk ⟨"/"⟩ entries true).persist.exec w = (.ok ⟨⟨"/"⟩, entries, false⟩, w') ∧
      (staged ⟨⟨"/"⟩, entries, true⟩ w).entries.get? ["run_cache.json"] = none ∧
      w'.isRegular (CachePaths.store ⟨"/"⟩) = false := by
  obtain ⟨w₁, hprepare, -, hothers⟩ := exec_prepare_root entries true hlock
  rw [← hothers _ (by decide)] at hlink hdevice hfree
  have hwrite := exec_writeTemporary_device entries true hlink hdevice
  obtain ⟨w₂, hreplace, hplace, -, hsame⟩ :=
    exec_replaceStore_device entries true hlink hdevice hfree
  have hstaged : staged ⟨⟨"/"⟩, entries, true⟩ w = w₁ := by
    simp only [staged, FileAction.exec_bind, hprepare, hwrite]
  refine ⟨w₂, ?_, hstaged.symm ▸ hfree, ?_⟩
  · simp only [persist, Bool.not_true, Bool.false_eq_true, if_false, FileAction.exec_bind, hprepare,
      hwrite, hreplace, FileAction.exec_pure]
  · rw [isRegular, stat, hplace]
    simp [Except.map, statAt, hsame, hdevice]

/-- A cache of the root has no store in a tree without an entry of its name. -/
theorem readStore_root (hfree : w.entries.get? ["run_cache.json"] = none) :
    readStore w (CachePaths.store ⟨"/"⟩) = .empty := by
  rw [readStore, Workspace.read, placeOf, inRoot_store.locate_free hfree true]
  rfl

end Root

end RunCache

/-! ## Two maps -/

/-- A run as it is recorded, with the fingerprints of the files that it looked at. -/
structure RecordedRun where
  fingerprints : FingerprintMap
  run : AnalyzerRun

/-- The entry of a recorded run, in which a summary that is null counts as none. -/
def RecordedRun.entry (r : RecordedRun) : CacheEntry := (CacheEntry.ofRun r.fingerprints r.run).kept

/-- What is recorded, in memory and on disk. -/
structure Levels where
  memory : CacheKey → Option RecordedRun
  disk : CacheKey → Option RecordedRun

namespace Levels

def empty : Levels := ⟨fun _ => none, fun _ => none⟩

end Levels

/-- What a session does with its cache. -/
inductive CacheStep
  | record (k : CacheKey) (r : RecordedRun)
  | invalidate (k : CacheKey)
  | clear
  | persist
  | reload

namespace CacheStep

/-- What a step does to the two maps. -/
def apply (l : Levels) : CacheStep → Levels
  | record k r => { l with memory := Function.update l.memory k (some r) }
  | invalidate k => { l with memory := Function.update l.memory k none }
  | clear => { l with memory := fun _ => none }
  | persist => { l with disk := l.memory }
  | reload => { l with memory := l.disk }

/-- The step is about keys of a set, and its values are exact. -/
def Within (keys : Set CacheKey) : CacheStep → Prop
  | record k r => k ∈ keys ∧ (CacheEntry.ofRun r.fingerprints r.run).Exact
  | invalidate k => k ∈ keys
  | clear | persist | reload => True

end CacheStep

def Levels.after (l : Levels) (steps : List CacheStep) : Levels := steps.foldl CacheStep.apply l

/-! ## Sessions -/

/-- A cache in memory and the tree that its store is in. -/
structure Session where
  cache : RunCache
  files : Workspace

namespace Session

/-- A session starts with what it loads. -/
def start (w : Workspace) (directory : Path) : Session := ⟨.load w directory, w⟩

/-- One step of a session; a persist is one that succeeds, with a document that nests no deeper
than a reader goes, and after which the path of the store leads to a file. -/
inductive Does : CacheStep → Session → Session → Prop
  | record (c : RunCache) (w : Workspace) (k : CacheKey) (r : RecordedRun) :
      Does (.record k r) ⟨c, w⟩ ⟨c.record k r.fingerprints r.run, w⟩
  | invalidate (c : RunCache) (w : Workspace) (k : CacheKey) :
      Does (.invalidate k) ⟨c, w⟩ ⟨(c.invalidate k).1, w⟩
  | clear (c : RunCache) (w : Workspace) : Does .clear ⟨c, w⟩ ⟨c.clear, w⟩
  | persist {c c' : RunCache} {w w' : Workspace} (hdone : c.persist.exec w = (.ok c', w'))
      (hheight : c.dirty = true →
        (Json.ofMap CacheEntry.toJson c.entries).height ≤ Json.nestingLimit)
      (hregular : c.dirty = true → w'.isRegular c.storePath = true) :
      Does .persist ⟨c, w⟩ ⟨c', w'⟩
  | reload (c : RunCache) (w : Workspace) : Does .reload ⟨c, w⟩ ⟨.load w c.directory, w⟩

/-- Steps one after the other. -/
inductive DoesAll : List CacheStep → Session → Session → Prop
  | done (s : Session) : DoesAll [] s s
  | next {step : CacheStep} {rest : List CacheStep} {s s' s'' : Session} (h : Does step s s')
      (hrest : DoesAll rest s' s'') : DoesAll (step :: rest) s s''

end Session

/-! ## What entries stand for -/

/-- Entries hold the runs of a level under its keys; a summary that is null counts as none. -/
def Holds (keys : Set CacheKey) (entries : SortedMap String CacheEntry)
    (level : CacheKey → Option RecordedRun) : Prop :=
  ∀ k ∈ keys, (entries.get? k.text).map CacheEntry.kept = (level k).map RecordedRun.entry

/-- The values of all entries are kept by text. -/
def AllExact (entries : SortedMap String CacheEntry) : Prop :=
  ∀ t e, entries.get? t = some e → e.Exact

variable {keys : Set CacheKey} {entries : SortedMap String CacheEntry}
  {level level' : CacheKey → Option RecordedRun} {k : CacheKey}

namespace Holds

theorem congr (h : Holds keys entries level) (hsame : ∀ k ∈ keys, level' k = level k) :
    Holds keys entries level' := fun k hk => by rw [h k hk, hsame k hk]

theorem contains (h : Holds keys entries level) (hk : k ∈ keys) :
    entries.contains k.text = (level k).isSome := by
  have hmap := congrArg Option.isSome (h k hk)
  rwa [Option.isSome_map, Option.isSome_map] at hmap

/-- Keys have one text only if they are one key. -/
theorem insert (hkeys : keys.InjOn CacheKey.text) (h : Holds keys entries level) (hk : k ∈ keys)
    (r : RecordedRun) :
    Holds keys (entries.insert k.text (.ofRun r.fingerprints r.run))
      (Function.update level k (some r)) := by
  intro k' hk'
  rw [SortedMap.get?_insert]
  by_cases heq : k' = k
  · subst heq
    simp [RecordedRun.entry]
  · have htext : k'.text ≠ k.text := fun htext => heq (hkeys hk' hk htext)
    rw [if_neg htext, Function.update_of_ne heq]
    exact h k' hk'

theorem erase (hkeys : keys.InjOn CacheKey.text) (h : Holds keys entries level) (hk : k ∈ keys) :
    Holds keys (entries.erase k.text) (Function.update level k none) := by
  intro k' hk'
  rw [SortedMap.get?_erase]
  by_cases heq : k' = k
  · subst heq
    simp
  · have htext : k'.text ≠ k.text := fun htext => heq (hkeys hk' hk htext)
    rw [if_neg htext, Function.update_of_ne heq]
    exact h k' hk'

theorem kept (h : Holds keys entries level) :
    Holds keys (entries.mapValues fun _ e => e.kept) level := by
  intro k hk
  rw [SortedMap.get?_mapValues, Option.map_map, ← h k hk]
  congr 1
  funext e
  exact e.kept_kept

end Holds

namespace AllExact

theorem empty : AllExact .empty := nofun

theorem insert (h : AllExact entries) {e : CacheEntry} (he : e.Exact) (t : String) :
    AllExact (entries.insert t e) := by
  intro t' e' he'
  rw [SortedMap.get?_insert] at he'
  split at he'
  · cases he'
    exact he
  · exact h t' e' he'

theorem erase (h : AllExact entries) (t : String) : AllExact (entries.erase t) := by
  intro t' e' he'
  rw [SortedMap.get?_erase] at he'
  split at he'
  · cases he'
  · exact h t' e' he'

theorem kept (h : AllExact entries) : AllExact (entries.mapValues fun _ e => e.kept) := by
  intro t e he
  rw [SortedMap.get?_mapValues] at he
  obtain ⟨e', he', rfl⟩ := Option.map_eq_some_iff.1 he
  exact (h t e' he').kept

end AllExact

/-! ### Plain runs -/

/-- A run of which nothing is to be told. -/
def RecordedRun.plain : RecordedRun := ⟨.empty, ⟨["lint"], 0, 1, [], .empty, none⟩⟩

/-- The entry of a plain run. -/
def CacheEntry.plain : CacheEntry := .ofRun RecordedRun.plain.fingerprints RecordedRun.plain.run

theorem RecordedRun.exact_plain : (CacheEntry.ofRun plain.fingerprints plain.run).Exact :=
  CacheEntry.exact_of_plain rfl rfl

/-- All entries are those of plain runs. -/
def AllPlain (entries : SortedMap String CacheEntry) : Prop :=
  ∀ t e, entries.get? t = some e → e = CacheEntry.plain

namespace AllPlain

theorem empty : AllPlain .empty := nofun

theorem insert (h : AllPlain entries) (t : String) : AllPlain (entries.insert t .plain) := by
  intro t' e he
  rw [SortedMap.get?_insert] at he
  split at he
  · exact (Option.some.inj he).symm
  · exact h t' e he

theorem exact (h : AllPlain entries) : AllExact entries :=
  fun t e he => h t e he ▸ RecordedRun.exact_plain

/-- Plain entries do not nest too deep for a reader. -/
theorem height (h : AllPlain entries) :
    (Json.ofMap CacheEntry.toJson entries).height ≤ Json.nestingLimit := by
  have hentry : CacheEntry.plain.toJson.height ≤ Json.nestingLimit - 1 := by decide +kernel
  refine Nat.succ_le_of_lt (Nat.lt_of_le_pred (by decide) (Json.heightMembers_le_iff.2 ?_))
  intro m hm
  obtain ⟨e, he, rfl⟩ := List.mem_map.1 hm
  rw [h e.1 e.2 (SortedMap.get?_eq_some_iff.2 he)]
  exact hentry

theorem storable (h : AllPlain entries) : RunCache.Storable entries :=
  ⟨fun e he => h.exact e.1 e.2 (SortedMap.get?_eq_some_iff.2 he), h.height⟩

end AllPlain

/-! ### Look-ups -/

namespace RunCache

variable {c : RunCache} {w : Workspace}

/-- A key is looked up among entries that hold the runs of a level. -/
theorem lookup_eq (h : Holds keys c.entries level) (hk : k ∈ keys) (current : FingerprintMap) :
    (c.lookup k current).map CacheEntry.kept =
      ((level k).filter fun r => r.fingerprints = current).map RecordedRun.entry := by
  have hentry := h k hk
  rw [lookup]
  cases hlevel : level k with
  | none =>
    rw [hlevel, Option.map_none, Option.map_eq_none_iff] at hentry
    simp [hentry]
  | some r =>
    rw [hlevel, Option.map_some, Option.map_eq_some_iff] at hentry
    obtain ⟨e, he, hkept⟩ := hentry
    have hfingerprints : e.fingerprints = r.fingerprints := congrArg CacheEntry.fingerprints hkept
    by_cases hcurrent : r.fingerprints = current <;>
      simp [he, hfingerprints, hcurrent, hkept, Option.filter]

/-- Who loads a store that is no file finds nothing. -/
theorem lookup_load_of_empty {directory : Path}
    (h : readStore w (CachePaths.store directory) = .empty) (k : CacheKey)
    (current : FingerprintMap) : (load w directory).lookup k current = none := by
  rw [lookup, load, h]
  rfl

theorem lookup_load_of_not_regular {directory : Path}
    (h : w.isRegular (CachePaths.store directory) = false) (k : CacheKey)
    (current : FingerprintMap) : (load w directory).lookup k current = none :=
  lookup_load_of_empty (readStore_of_not_regular h) k current

theorem invalidate_eq (h : Holds keys c.entries level) (hk : k ∈ keys) :
    (c.invalidate k).2 = (level k).isSome := by
  rw [← h.contains hk, invalidate]
  cases c.entries.contains k.text <;> rfl

end RunCache

namespace Session

/-- A session follows two maps: its entries are the runs in memory, what is read from its store are
those on disk, and while it is clean both are the same. -/
structure Tracks (keys : Set CacheKey) (s : Session) (l : Levels) : Prop where
  memory : Holds keys s.cache.entries l.memory
  disk : Holds keys (RunCache.readStore s.files s.cache.storePath) l.disk
  clean : s.cache.dirty = false →
    Holds keys (RunCache.readStore s.files s.cache.storePath) l.memory
  exact : AllExact s.cache.entries
  stored : AllExact (RunCache.readStore s.files s.cache.storePath)

variable {s s' : Session} {l : Levels} {step : CacheStep}

/-- A step of a session does to its cache and its store what it does to the two maps. -/
theorem Tracks.does (hkeys : keys.InjOn CacheKey.text) (h : Tracks keys s l)
    (hwithin : step.Within keys) (hstep : Does step s s') : Tracks keys s' (step.apply l) := by
  cases hstep with
  | record c w k r =>
    obtain ⟨hk, hexact⟩ := hwithin
    exact ⟨h.memory.insert hkeys hk r, h.disk, nofun,
      h.exact.insert hexact _, h.stored⟩
  | invalidate c w k =>
    have hk : k ∈ keys := hwithin
    have hcontains : c.entries.contains k.text = (l.memory k).isSome := h.memory.contains hk
    rw [RunCache.invalidate]
    split
    · exact ⟨h.memory.erase hkeys hk, h.disk, nofun, h.exact.erase _,
        h.stored⟩
    · next habsent =>
      -- nothing is invalidated: the level has nothing for the key either
      have hsame : Function.update l.memory k none = l.memory := by
        rw [Function.update_eq_self_iff, eq_comm, ← Option.not_isSome_iff_eq_none, ← hcontains]
        exact habsent
      rw [CacheStep.apply, hsame]
      exact ⟨h.memory, h.disk, h.clean, h.exact, h.stored⟩
  | clear c w =>
    rw [RunCache.clear]
    split
    · next hempty =>
      have hnone (k : CacheKey) (hk : k ∈ keys) : l.memory k = none := by
        have hcontains : c.entries.contains k.text = (l.memory k).isSome := h.memory.contains hk
        rw [SortedMap.contains, SortedMap.get?_of_isEmpty hempty] at hcontains
        exact Option.not_isSome_iff_eq_none.1 (by simp [← hcontains])
      exact ⟨h.memory.congr fun k hk => (hnone k hk).symm, h.disk,
        fun hclean => (h.clean hclean).congr fun k hk => (hnone k hk).symm, h.exact, h.stored⟩
    · exact ⟨fun _ _ => rfl, h.disk, nofun,
        nofun, h.stored⟩
  | @persist c c' w w' hdone hheight hregular =>
    obtain ⟨rfl, ⟨hdirty, rfl⟩ | ⟨hdirty, -⟩⟩ := RunCache.exec_persist hdone
    · have hclean := h.clean hdirty
      exact ⟨h.memory, hclean, fun _ => hclean, h.exact, h.stored⟩
    · have hstore := RunCache.readStore_of_persist hdone hdirty
        ⟨fun e he => h.exact e.1 e.2 (SortedMap.get?_eq_some_iff.2 he), hheight hdirty⟩
        (hregular hdirty)
      have hdisk : Holds keys (RunCache.readStore w' c.storePath) l.memory :=
        hstore ▸ h.memory.kept
      have hstored : AllExact (RunCache.readStore w' c.storePath) := hstore ▸ h.exact.kept
      exact ⟨h.memory, hdisk, fun _ => hdisk, h.exact, hstored⟩
  | reload c w => exact ⟨h.disk, h.disk, fun _ => h.disk, h.stored, h.stored⟩

theorem DoesAll.tracks {steps : List CacheStep} (hkeys : keys.InjOn CacheKey.text)
    (hsteps : DoesAll steps s s') (hwithin : ∀ step ∈ steps, step.Within keys)
    (h : Tracks keys s l) : Tracks keys s' (l.after steps) := by
  induction hsteps generalizing l with
  | done s => exact h
  | next hstep _ ih =>
    rw [List.forall_mem_cons] at hwithin
    exact ih hwithin.2 (h.does hkeys hwithin.1 hstep)

theorem tracks_start {w : Workspace} {directory : Path}
    (h : RunCache.readStore w (CachePaths.store directory) = .empty) :
    Tracks keys (start w directory) .empty := by
  have hstored : RunCache.readStore w (start w directory).cache.storePath = .empty := h
  have hheld : (start w directory).cache.entries = .empty := h
  have hempty : Holds keys .empty fun _ => none := fun _ _ => rfl
  have hexact : AllExact .empty := .empty
  exact ⟨hheld ▸ hempty, hstored ▸ hempty, fun _ => hstored ▸ hempty, hheld ▸ hexact,
    hstored ▸ hexact⟩

/-- **A session with a run cache is one with two maps**, if whatever is written is in a file then.
After any steps, what is looked up under a key is the run that was recorded last in the map in
memory, if it was recorded with the very fingerprints, and its diagnostics are sorted; and a key is
invalidated if the map has it. A persist after which there is no file at the path of the store
leaves nothing to look up to who loads it. -/
theorem lookup_of_steps (hkeys : keys.InjOn fun k => Sha256.hex k.canonicalText) {w : Workspace}
    {directory : Path} (hempty : RunCache.readStore w (CachePaths.store directory) = .empty)
    {steps : List CacheStep} (hwithin : ∀ step ∈ steps, step.Within keys)
    (hsteps : DoesAll steps (start w directory) s) (hk : k ∈ keys) :
    (∀ current, (s.cache.lookup k current).map CacheEntry.kept =
      (((Levels.empty.after steps).memory k).filter fun r => r.fingerprints = current).map
        RecordedRun.entry) ∧
    (∀ current e, s.cache.lookup k current = some e →
      e.diagnostics.Pairwise fun a b => (Diagnostic.canonical a b).isLE = true) ∧
    (s.cache.invalidate k).2 = ((Levels.empty.after steps).memory k).isSome ∧
    ∀ c w', s.cache.persist.exec s.files = (.ok c, w') →
      w'.isRegular s.cache.storePath = false →
        ∀ current, (RunCache.load w' s.cache.directory).lookup k current = none := by
  have htexts : keys.InjOn CacheKey.text := fun k hk k' hk' htext =>
    hkeys hk hk' (CacheKey.hex_of_text htext)
  have htracks := hsteps.tracks htexts hwithin (tracks_start hempty)
  have hlookup := RunCache.lookup_eq htracks.memory hk
  refine ⟨hlookup, fun current e he => ?_, RunCache.invalidate_eq htracks.memory hk,
    fun c w' _ hlost current => RunCache.lookup_load_of_not_regular hlost k current⟩
  have hentry := hlookup current
  rw [he, Option.map_some, eq_comm, Option.map_eq_some_iff] at hentry
  obtain ⟨r, -, hr⟩ := hentry
  have hdiagnostics : Diagnostic.sort r.run.diagnostics = e.diagnostics :=
    congrArg CacheEntry.diagnostics hr
  exact hdiagnostics ▸ Diagnostic.pairwise_sort r.run.diagnostics

open Workspace in
/-- A run that is recorded, persisted and loaded again is found under the fingerprints that it was
recorded with. -/
theorem lookup_of_steps_reloaded :
    let k : CacheKey := .ofPaths "lint" "strict" ["a.py"]
    let r : RecordedRun := ⟨SortedMap.ofList [("a.py", .missing)],
      ⟨["lint", "a.py"], 1, 20, [⟨"a.py", 2, 1, "error", none, "unused"⟩], .empty, some .null⟩⟩
    let steps : List CacheStep := [.record k r, .persist, .reload]
    ∃ s, DoesAll steps (start ⟨.empty, [], 0⟩ ⟨"/"⟩) s ∧
      (s.cache.lookup k r.fingerprints).map CacheEntry.kept = some r.entry ∧
      (s.cache.invalidate k).2 = true := by
  intro k r steps
  let w : Workspace := ⟨.empty, [], 0⟩
  let c : RunCache := (RunCache.load w ⟨"/"⟩).record k r.fingerprints r.run
  obtain ⟨w', hdone, hregular, -⟩ :=
    RunCache.exists_persist_of_room c.entries (RunCache.room_empty 0)
  have hempty : RunCache.readStore w (CachePaths.store ⟨"/"⟩) = .empty :=
    RunCache.readStore_root rfl
  have hheight : (Json.ofMap CacheEntry.toJson c.entries).height ≤ Json.nestingLimit := by
    have hentries : c.entries = (RunCache.readStore w (CachePaths.store ⟨"/"⟩)).insert k.text
        (CacheEntry.ofRun r.fingerprints r.run) := rfl
    rw [hentries, hempty]
    change max (CacheEntry.ofRun r.fingerprints r.run).toJson.height 0 + 1 ≤ _
    decide +kernel
  have hsteps : DoesAll steps (start w ⟨"/"⟩) ⟨.load w' ⟨"/"⟩, w'⟩ :=
    .next (.record _ _ k r) (.next (.persist hdone (fun _ => hheight) fun _ => hregular)
      (.next (.reload _ _) (.done _)))
  have hwithin : ∀ step ∈ steps, step.Within {k} := by
    have hexact : (CacheEntry.ofRun r.fingerprints r.run).Exact := by
      constructor
      · intro o ho
        exact absurd ho List.not_mem_nil
      · intro j hj
        exact Option.some.inj hj ▸ ⟨rfl, rfl⟩
    simp [steps, CacheStep.Within, hexact]
  obtain ⟨hlookup, -, hinvalidate, -⟩ := lookup_of_steps (by simp) hempty hwithin hsteps
    (Set.mem_singleton k)
  have hmemory : (Levels.empty.after steps).memory k = some r := by
    simp [steps, Levels.after, CacheStep.apply]
  refine ⟨_, hsteps, (hlookup r.fingerprints).trans ?_, hinvalidate.trans ?_⟩
  · simp [hmemory, Option.filter]
  · rw [hmemory]
    rfl

open Workspace in
/-- A link to a device in the place of the temporary file: the run is recorded and the persist
succeeds, with paths that lead to different entries, but a cache that is loaded then does not find
the run. -/
theorem lookup_of_steps_device :
    let k : CacheKey := .ofPaths "lint" "strict" ["a.py"]
    let w : Workspace :=
      ⟨SortedMap.ofList [(["run_cache.json.tmp"], .link "/null"), (["null"], .device)], [], 0⟩
    let c := (RunCache.load w ⟨"/"⟩).record k RecordedRun.plain.fingerprints RecordedRun.plain.run
    RunCache.readStore w (CachePaths.store ⟨"/"⟩) = .empty ∧ RunCache.Storable c.entries ∧
      (∀ v ∈ [w, c.staged w], ¬ v.Aliases c.temporaryPath c.storePath ∧
        ¬ v.Aliases (CachePaths.lock ⟨"/"⟩) c.storePath) ∧
      ∃ w', c.persist.exec w = (.ok { c with dirty := false }, w') ∧
        (Levels.empty.after [.record k .plain, .persist, .reload]).memory k = some .plain ∧
        ∀ current, (RunCache.load w' ⟨"/"⟩).lookup k current = none := by
  intro k w c
  have hlink : w.entries.get? ["run_cache.json.tmp"] = some (.link "/null") := by
    simp [w, SortedMap.get?_ofList]
  have hdevice : w.entries.get? ["null"] = some .device := by simp [w, SortedMap.get?_ofList]
  have hfree : w.entries.get? ["run_cache.json"] = none := by simp [w, SortedMap.get?_ofList]
  have hlock : w.entries.get? ["run_cache.lock"] = none := by simp [w, SortedMap.get?_ofList]
  have hempty : RunCache.readStore w (CachePaths.store ⟨"/"⟩) = .empty :=
    RunCache.readStore_root hfree
  have hentries : c.entries = SortedMap.empty.insert k.text CacheEntry.plain :=
    congrArg (SortedMap.insert · k.text CacheEntry.plain) hempty
  have hplain : AllPlain c.entries := hentries ▸ AllPlain.empty.insert k.text
  obtain ⟨w', hdone, hstaged, hlost⟩ :=
    RunCache.exists_persist_device c.entries (by simp [hlock]) hlink hdevice hfree
  have hapart {v : Workspace} (hv : v.entries.get? ["run_cache.json"] = none) (p : Path) :
      ¬ v.Aliases p c.storePath := by
    rintro ⟨x, -, hx⟩
    obtain ⟨-, n, -, hway⟩ := locate_eq_ok.1 (placeOf_eq_ok.1 hx)
    exact RunCache.inRoot_store.not_found hv hway
  refine ⟨hempty, hplain.storable, ?_, w', hdone, ?_,
    RunCache.lookup_load_of_not_regular hlost k⟩
  · have hboth (v : Workspace) (hv : v.entries.get? ["run_cache.json"] = none) :
        ¬ v.Aliases c.temporaryPath c.storePath ∧
          ¬ v.Aliases (CachePaths.lock ⟨"/"⟩) c.storePath := ⟨hapart hv _, hapart hv _⟩
    exact List.forall_mem_cons.2 ⟨hboth w hfree, List.forall_mem_singleton.2 (hboth _ hstaged)⟩
  · simp [Levels.after, CacheStep.apply]

end Session

end AnalysisGate
