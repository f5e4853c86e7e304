import AnalysisGate.Proofs.Overwriting
import AnalysisGate.Proofs.Workspace.Standing
import Mathlib

/-!
Caches that persist at the same time.

A persist is taken apart into turns: the directory is made and the lock file opened, the lock is
taken, the temporary file is written, and it replaces the store. Between two turns of one cache the
others take theirs: they record, load, or are in a persist of their own, of which the lock lets one
at a time go on. A persist can fail after any turn and leave a part of a temporary file behind.

However the turns are interleaved, whatever is found was recorded under its key, as it is found, and
the store is not there, or it is the whole of one cache at the moment of the last replacement
(`Scene.safe_of_reaches`). A temporary path that leads to no file is an exception, and the only one
(`Scene.safe_of_reaches_device`). There is to be no store to begin with, nor one that comes to light
when the directory of the caches is made (`Scene.safe_of_reaches_revealed`). A persist that nobody
disturbs is four such turns (`Scene.reaches_persist`).
-/
namespace AnalysisGate

/-- The file that a new store is written to before it replaces the old one. -/
def CachePaths.temporary (directory : Path) : Path :=
  (CachePaths.store directory).withExtension "json.tmp"

/-! ## Turns -/

/-- How far a cache is in a persist: its lock file is open, it has the lock, or its temporary file
is written too. -/
inductive Stage
  | idle
  | waiting
  | locked
  | written

/-- A cache has the lock from when it takes it to the end of its persist. -/
def Stage.HasLock : Stage → Prop
  | .idle | .waiting => False
  | .locked | .written => True

/-- What a cache does in its turn: a step other than a persist, or a part of a persist. A part of
the temporary file can be written first, and what was begun can fail. -/
inductive Turn
  | act (step : CacheStep)
  | prepare
  | lock
  | tear (bytes : ByteArray)
  | write
  | replace
  | fail

/-- What is recorded in a turn is exact. -/
def Turn.Records : Turn → Prop
  | .act (.record _ r) => (CacheEntry.ofRun r.fingerprints r.run).Exact
  | .act (.invalidate _) | .act .clear | .act .persist | .act .reload => True
  | .prepare | .lock | .tear _ | .write | .replace | .fail => True

/-- Caches of one directory, how far each of them is in a persist, and the tree of their store. -/
structure Scene (ι : Type) where
  caches : ι → RunCache
  stages : ι → Stage
  files : Workspace

/-- The paths next to the store lead elsewhere. -/
structure Clear (directory : Path) (w : Workspace) : Prop where
  temporary : ¬ w.Aliases (CachePaths.temporary directory) (CachePaths.store directory)
  lock : ¬ w.Aliases (CachePaths.lock directory) (CachePaths.store directory)

/-- There is no store in a directory, nor does one come to light however often the directory, or as
much of it as can be, is made. -/
def Storeless (directory : Path) (w : Workspace) : Prop :=
  ∀ n, ((Workspace.making · directory)^[n] w).Missing (CachePaths.store directory)

theorem Storeless.missing {directory : Path} {w : Workspace} (h : Storeless directory w) :
    w.Missing (CachePaths.store directory) := h 0

namespace Scene

variable {ι : Type}

/-- Every cache starts with what it loads. -/
def start (ι : Type) (w : Workspace) (directory : Path) : Scene ι :=
  ⟨fun _ => .load w directory, fun _ => .idle, w⟩

/-- One of the caches with the tree. -/
def session (s : Scene ι) (i : ι) : Session := ⟨s.caches i, s.files⟩

variable [DecidableEq ι]

/-- The scene after a turn of one cache. -/
def after (s : Scene ι) (i : ι) (c : RunCache) (stage : Stage) (w : Workspace) : Scene ι :=
  ⟨Function.update s.caches i c, Function.update s.stages i stage, w⟩

/-- A cache takes a turn. A persist begins only if the cache is dirty, and the cache is clean only
when the store is replaced. The document of a cache nests no deeper than a reader goes. -/
inductive Takes (s : Scene ι) (i : ι) : Turn → Scene ι → Prop
  | act (step : CacheStep) (hstage : s.stages i = .idle) (hstep : step ≠ .persist) :
      Takes s i (.act step) (s.after i ((s.session i).perform step).cache .idle s.files)
  | prepare {u : Unit} {w : Workspace} (hstage : s.stages i = .idle)
      (hdirty : (s.caches i).dirty = true) (h : (s.caches i).prepare.exec s.files = (.ok u, w)) :
      Takes s i .prepare (s.after i (s.caches i) .waiting w)
  | refuse {e : StoreError} {w : Workspace} (hstage : s.stages i = .idle)
      (hdirty : (s.caches i).dirty = true) (h : (s.caches i).prepare.exec s.files = (.error e, w)) :
      Takes s i .prepare (s.after i (s.caches i) .idle w)
  | lock (hstage : s.stages i = .waiting) (hfree : ∀ j, ¬ (s.stages j).HasLock) :
      Takes s i .lock (s.after i (s.caches i) .locked s.files)
  | tear {bytes : ByteArray} {w : Workspace} (hstage : s.stages i = .locked)
      (h : s.files.write (s.caches i).temporaryPath bytes = .ok w) :
      Takes s i (.tear bytes) (s.after i (s.caches i) .locked w)
  | write {u : Unit} {w : Workspace} (hstage : s.stages i = .locked)
      (hheight : (Json.ofMap CacheEntry.toJson (s.caches i).entries).height ≤ Json.nestingLimit)
      (h : (s.caches i).writeTemporary.exec s.files = (.ok u, w)) :
      Takes s i .write (s.after i (s.caches i) .written w)
  | replace {u : Unit} {w : Workspace} (hstage : s.stages i = .written)
      (h : (s.caches i).replaceStore.exec s.files = (.ok u, w)) :
      Takes s i .replace (s.after i { s.caches i with dirty := false } .idle w)
  | fail (hstage : s.stages i ≠ .idle) :
      Takes s i .fail (s.after i (s.caches i) .idle s.files)

/-- A scene is reached from the start by turns, along which what is recorded is exact and the paths
next to the store lead elsewhere. -/
inductive Reaches (w : Workspace) (directory : Path) : List (ι × Turn) → Scene ι → Prop
  | start : Reaches w directory [] (start ι w directory)
  | next {turns : List (ι × Turn)} {s s' : Scene ι} {i : ι} {turn : Turn}
      (h : Reaches w directory turns s) (hturn : s.Takes i turn s') (hrecords : turn.Records)
      (hclear : Clear directory s'.files) : Reaches w directory (turns ++ [(i, turn)]) s'

/-- The last replacement of the store among some turns: by which cache, and in which scene. -/
def Replaced (w : Workspace) (directory : Path) (turns : List (ι × Turn)) (i : ι) (u : Scene ι) :
    Prop :=
  ∃ earlier later, turns = earlier ++ (i, .replace) :: later ∧ Reaches w directory earlier u ∧
    ∀ x ∈ later, x.2 ≠ .replace

/-- An entry under a text is one that was recorded under a key of that text. -/
def Recorded (turns : List (ι × Turn)) (t : String) (e : CacheEntry) : Prop :=
  ∃ i k r, (i, .act (.record k r)) ∈ turns ∧ k.text = t ∧ e.kept = r.entry

end Scene

/-! ## What a turn leaves in the tree -/

namespace RunCache

variable {c : RunCache} {w w' w₀ : Workspace} {p : Path} {directory : Path}

theorem readStore_stands (h : w.Stands w' p) : readStore w' p = readStore w p := by
  cases hread : w.read p with
  | ok bytes => rw [readStore, readStore, h.read_eq_ok.2 hread, hread]
  | error e =>
    rw [readStore, readStore, hread]
    cases hread' : w'.read p with
    | error e' => rfl
    | ok bytes => cases hread.symm.trans (h.read_eq_ok.1 hread')

/-- What is left of a store when a cache prepares to persist: the store is where it was, whatever
comes of it, and no file is lost; and if the directory has been made, it is there. -/
theorem prepare_cases {r : Except StoreError Unit} (h : c.prepare.exec w = (r, w'))
    (hmade : w.Made c.directory ∨
      w.Missing c.storePath ∧ (w.making c.directory).Missing c.storePath)
    (hreplaceable : w.Replaceable c.storePath) (hclear : Clear c.directory w') :
    w.Stands w' c.storePath ∧ w'.Replaceable c.storePath ∧ w.Grows w' ∧
      (w'.Made c.directory ∨ w' = w.making c.directory ∧ ∃ e, r = .error e) := by
  have hstands : w.Stands (w.making c.directory) c.storePath ∧
      (w.making c.directory).Replaceable c.storePath := by
    rcases hmade with hmade | ⟨hmissing, hmissing'⟩
    · rw [Workspace.making_of_ok hmade.makeDirectories]
      exact ⟨.refl w _, hreplaceable⟩
    · exact ⟨hmissing.stands hmissing', hmissing'.replaceable⟩
  have hgrows := Workspace.making_grows w c.directory
  rw [prepare, FileAction.exec_bind, FileAction.exec_makeDirectories] at h
  cases hmake : w.makeAll c.directory with
  | error x =>
    rw [hmake] at h
    cases h
    have hleft : x.2 = w.making c.directory := by rw [Workspace.making, hmake, Workspace.left]
    exact ⟨hleft ▸ hstands.1, hleft ▸ hstands.2, hleft ▸ hgrows, .inr ⟨hleft, _, rfl⟩⟩
  | ok w₁ =>
    have hmake' := Workspace.makeDirectories_eq_ok.2 hmake
    rw [Workspace.making_of_ok hmake'] at hstands hgrows
    have hmade₁ : w₁.Made c.directory := Workspace.made_of_makeDirectories hmake'
    simp only [hmake, openLock, FileAction.exec_change] at h
    cases hcreate : w₁.create (CachePaths.lock c.directory) with
    | error e =>
      rw [hcreate] at h
      cases h
      exact ⟨hstands.1, hstands.2, hgrows, .inl hmade₁⟩
    | ok w₂ =>
      rw [hcreate] at h
      cases h
      obtain ⟨hputs, hgrows'⟩ := Workspace.create_cases hcreate
      exact ⟨hstands.1.trans (hputs.stands hclear.lock), hputs.replaceable hstands.2,
        hgrows.trans hgrows', .inl (hputs.extended.made hmade₁)⟩

/-- When the temporary file replaces the store, the store is a file exactly if the temporary path
led to one, and it then has its bytes. No directory is lost. -/
theorem replaceStore_cases {u : Unit} (h : c.replaceStore.exec w = (.ok u, w'))
    (hbears : w.Bears c.temporaryPath (encode c.entries).toUTF8)
    (hreplaceable : w.Replaceable c.storePath) (hclear : Clear c.directory w)
    (hmade : w.Made directory) :
    w'.Replaceable c.storePath ∧ w'.Made directory ∧
      w'.isRegular c.storePath = w.isRegular c.temporaryPath ∧
      (w.isRegular c.temporaryPath = true →
        w'.read c.storePath = .ok (encode c.entries).toUTF8) := by
  have hrename : w.rename c.temporaryPath c.storePath = .ok w' :=
    FileAction.exec_change_eq_ok.1 h
  obtain ⟨dirs, hsiblings⟩ := siblings_store c
  have hnamed : Workspace.Named "run_cache.json" := ⟨by decide, by decide, by decide⟩
  obtain ⟨hreplaceable', hregular, hread⟩ := Workspace.rename_cases hsiblings hnamed (by decide)
    hbears hclear.temporary hreplaceable hrename
  obtain ⟨x, e, hx, he, hleaf, -⟩ := hbears
  exact ⟨hreplaceable', hmade.rename hsiblings hnamed (by decide) hx hleaf hreplaceable hrename,
    hregular, hread⟩

end RunCache

/-! ## The invariant -/

namespace Scene

variable {ι : Type} {w₀ w w' : Workspace} {directory : Path} {turns : List (ι × Turn)}
  {s s' u : Scene ι} {i j : ι} {turn : Turn} {c : RunCache} {stage : Stage} {t : String}
  {e : CacheEntry}

theorem Recorded.kept (h : Recorded turns t e) : Recorded turns t e.kept := by
  obtain ⟨i, k, r, hmem, htext, hentry⟩ := h
  exact ⟨i, k, r, hmem, htext, (CacheEntry.kept_kept e).trans hentry⟩

theorem Recorded.mono (h : Recorded turns t e) (later : List (ι × Turn)) :
    Recorded (turns ++ later) t e := by
  obtain ⟨i, k, r, hmem, htext, hentry⟩ := h
  exact ⟨i, k, r, List.mem_append_left _ hmem, htext, hentry⟩

theorem Recorded.all_mono {entries : SortedMap String CacheEntry}
    (h : Session.AllVouched (Recorded turns) entries) (later : List (ι × Turn)) :
    Session.AllVouched (Recorded (turns ++ later)) entries :=
  fun t e he => ⟨(h t e he).1, (h t e he).2.mono later⟩

/-- What a tree shows at the path of the store after a replacement by a cache in a scene: it is a
file exactly if the temporary path led to one, and then it has the entries of that cache. -/
structure Shows (directory : Path) (i : ι) (u : Scene ι) (w : Workspace) : Prop where
  regular : w.isRegular (CachePaths.store directory) =
    u.files.isRegular (CachePaths.temporary directory)
  entries : u.files.isRegular (CachePaths.temporary directory) = true →
    ∃ bytes, w.read (CachePaths.store directory) = .ok bytes ∧
      RunCache.decode bytes = some ((u.caches i).entries.mapValues fun _ e => e.kept)

theorem Shows.stands (h : Shows directory i u w)
    (hstands : w.Stands w' (CachePaths.store directory)) : Shows directory i u w' where
  regular := hstands.isRegular_eq.trans h.regular
  entries hregular := by
    obtain ⟨bytes, hread, hdecode⟩ := h.entries hregular
    exact ⟨bytes, hstands.read_eq_ok.2 hread, hdecode⟩

/-- After a replacement a reader finds nothing or what was persisted. -/
theorem Shows.readStore (h : Shows directory i u w) :
    RunCache.readStore w (CachePaths.store directory) = .empty ∨
      RunCache.readStore w (CachePaths.store directory) =
        (u.caches i).entries.mapValues fun _ e => e.kept := by
  cases hfile : u.files.isRegular (CachePaths.temporary directory) with
  | false => exact .inl (RunCache.readStore_of_not_regular (h.regular.trans hfile))
  | true =>
    obtain ⟨bytes, hread, hdecode⟩ := h.entries hfile
    right
    rw [RunCache.readStore, hread]
    simp only [hdecode, Option.getD_some]

/-- A cache that has written its temporary file can be read from it. -/
def Pending (directory : Path) (w : Workspace) (c : RunCache) (stage : Stage) : Prop :=
  stage = .written → RunCache.Storable c.entries ∧
    w.Bears (CachePaths.temporary directory) (RunCache.encode c.entries).toUTF8

theorem pending_of_ne (h : stage ≠ .written) : Pending directory w c stage :=
  fun hwritten => absurd hwritten h

theorem Pending.grows (h : Pending directory w c stage) (hgrows : w.Grows w') :
    Pending directory w' c stage :=
  fun hwritten => ⟨(h hwritten).1, (h hwritten).2.grows hgrows⟩

variable [DecidableEq ι]

/-- What holds of every scene that is reached. Only the cache that has the lock writes, and what it
has written stands at the temporary path. -/
structure Safe (w₀ : Workspace) (directory : Path) (turns : List (ι × Turn)) (s : Scene ι) :
    Prop where
  paths : ∀ i, (s.caches i).directory = directory
  memory : ∀ i, Session.AllVouched (Recorded turns) (s.caches i).entries
  stored : Session.AllVouched (Recorded turns)
    (RunCache.readStore s.files (CachePaths.store directory))
  alone : ∀ i j, (s.stages i).HasLock → (s.stages j).HasLock → i = j
  made : s.files.Made directory ∨
    (∃ n, s.files = (Workspace.making · directory)^[n] w₀) ∧ ∀ i, s.stages i = .idle
  replaceable : s.files.Replaceable (CachePaths.store directory)
  pending : ∀ i, Pending directory s.files (s.caches i) (s.stages i)
  shown : (∀ x ∈ turns, x.2 ≠ .replace) ∧
      s.files.pathExists (CachePaths.store directory) = false ∨
    ∃ i u, Replaced w₀ directory turns i u ∧ Shows directory i u s.files

theorem safe_start (h : Storeless directory w₀) :
    Safe w₀ directory [] (start ι w₀ directory) := by
  have hempty : RunCache.readStore w₀ (CachePaths.store directory) = .empty := by
    refine RunCache.readStore_of_not_regular (Bool.eq_false_iff.2 fun hregular => ?_)
    obtain ⟨x, -, -, hx, -⟩ := Workspace.isRegular_iff.1 hregular
    exact h.missing.placeOf x hx
  have hvouched : Session.AllVouched (Recorded ([] : List (ι × Turn)))
      (RunCache.readStore w₀ (CachePaths.store directory)) :=
    hempty ▸ Session.allVouched_empty
  exact ⟨fun _ => rfl, fun _ => hvouched, hvouched, fun _ _ hlock => hlock.elim,
    .inr ⟨⟨0, rfl⟩, fun _ => rfl⟩, h.missing.replaceable,
    fun _ => pending_of_ne (by simp [start]), .inl ⟨by simp, h.missing.pathExists⟩⟩

@[simp] theorem caches_after_self (s : Scene ι) (i : ι) (c : RunCache) (stage : Stage)
    (w : Workspace) : (s.after i c stage w).caches i = c := Function.update_self ..

@[simp] theorem stages_after_self (s : Scene ι) (i : ι) (c : RunCache) (stage : Stage)
    (w : Workspace) : (s.after i c stage w).stages i = stage := Function.update_self ..

@[simp] theorem files_after (s : Scene ι) (i : ι) (c : RunCache) (stage : Stage)
    (w : Workspace) : (s.after i c stage w).files = w := rfl

theorem caches_after_of_ne (hj : j ≠ i) : (s.after i c stage w).caches j = s.caches j :=
  Function.update_of_ne hj ..

theorem stages_after_of_ne (hj : j ≠ i) : (s.after i c stage w).stages j = s.stages j :=
  Function.update_of_ne hj ..

/-- What holds of one cache after its turn and of the others as before holds of all. -/
theorem forall_after {P : RunCache → Stage → Prop} (hown : P c stage)
    (hothers : ∀ j, j ≠ i → P (s.caches j) (s.stages j)) (j : ι) :
    P ((s.after i c stage w).caches j) ((s.after i c stage w).stages j) := by
  by_cases hj : j = i
  · subst hj
    rwa [caches_after_self, stages_after_self]
  · rw [caches_after_of_ne hj, stages_after_of_ne hj]
    exact hothers j hj

/-- Taking the lock while no one has it, or a turn without it, leaves it with one cache. -/
theorem alone_after (halone : ∀ i j, (s.stages i).HasLock → (s.stages j).HasLock → i = j)
    (hfree : stage.HasLock → ∀ j, j ≠ i → ¬ (s.stages j).HasLock) (j k : ι)
    (hj : ((s.after i c stage w).stages j).HasLock)
    (hk : ((s.after i c stage w).stages k).HasLock) : j = k := by
  by_cases hji : j = i
  · by_cases hki : k = i
    · rw [hji, hki]
    · rw [hji, stages_after_self] at hj
      rw [stages_after_of_ne hki] at hk
      exact absurd hk (hfree hj k hki)
  · rw [stages_after_of_ne hji] at hj
    by_cases hki : k = i
    · rw [hki, stages_after_self] at hk
      exact absurd hj (hfree hk j hji)
    · rw [stages_after_of_ne hki] at hk
      exact halone j k hj hk

/-- A turn that does not replace the store leaves the last replacement as it was. -/
theorem Replaced.snoc (h : Replaced w₀ directory turns j u) (hturn : turn ≠ .replace) :
    Replaced w₀ directory (turns ++ [(i, turn)]) j u := by
  obtain ⟨earlier, later, rfl, hreaches, hlater⟩ := h
  refine ⟨earlier, later ++ [(i, turn)], by simp, hreaches, ?_⟩
  rw [List.forall_mem_append]
  exact ⟨hlater, by simpa using hturn⟩

/-- A turn that does not replace the store keeps the invariant if it keeps the entries of its cache
vouched, the path of the store in its place, and what the cache with the lock has written. -/
theorem Safe.step (h : Safe w₀ directory turns s) (hturn : turn ≠ .replace)
    (hpath : c.directory = directory)
    (hmemory : Session.AllVouched (Recorded (turns ++ [(i, turn)])) c.entries)
    (hfree : stage.HasLock → ∀ j, j ≠ i → ¬ (s.stages j).HasLock)
    (hstands : s.files.Stands w (CachePaths.store directory))
    (hreplaceable : w.Replaceable (CachePaths.store directory))
    (hmade : w.Made directory ∨
      (∃ n, w = (Workspace.making · directory)^[n] w₀) ∧ stage = .idle ∧ ∀ j, s.stages j = .idle)
    (hown : Pending directory w c stage)
    (hothers : ∀ j, j ≠ i → Pending directory w (s.caches j) (s.stages j)) :
    Safe w₀ directory (turns ++ [(i, turn)]) (s.after i c stage w) := by
  refine ⟨?_, ?_, ?_, alone_after h.alone hfree, ?_, hreplaceable, ?_, ?_⟩
  · exact forall_after (P := fun c _ => c.directory = directory) hpath fun j _ => h.paths j
  · exact forall_after (P := fun c _ => Session.AllVouched _ c.entries) hmemory
      fun j _ => Recorded.all_mono (h.memory j) _
  · have hstore : RunCache.readStore w (CachePaths.store directory) =
        RunCache.readStore s.files (CachePaths.store directory) :=
      RunCache.readStore_stands hstands
    exact hstore.symm ▸ Recorded.all_mono h.stored _
  · rcases hmade with hmade | ⟨hsame, hidle, hall⟩
    · exact .inl hmade
    · exact .inr ⟨hsame, forall_after (P := fun _ stage => stage = .idle) hidle fun j _ => hall j⟩
  · exact forall_after (P := Pending directory w) hown hothers
  · rcases h.shown with ⟨hnever, habsent⟩ | ⟨j, u, hreplaced, hshows⟩
    · left
      rw [List.forall_mem_append]
      exact ⟨⟨hnever, by simpa using hturn⟩, hstands.pathExists_eq.trans habsent⟩
    · exact .inr ⟨j, u, hreplaced.snoc hturn, hshows.stands hstands⟩

/-- A cache that prepares to persist keeps the invariant, whatever comes of it. -/
theorem Safe.prepare {r : Except StoreError Unit} (h : Safe w₀ directory turns s)
    (hstoreless : Storeless directory w₀) (hprepare : (s.caches i).prepare.exec s.files = (r, w))
    (hlock : ¬ stage.HasLock) (hrefused : ∀ e, r = .error e → stage = .idle)
    (hclear : Clear directory w) :
    Safe w₀ directory (turns ++ [(i, .prepare)]) (s.after i (s.caches i) stage w) := by
  -- until the directory is there, the tree has changed by its making only
  have hunmade : s.files.Made directory ∨ s.files.Missing (CachePaths.store directory) ∧
      (s.files.making directory).Missing (CachePaths.store directory) := by
    rcases h.made with hmade | ⟨⟨n, hfiles⟩, -⟩
    · exact .inl hmade
    · rw [hfiles, ← Function.iterate_succ_apply' (Workspace.making · directory)]
      exact .inr ⟨hstoreless n, hstoreless (n + 1)⟩
  have hunwritten : stage ≠ .written := by
    rintro rfl
    exact hlock trivial
  have hpath : (s.caches i).directory = directory := h.paths i
  subst hpath
  obtain ⟨hstands, hreplaceable, hgrows, hmade⟩ := RunCache.prepare_cases hprepare hunmade
    h.replaceable hclear
  refine h.step (by simp) rfl (Recorded.all_mono (h.memory i) _) (fun hlock' => absurd hlock' hlock)
    hstands hreplaceable ?_ (pending_of_ne hunwritten) fun j _ => (h.pending j).grows hgrows
  rcases hmade with hmade | ⟨rfl, e, he⟩
  · exact .inl hmade
  · rcases h.made with hmade | ⟨⟨n, hfiles⟩, hidle⟩
    · rw [Workspace.making_of_ok hmade.makeDirectories]
      exact .inl hmade
    · refine .inr ⟨⟨n + 1, ?_⟩, hrefused e he, hidle⟩
      rw [Function.iterate_succ_apply' (Workspace.making · _), ← hfiles]

/-- While one cache has the lock, no other has written its temporary file. -/
theorem Safe.pending_others (h : Safe w₀ directory turns s) (hlock : (s.stages i).HasLock) (j : ι)
    (hj : j ≠ i) : Pending directory w (s.caches j) (s.stages j) := by
  intro hwritten
  have hlock' : (s.stages j).HasLock := by
    rw [hwritten]
    trivial
  exact absurd (h.alone j i hlock' hlock) hj

/-- A replacement puts the store in place of the last one, as the cache has it. -/
theorem Safe.replace {u : Unit} (h : Safe w₀ directory turns s)
    (hreaches : Reaches w₀ directory turns s) (hstage : s.stages i = .written)
    (hreplace : (s.caches i).replaceStore.exec s.files = (.ok u, w))
    (hclear : Clear directory s.files) :
    Safe w₀ directory (turns ++ [(i, .replace)])
      (s.after i { s.caches i with dirty := false } .idle w) := by
  have hlock : (s.stages i).HasLock := by rw [hstage]; trivial
  have hmade : s.files.Made directory :=
    h.made.resolve_right fun hidle => absurd (hstage.symm.trans (hidle.2 i)) (by simp)
  obtain ⟨hstorable, hbears⟩ := h.pending i hstage
  have hdecode := RunCache.decode_encode hstorable
  have hmemory := Recorded.all_mono (h.memory i) [(i, .replace)]
  have hpath : (s.caches i).directory = directory := h.paths i
  subst hpath
  obtain ⟨hreplaceable, hmade', hregular, hread⟩ := RunCache.replaceStore_cases hreplace hbears
    h.replaceable hclear hmade
  have hshows : Shows (s.caches i).directory i s w :=
    ⟨hregular, fun hfile => ⟨_, hread hfile, hdecode⟩⟩
  refine ⟨?_, ?_, ?_, alone_after h.alone False.elim, .inl hmade', hreplaceable, ?_, .inr ?_⟩
  · exact forall_after (P := fun c _ => c.directory = _) rfl fun j _ => h.paths j
  · exact forall_after (P := fun c _ => Session.AllVouched _ c.entries) hmemory
      fun j _ => Recorded.all_mono (h.memory j) _
  · rcases hshows.readStore with hempty | hstore
    · exact hempty.symm ▸ Session.allVouched_empty
    · exact hstore.symm ▸ hmemory.kept Recorded.kept
  · exact forall_after (P := Pending _ w) (pending_of_ne (by simp)) (h.pending_others hlock)
  · exact ⟨i, s, ⟨turns, [], rfl, hreaches, by simp⟩, hshows⟩

/-- A turn keeps the invariant. -/
theorem Safe.takes (h : Safe w₀ directory turns s) (hreaches : Reaches w₀ directory turns s)
    (hstoreless : Storeless directory w₀) (hturn : s.Takes i turn s') (hrecords : turn.Records)
    (hbefore : Clear directory s.files) (hafter : Clear directory s'.files) :
    Safe w₀ directory (turns ++ [(i, turn)]) s' := by
  have hpath : (s.caches i).directory = directory := h.paths i
  have hmemory := Recorded.all_mono (h.memory i) [(i, turn)]
  have hmade (hstage : s.stages i ≠ .idle) : s.files.Made directory :=
    h.made.resolve_right fun hidle => hstage (hidle.2 i)
  cases hturn with
  | act step hstage hstep =>
    have hstored : Session.AllVouched (Recorded (turns ++ [(i, .act step)]))
        (RunCache.readStore s.files (s.session i).cache.storePath) := by
      rw [RunCache.storePath, show (s.session i).cache.directory = directory from hpath]
      exact Recorded.all_mono h.stored _
    have hsession : (s.session i).Vouched (Recorded (turns ++ [(i, .act step)])) :=
      ⟨hmemory, hstored⟩
    have hnone : ∀ entries ∈ (∅ : Set (SortedMap String CacheEntry)),
        Session.AllVouched (Recorded (turns ++ [(i, .act step)])) entries :=
      fun _ hentries => absurd hentries (Set.notMem_empty _)
    have hvouched : ((s.session i).perform step).Vouched
        (Recorded (turns ++ [(i, .act step)])) := by
      refine hsession.perform Recorded.kept hnone ?_ fun k r heq => ?_
      · cases step with
        | record => exact hrecords
        | persist => exact absurd rfl hstep
        | invalidate | clear | reload => trivial
      · exact ⟨i, k, r, by simp [heq], rfl, rfl⟩
    refine h.step (by simp) ((Session.directory_perform _ step).trans hpath) hvouched.memory
      False.elim (.refl _ _) h.replaceable ?_ (pending_of_ne (by simp)) fun j _ => h.pending j
    exact h.made.imp id fun hidle => ⟨hidle.1, rfl, hidle.2⟩
  | prepare hstage hdirty hprepare =>
    exact h.prepare hstoreless hprepare id (fun e he => by cases he) hafter
  | refuse hstage hdirty hprepare =>
    exact h.prepare hstoreless hprepare id (fun _ _ => rfl) hafter
  | lock hstage hfree =>
    exact h.step (by simp) hpath hmemory (fun _ j _ => hfree j) (.refl _ _) h.replaceable
      (.inl (hmade (by simp [hstage]))) (pending_of_ne (by simp)) fun j _ => h.pending j
  | tear hstage hwrite =>
    subst hpath
    have hlock : (s.stages i).HasLock := by rw [hstage]; trivial
    obtain ⟨hputs, -⟩ := Workspace.write_cases hwrite
    exact h.step (by simp) rfl hmemory (fun _ j hj hlock' => hj (h.alone j i hlock' hlock))
      (hputs.stands hafter.temporary) (hputs.replaceable h.replaceable)
      (.inl (hputs.extended.made (hmade (by simp [hstage])))) (pending_of_ne (by simp))
      (h.pending_others hlock)
  | write hstage hheight hwrite =>
    subst hpath
    have hlock : (s.stages i).HasLock := by rw [hstage]; trivial
    obtain ⟨hputs, hbears⟩ := Workspace.write_cases (FileAction.exec_change_eq_ok.1 hwrite)
    have hstorable : RunCache.Storable (s.caches i).entries :=
      ⟨fun e he => (h.memory i _ _ (SortedMap.get?_eq_some_iff.2 he)).1, hheight⟩
    exact h.step (by simp) rfl hmemory (fun _ j hj hlock' => hj (h.alone j i hlock' hlock))
      (hputs.stands hafter.temporary) (hputs.replaceable h.replaceable)
      (.inl (hputs.extended.made (hmade (by simp [hstage])))) (fun _ => ⟨hstorable, hbears⟩)
      (h.pending_others hlock)
  | fail hstage =>
    exact h.step (by simp) hpath hmemory False.elim (.refl _ _) h.replaceable (.inl (hmade hstage))
      (pending_of_ne (by simp)) fun j _ => h.pending j
  | replace hstage hreplace => exact h.replace hreaches hstage hreplace hbefore

/-- Nothing is an alias of a store that is not there. -/
theorem clear_of_missing (h : w.Missing (CachePaths.store directory)) : Clear directory w where
  temporary := fun ⟨x, _, hx⟩ => h.placeOf x hx
  lock := fun ⟨x, _, hx⟩ => h.placeOf x hx

theorem Reaches.clear (h : Reaches w₀ directory turns s) (hstoreless : Storeless directory w₀) :
    Clear directory s.files := by
  cases h with
  | start => exact clear_of_missing hstoreless.missing
  | next _ _ _ hclear => exact hclear

theorem Reaches.safe (h : Reaches w₀ directory turns s) (hstoreless : Storeless directory w₀) :
    Safe w₀ directory turns s := by
  induction h with
  | start => exact safe_start hstoreless
  | next h hturn hrecords hclear ih =>
    exact ih.takes h hstoreless hturn hrecords (h.clear hstoreless) hclear

/-! ## Persists as turns -/

theorem after_after (s : Scene ι) (i : ι) (c c' : RunCache) (stage stage' : Stage)
    (w w' : Workspace) : (s.after i c stage w).after i c' stage' w' = s.after i c' stage' w' := by
  simp [after]

/-- How a persist of a change can end: with one of its parts failing, or with all of them done. -/
inductive Ends (c : RunCache) (w : Workspace) : Except StoreError RunCache × Workspace → Prop
  | refused {e : StoreError} {w₁ : Workspace} (h : c.prepare.exec w = (.error e, w₁)) :
      Ends c w (.error e, w₁)
  | unwritten {u : Unit} {e : StoreError} {w₁ : Workspace} (h : c.prepare.exec w = (.ok u, w₁))
      (hwrite : c.writeTemporary.exec w₁ = (.error e, w₁)) : Ends c w (.error e, w₁)
  | unreplaced {u u' : Unit} {e : StoreError} {w₁ w₂ : Workspace}
      (h : c.prepare.exec w = (.ok u, w₁)) (hwrite : c.writeTemporary.exec w₁ = (.ok u', w₂))
      (hreplace : c.replaceStore.exec w₂ = (.error e, w₂)) : Ends c w (.error e, w₂)
  | replaced {u u' u'' : Unit} {w₁ w₂ w₃ : Workspace}
      (h : c.prepare.exec w = (.ok u, w₁)) (hwrite : c.writeTemporary.exec w₁ = (.ok u', w₂))
      (hreplace : c.replaceStore.exec w₂ = (.ok u'', w₃)) :
      Ends c w (.ok { c with dirty := false }, w₃)

theorem ends_persist (hdirty : c.dirty = true) : Ends c w (c.persist.exec w) := by
  have hkeeps {f : Workspace → Except StoreError Workspace} {e : StoreError} {w w' : Workspace}
      (h : (FileAction.change f).exec w = (.error e, w')) : w' = w := by
    rw [FileAction.exec_change] at h
    split at h <;> cases h
    rfl
  rw [RunCache.persist, hdirty]
  simp only [Bool.not_true, Bool.false_eq_true, if_false, FileAction.exec_bind]
  rcases h : c.prepare.exec w with ⟨e | u, w₁⟩
  · exact .refused h
  rcases hwrite : c.writeTemporary.exec w₁ with ⟨e | u', w₂⟩
  · obtain rfl := hkeeps hwrite
    simpa [hwrite] using Ends.unwritten h hwrite
  rcases hreplace : c.replaceStore.exec w₂ with ⟨e | u'', w₃⟩
  · obtain rfl := hkeeps hreplace
    simpa [hwrite, hreplace] using Ends.unreplaced h hwrite hreplace
  · simpa [hwrite, hreplace] using Ends.replaced h hwrite hreplace

/-- **A persist that nobody disturbs is a sequence of turns**, whatever comes of it: they leave the
cache and the tree that it leaves. -/
theorem reaches_persist (h : Reaches w₀ directory turns s) (hstage : s.stages i = .idle)
    (hdirty : (s.caches i).dirty = true) (hfree : ∀ j, ¬ (s.stages j).HasLock)
    (hheight : (Json.ofMap CacheEntry.toJson (s.caches i).entries).height ≤ Json.nestingLimit)
    (hprepared : Clear directory ((s.caches i).prepare.exec s.files).2)
    (hstaged : Clear directory ((s.caches i).staged s.files))
    (hdone : Clear directory ((s.caches i).persist.exec s.files).2) :
    ∃ more, Reaches w₀ directory (turns ++ more)
      (s.after i (((s.caches i).persist.exec s.files).1.toOption.getD (s.caches i)) .idle
        ((s.caches i).persist.exec s.files).2) := by
  have hends : Ends (s.caches i) s.files ((s.caches i).persist.exec s.files) := ends_persist hdirty
  generalize (s.caches i).persist.exec s.files = result at hdone hends ⊢
  -- the turns up to the lock, and up to the temporary file
  have hstarted {u : Unit} {w₁ : Workspace}
      (hprepare : (s.caches i).prepare.exec s.files = (.ok u, w₁)) :
      Reaches w₀ directory (turns ++ [(i, .prepare)] ++ [(i, .lock)])
        (s.after i (s.caches i) .locked w₁) := by
    rw [hprepare] at hprepared
    have h₁ := h.next (.prepare hstage hdirty hprepare) trivial hprepared
    have hfree₁ (j : ι) : ¬ ((s.after i (s.caches i) .waiting w₁).stages j).HasLock :=
      forall_after (P := fun _ stage => ¬ stage.HasLock) id (fun j _ => hfree j) j
    have h₂ := h₁.next (.lock (i := i) (stages_after_self ..) hfree₁) trivial hprepared
    rwa [after_after, caches_after_self, files_after] at h₂
  have hwrote {u u' : Unit} {w₁ w₂ : Workspace}
      (hprepare : (s.caches i).prepare.exec s.files = (.ok u, w₁))
      (hwrite : (s.caches i).writeTemporary.exec w₁ = (.ok u', w₂)) :
      Clear directory w₂ ∧
        Reaches w₀ directory (turns ++ [(i, .prepare)] ++ [(i, .lock)] ++ [(i, .write)])
          (s.after i (s.caches i) .written w₂) := by
    have hclear : Clear directory w₂ := by
      simpa [RunCache.staged, hprepare, hwrite] using hstaged
    have h₃ := (hstarted hprepare).next (.write (i := i) (u := u') (w := w₂)
      (stages_after_self ..) (by simpa using hheight) (by simpa using hwrite)) trivial hclear
    rw [after_after, caches_after_self] at h₃
    exact ⟨hclear, h₃⟩
  cases hends with
  | refused hprepare => exact ⟨_, h.next (.refuse hstage hdirty hprepare) trivial hdone⟩
  | unwritten hprepare hwrite =>
    have hfailed := (hstarted hprepare).next (.fail (i := i) (by simp)) trivial hdone
    rw [after_after, caches_after_self, List.append_assoc, List.append_assoc] at hfailed
    exact ⟨_, hfailed⟩
  | unreplaced hprepare hwrite hreplace =>
    have hfailed := (hwrote hprepare hwrite).2.next (.fail (i := i) (by simp)) trivial hdone
    rw [after_after, caches_after_self, List.append_assoc, List.append_assoc,
      List.append_assoc] at hfailed
    exact ⟨_, hfailed⟩
  | @replaced _ _ u'' _ w₂ w₃ hprepare hwrite hreplace =>
    have hreplaced := (hwrote hprepare hwrite).2.next (.replace (i := i) (u := u'') (w := w₃)
      (stages_after_self ..) (by simpa using hreplace)) trivial hdone
    rw [after_after, caches_after_self, List.append_assoc, List.append_assoc,
      List.append_assoc] at hreplaced
    exact ⟨_, hreplaced⟩

/-! ## Any interleaving -/

/-- **Whatever turns caches take, what is found was recorded, and the store is whole.** What a
look-up finds was recorded under a key of the same text, as it is found and with the very
fingerprints. There is no store until one is put in place, and then it is the whole of the cache
that did so last; only if its temporary path led to no file, the store is none either. -/
theorem safe_of_reaches (hstoreless : Storeless directory w₀)
    (h : Reaches w₀ directory turns s) :
    (∀ i k current e, (s.caches i).lookup k current = some e →
      ∃ j k' r, (j, .act (.record k' r)) ∈ turns ∧ k'.text = k.text ∧
        r.fingerprints = current ∧ e.kept = r.entry) ∧
    ((∀ x ∈ turns, x.2 ≠ .replace) ∧
        s.files.pathExists (CachePaths.store directory) = false ∨
      ∃ i u, Replaced w₀ directory turns i u ∧ Shows directory i u s.files) := by
  have hsafe := h.safe hstoreless
  refine ⟨fun i k current e hfound => ?_, hsafe.shown⟩
  rw [RunCache.lookup, Option.filter_eq_some_iff] at hfound
  obtain ⟨hentry, hcurrent⟩ := hfound
  obtain ⟨-, j, k', r, hmem, htext, hkept⟩ := hsafe.memory i _ e hentry
  have hfingerprints : e.fingerprints = r.fingerprints := congrArg CacheEntry.fingerprints hkept
  exact ⟨j, k', r, hmem, htext, hfingerprints.symm.trans (of_decide_eq_true hcurrent), hkept⟩

/-! ## Caches that cannot open their lock -/

end Scene

namespace RunCache

open Workspace

variable {c : RunCache} {w w' : Workspace}

/-- A cache whose lock file is a directory has its own directory made, and no more. -/
theorem prepare_locked {x : Place} (hmake : w.makeDirectories c.directory = .ok w')
    (hx : w'.placeOf (CachePaths.lock c.directory) = .ok x) (hdir : w'.isDirectoryAt x = true)
    (hname : endsInName (plainSteps (CachePaths.lock c.directory)) = true)
    (hslash : endsInSlash (CachePaths.lock c.directory) = false) :
    c.prepare.exec w = (.error (.openLock (CachePaths.lock c.directory) .isDirectory), w') := by
  refine FileAction.exec_bind_eq_error.2 (.inr ⟨(), w',
    FileAction.exec_makeDirectories_eq_ok.2 hmake, FileAction.exec_change_eq_error.2 ⟨?_, rfl⟩⟩)
  rw [create, openForWriting_directory hname hslash hx (statAt_eq_directory.2 hdir)]
  rfl

/-- A store of the root, and a directory in the place of the lock file. -/
def locked : Workspace :=
  ⟨SortedMap.ofList [(["run_cache.json"], .file "{}".toUTF8 0), (["run_cache.lock"], .directory)],
    [], 1⟩

/-- A cache whose directory steps up again from a missing one makes that one, and then cannot open
its lock: now the path of the store leads to a file that was there. -/
theorem revealed_of_prepare (entries : SortedMap String CacheEntry) (dirty : Bool) :
    let directory : Path := ⟨"/logs/.."⟩
    locked.Missing (CachePaths.store directory) ∧
      ∃ w', (prepare ⟨directory, entries, dirty⟩).exec locked =
          (.error (.openLock (CachePaths.lock directory) .isDirectory), w') ∧
        Clear directory w' ∧ w'.pathExists (CachePaths.store directory) = true := by
  intro directory
  have detour : Detour (CachePaths.store directory) "run_cache.json" :=
    ⟨by decide, by decide, by decide, by decide, by decide, by decide⟩
  have detour' : Detour (CachePaths.lock directory) "run_cache.lock" :=
    ⟨by decide, by decide, by decide, by decide, by decide, by decide⟩
  have detour'' : Detour (CachePaths.temporary directory) "run_cache.json.tmp" :=
    ⟨by decide, by decide, by decide, by decide, by decide, by decide⟩
  have hname : endsInName (plainSteps (CachePaths.lock directory)) = true := by decide
  have hslash : endsInSlash (CachePaths.lock directory) = false := by decide
  have hlogs : locked.entries.get? ["logs"] = none := by simp [locked, SortedMap.get?_ofList]
  generalize hw' : locked.put ["logs"] .directory = w'
  have hentry (name : String) : w'.entries.get? [name] =
      if [name] = ["logs"] then some .directory else locked.entries.get? [name] :=
    hw' ▸ get?_put _ _ _ _
  have hmade : w'.entries.get? ["logs"] = some .directory := by rw [hentry, if_pos rfl]
  have hstore : w'.entries.get? ["run_cache.json"] = some (.file "{}".toUTF8 0) := by
    rw [hentry, if_neg (by decide)]
    simp [locked, SortedMap.get?_ofList]
  have hlock : w'.entries.get? ["run_cache.lock"] = some .directory := by
    rw [hentry, if_neg (by decide)]
    simp [locked, SortedMap.get?_ofList]
  have htemporary : w'.entries.get? ["run_cache.json.tmp"] = none := by
    rw [hentry, if_neg (by decide)]
    simp [locked, SortedMap.get?_ofList]
  have hplace : w'.placeOf (CachePaths.store directory) = .ok ["run_cache.json"] :=
    detour.placeOf hmade hstore (by simp)
  have hplace' : w'.placeOf (CachePaths.lock directory) = .ok ["run_cache.lock"] :=
    detour'.placeOf hmade hlock (by simp)
  refine ⟨detour.missing hlogs, w', prepare_locked (hw' ▸ makeDirectories_detour hlogs) hplace'
    (by simp [isDirectoryAt, hlock]) hname hslash, ⟨?_, ?_⟩, ?_⟩
  · rintro ⟨x, hx, -⟩
    exact (detour''.missing_of_free hmade htemporary).placeOf x hx
  · rintro ⟨x, hx, hx'⟩
    exact absurd ((hplace'.symm.trans hx).trans (hx'.symm.trans hplace)) (by simp)
  · rw [pathExists, stat, hplace]
    rfl

end RunCache

namespace Scene

variable {ι : Type} {w₀ w w' : Workspace} {directory : Path} {turns : List (ι × Turn)}
  {s s' u : Scene ι} {i j : ι}

/-! ## Scenes of the root -/

section Root

open Workspace

/-- Where each path of a cache of the root leads to a leaf there, if to anything, they lead to
different ones. -/
theorem clear_root (hlock : ∀ e, w.entries.get? ["run_cache.lock"] = some e → e.route = .leaf)
    (htemporary : ∀ e, w.entries.get? ["run_cache.json.tmp"] = some e → e.route = .leaf)
    (hstore : ∀ e, w.entries.get? ["run_cache.json"] = some e → e.route = .leaf) :
    Clear ⟨"/"⟩ w := by
  have hplace {p : Path} {name : String} {x : Place} (hp : InRoot p name)
      (hleaf : ∀ e, w.entries.get? [name] = some e → e.route = .leaf)
      (hx : w.placeOf p = .ok x) : x = [name] := by
    obtain ⟨-, n, -, hway⟩ := locate_eq_ok.1 (placeOf_eq_ok.1 hx)
    exact (hp.found_leaf hleaf hway).1
  constructor
  · rintro ⟨x, hx, hx'⟩
    cases hplace RunCache.inRoot_temporary htemporary hx
    exact absurd (hplace RunCache.inRoot_store hstore hx') (by decide)
  · rintro ⟨x, hx, hx'⟩
    cases hplace RunCache.inRoot_lock hlock hx
    exact absurd (hplace RunCache.inRoot_store hstore hx') (by decide)

theorem clear_of_room (h : RunCache.Room w) : Clear ⟨"/"⟩ w :=
  clear_root h.lock (by simp [h.temporary]) h.store

/-- Making the root brings no store to light. -/
theorem storeless_root (hfree : w.entries.get? ["run_cache.json"] = none) :
    Storeless ⟨"/"⟩ w := by
  intro n
  rw [Function.iterate_fixed (making_of_ok (makeDirectories_root w))]
  exact fun _ _ => RunCache.inRoot_store.not_found hfree

/-- A run that one cache records is found by another one that loads after the store is replaced,
but not by one that loads between the writing and the replacement. -/
theorem safe_of_reaches_loaded :
    let k : CacheKey := .ofPaths "lint" "strict" ["a.py"]
    let turns : List (Bool × Turn) := [(false, .act (.record k .plain)), (false, .prepare),
      (false, .lock), (false, .write), (true, .act .reload), (false, .replace),
      (true, .act .reload)]
    Storeless ⟨"/"⟩ ⟨.empty, [], 0⟩ ∧ ∃ s, Reaches ⟨.empty, [], 0⟩ ⟨"/"⟩ turns s ∧
      ∃ e, (s.caches true).lookup k RecordedRun.plain.fingerprints = some e ∧
        ∃ j k' r, (j, .act (.record k' r)) ∈ turns ∧ k'.text = k.text ∧
          r.fingerprints = RecordedRun.plain.fingerprints ∧ e.kept = r.entry := by
  intro k turns
  let w : Workspace := ⟨.empty, [], 0⟩
  have hstoreless : Storeless ⟨"/"⟩ w := storeless_root rfl
  let entries := (RunCache.readStore w (CachePaths.store ⟨"/"⟩)).insert k.text .plain
  have hplain : AllPlain entries :=
    AllPlain.insert (by rw [RunCache.readStore_root rfl]; exact .empty) k.text
  obtain ⟨w₁, hprepare, hlock, hothers⟩ := RunCache.exec_prepare_root entries true
    (RunCache.room_empty 0).lock
  have hroom := (RunCache.room_empty 0).prepare hlock hothers
  have hwrite := RunCache.exec_writeTemporary_root entries true hroom
  obtain ⟨w₃, hreplace, hroom₃, hfile⟩ := RunCache.exec_replaceStore_root entries true
    (RunCache.encode entries).toUTF8 w₁.clock hroom
  generalize hw₂ : w₁.put _ _ = w₂ at hwrite hreplace
  have hclear₁ : Clear ⟨"/"⟩ w₁ := clear_of_room hroom
  have hclear₂ : Clear ⟨"/"⟩ w₂ := by
    refine clear_root ?_ ?_ ?_ <;> intro e he <;> rw [← hw₂, get?_put] at he
    · exact hroom.lock e he
    · cases he
      rfl
    · exact hroom.store e he
  have hclear₃ : Clear ⟨"/"⟩ w₃ := clear_of_room hroom₃
  have h₀ : Reaches w ⟨"/"⟩ ([] : List (Bool × Turn)) (start Bool w ⟨"/"⟩) := .start
  have h₁ := h₀.next (.act (i := false) (.record k .plain) rfl (by simp)) RecordedRun.exact_plain
    (clear_of_room (RunCache.room_empty 0))
  have h₂ := h₁.next (.prepare (i := false) rfl rfl hprepare) trivial hclear₁
  have h₃ := h₂.next (.lock (i := false) rfl (by rintro (_ | _) <;> exact id)) trivial hclear₁
  have h₄ := h₃.next (.write (i := false) rfl hplain.height hwrite) trivial hclear₂
  have h₅ := h₄.next (.act (i := true) .reload rfl (by simp)) trivial hclear₂
  have h₆ := h₅.next (.replace (i := false) rfl hreplace) trivial hclear₃
  have h₇ := h₆.next (.act (i := true) .reload rfl (by simp)) trivial hclear₃
  have hfound : (RunCache.load w₃ ⟨"/"⟩).lookup k RecordedRun.plain.fingerprints =
      some CacheEntry.plain.kept := by
    have hread : w₃.read (CachePaths.store ⟨"/"⟩) = .ok (RunCache.encode entries).toUTF8 := by
      generalize (RunCache.encode entries).toUTF8 = bytes at hfile
      have hplace := RunCache.inRoot_store.locate_found hfile (by simp) true
      rw [read_eq (placeOf_eq_ok.2 hplace), bytesAt, hfile]
      rfl
    have hdecode := RunCache.decode_encode hplain.storable
    have hstore : RunCache.readStore w₃ (CachePaths.store ⟨"/"⟩) =
        entries.mapValues fun _ e => e.kept := by
      rw [RunCache.readStore, hread]
      simp only [hdecode, Option.getD_some]
    rw [RunCache.lookup, RunCache.load, hstore, SortedMap.get?_mapValues, SortedMap.get?_insert,
      if_pos rfl]
    rfl
  exact ⟨hstoreless, _, h₇, _, hfound, (safe_of_reaches hstoreless h₇).1 true k _ _ hfound⟩

/-- A temporary path that is a link to a device takes the bytes of a store and keeps none: the link
comes in place of the store, which is there then, but decodes to nothing. -/
theorem safe_of_reaches_device :
    let k : CacheKey := .ofPaths "lint" "strict" ["a.py"]
    let w : Workspace :=
      ⟨SortedMap.ofList [(["run_cache.json.tmp"], .link "/null"), (["null"], .device)], [], 0⟩
    let turns : List (Bool × Turn) := [(false, .act (.record k .plain)), (false, .prepare),
      (false, .lock), (false, .write), (false, .replace)]
    Storeless ⟨"/"⟩ w ∧ ∃ s, Reaches w ⟨"/"⟩ turns s ∧
      s.files.pathExists (CachePaths.store ⟨"/"⟩) = true ∧
      ∀ bytes, s.files.read (CachePaths.store ⟨"/"⟩) = .ok bytes →
        RunCache.decode bytes = none := by
  intro k w turns
  have hlink : w.entries.get? ["run_cache.json.tmp"] = some (.link "/null") := by
    simp [w, SortedMap.get?_ofList]
  have hdevice : w.entries.get? ["null"] = some .device := by simp [w, SortedMap.get?_ofList]
  have hfree : w.entries.get? ["run_cache.json"] = none := by simp [w, SortedMap.get?_ofList]
  have hlock : w.entries.get? ["run_cache.lock"] = none := by simp [w, SortedMap.get?_ofList]
  have hstoreless : Storeless ⟨"/"⟩ w := storeless_root hfree
  let entries := (RunCache.readStore w (CachePaths.store ⟨"/"⟩)).insert k.text .plain
  have hplain : AllPlain entries :=
    AllPlain.insert (by rw [RunCache.readStore_root hfree]; exact .empty) k.text
  obtain ⟨w₁, hprepare, hlock, hothers⟩ := RunCache.exec_prepare_root entries true
    (w := w) (by simp [hlock])
  rw [← hothers _ (by decide)] at hlink hdevice hfree
  have hclear₁ : Clear ⟨"/"⟩ w₁ := clear_of_missing (storeless_root hfree).missing
  have hwrite := RunCache.exec_writeTemporary_device entries true hlink hdevice
  obtain ⟨w₃, hreplace, hplace, hgone, hsame⟩ :=
    RunCache.exec_replaceStore_device entries true hlink hdevice hfree
  have hnull : w₃.entries.get? ["null"] = some .device := (hsame _ (by simp)).trans hdevice
  have hclear₃ : Clear ⟨"/"⟩ w₃ := by
    constructor
    · rintro ⟨x, hx, -⟩
      obtain ⟨-, n, -, hway⟩ := locate_eq_ok.1 (placeOf_eq_ok.1 hx)
      exact RunCache.inRoot_temporary.not_found hgone hway
    · rintro ⟨x, hx, hx'⟩
      cases hplace.symm.trans hx'
      obtain ⟨-, n, -, hway⟩ := locate_eq_ok.1 (placeOf_eq_ok.1 hx)
      have hleaf : ∀ e, w₃.entries.get? ["run_cache.lock"] = some e → e.route = .leaf := by
        rw [hsame _ (by simp)]
        exact hlock
      exact absurd (RunCache.inRoot_lock.found_leaf hleaf hway).1 (by decide)
  have h₀ : Reaches w ⟨"/"⟩ ([] : List (Bool × Turn)) (start Bool w ⟨"/"⟩) := .start
  have h₁ := h₀.next (.act (i := false) (.record k .plain) rfl (by simp)) RecordedRun.exact_plain
    (clear_of_missing hstoreless.missing)
  have h₂ := h₁.next (.prepare (i := false) rfl rfl hprepare) trivial hclear₁
  have h₃ := h₂.next (.lock (i := false) rfl (by rintro (_ | _) <;> exact id)) trivial hclear₁
  have h₄ := h₃.next (.write (i := false) rfl hplain.height hwrite) trivial hclear₁
  have h₅ := h₄.next (.replace (i := false) rfl hreplace) trivial hclear₃
  refine ⟨hstoreless, _, h₅, ?_, fun bytes hread => ?_⟩
  · change w₃.pathExists (CachePaths.store ⟨"/"⟩) = true
    rw [pathExists, stat, hplace]
    rfl
  · change w₃.read (CachePaths.store ⟨"/"⟩) = .ok bytes at hread
    rw [read_eq hplace, bytesAt, hnull] at hread
    cases hread
    exact RunCache.decode_empty

/-- A cache that fails to prepare, as a directory is in the place of its lock, can bring a store to
light that no cache has written. -/
theorem safe_of_reaches_revealed :
    let turns : List (Bool × Turn) :=
      [(false, .act (.record (.ofPaths "lint" "strict" ["a.py"]) .plain)), (false, .prepare)]
    RunCache.locked.Missing (CachePaths.store ⟨"/logs/.."⟩) ∧
      ∃ s, Reaches RunCache.locked ⟨"/logs/.."⟩ turns s ∧ (∀ x ∈ turns, x.2 ≠ .replace) ∧
        s.files.pathExists (CachePaths.store ⟨"/logs/.."⟩) = true := by
  intro turns
  let c : RunCache := (RunCache.load RunCache.locked ⟨"/logs/.."⟩).record
    (.ofPaths "lint" "strict" ["a.py"]) RecordedRun.plain.fingerprints RecordedRun.plain.run
  obtain ⟨hmissing, w', hprepare, hclear, hexists⟩ := RunCache.revealed_of_prepare c.entries true
  have h₀ : Reaches RunCache.locked ⟨"/logs/.."⟩ ([] : List (Bool × Turn))
      (start Bool RunCache.locked ⟨"/logs/.."⟩) := .start
  have h₁ := h₀.next (.act (i := false) (.record (.ofPaths "lint" "strict" ["a.py"]) .plain) rfl
    (by simp)) RecordedRun.exact_plain (clear_of_missing hmissing)
  have h₂ := h₁.next (.refuse (i := false) rfl rfl hprepare) trivial hclear
  exact ⟨hmissing, _, h₂, by simp [turns], hexists⟩

/-- **Two ways to a store that no cache has written**: its bytes went to a device, or it was there
and the directory of the cache was not. -/
theorem not_safe :
    (∃ (turns : List (Bool × Turn)) (w : Workspace) (s : Scene Bool), Storeless ⟨"/"⟩ w ∧
      Reaches w ⟨"/"⟩ turns s ∧ s.files.pathExists (CachePaths.store ⟨"/"⟩) = true ∧
      ∀ bytes, s.files.read (CachePaths.store ⟨"/"⟩) = .ok bytes →
        RunCache.decode bytes = none) ∧
    ∃ (turns : List (Bool × Turn)) (w : Workspace) (s : Scene Bool),
      w.Missing (CachePaths.store ⟨"/logs/.."⟩) ∧ Reaches w ⟨"/logs/.."⟩ turns s ∧
      (∀ x ∈ turns, x.2 ≠ .replace) ∧
      s.files.pathExists (CachePaths.store ⟨"/logs/.."⟩) = true := by
  obtain ⟨hstoreless, s, hreaches, hexists, hdecode⟩ := safe_of_reaches_device
  obtain ⟨hmissing, s', hreaches', hnever, hexists'⟩ := safe_of_reaches_revealed
  exact ⟨⟨_, _, s, hstoreless, hreaches, hexists, hdecode⟩,
    _, _, s', hmissing, hreaches', hnever, hexists'⟩

end Root

end Scene

end AnalysisGate
