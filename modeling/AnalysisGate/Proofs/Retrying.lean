import AnalysisGate.Proofs.Failing
import AnalysisGate.Proofs.Interleaving
import AnalysisGate.Proofs.Workspace.Obstacles
import Mathlib

/-!
Persists that fail, and persists that are tried again.

A persist fails with the directory of its cache, with the lock file, with the temporary file or with
the replacement of the store. Whichever it is, the store is as it was (`RunCache.spares_of_persist`)
and the cache is still dirty, with all its entries. In any tree in which nothing stands in the way
the next try succeeds (`RunCache.exists_persist`), and if the path of the store leads to a file
then, a reader finds all of them.
-/
namespace AnalysisGate.RunCache

open Workspace

variable {c : RunCache} {w w' v v' : Workspace} {e : StoreError}

/-! ## Failures -/

/-- The tree with the directory of a cache, or with as much of it as can be made. -/
def housed (c : RunCache) (w : Workspace) : Workspace := w.making c.directory

theorem housed_grows (c : RunCache) (w : Workspace) : w.Grows (c.housed w) :=
  making_grows w c.directory

/-- What stood at the path of a store stands there as it did, and where nothing stands once the
directory of the cache is made, nothing does. -/
structure Spares (c : RunCache) (w w' : Workspace) : Prop where
  kept : ∀ e, w.Holds c.storePath e → w'.Holds c.storePath e
  absent : (c.housed w).pathExists c.storePath = false → w'.pathExists c.storePath = false

/-- The store is spared where it stands once the directory of the cache is made. -/
theorem spares_of_stands (h : (c.housed w).Stands w' c.storePath) : c.Spares w w' where
  kept _ he := h.holds ((housed_grows c w).holds he)
  absent hnone := h.pathExists_eq.trans hnone

/-- A cache that fails to prepare has made what it could of its directory, and no more. -/
theorem prepare_eq_error (h : c.prepare.exec w = (.error e, w')) : w' = c.housed w := by
  rw [prepare] at h
  rcases FileAction.exec_bind_eq_error.1 h with hmake | ⟨_, w₁, hmake, hopen⟩
  · have hleft := FileAction.exec_makeDirectories_snd c.directory
      (StoreError.makeDirectory c.directory) w
    rw [hmake] at hleft
    exact hleft
  · rw [openLock] at hopen
    obtain ⟨-, rfl⟩ := FileAction.exec_change_eq_error.1 hopen
    exact (making_of_ok (FileAction.exec_makeDirectories_eq_ok.1 hmake)).symm

/-- A cache is prepared if its directory is made and its lock file is opened. -/
theorem prepare_eq_ok : c.prepare.exec w = (.ok (), w') ↔
    (w.makeDirectories c.directory).isOk = true ∧
      (c.housed w).create (CachePaths.lock c.directory) = .ok w' := by
  rw [prepare, FileAction.exec_bind_eq_ok, housed]
  simp only [openLock, FileAction.exec_change_eq_ok, FileAction.exec_makeDirectories_eq_ok]
  cases hmake : w.makeDirectories c.directory with
  | error e => simp [Except.isOk, Except.toBool]
  | ok w₁ => simp [Except.isOk, Except.toBool, making_of_ok hmake]

/-- A persist that fails comes from a cache that has changes. -/
theorem dirty_of_error (h : c.persist.exec w = (.error e, w')) : c.dirty = true := by
  by_contra hclean
  rw [persist, Bool.eq_false_of_not_eq_true hclean] at h
  cases h

/-- A cache that cannot prepare does not persist. -/
theorem persist_refused (hdirty : c.dirty = true) (h : c.prepare.exec w = (.error e, w')) :
    c.persist.exec w = (.error e, w') := by
  rw [persist, hdirty]
  simp only [Bool.not_true, Bool.false_eq_true, if_false]
  exact FileAction.exec_bind_eq_error.2 (.inl h)

/-- **A persist that fails spares the store**, unless its temporary file or its lock file is the
store itself. -/
theorem spares_of_persist (h : c.persist.exec w = (.error e, w'))
    (hclear : Clear c.directory w') : c.Spares w w' := by
  have hends : Scene.Ends c w (c.persist.exec w) := Scene.ends_persist (dirty_of_error h)
  rw [h] at hends
  apply spares_of_stands
  cases hends with
  | refused hprepare =>
    rw [prepare_eq_error hprepare]
    exact .refl _ _
  | unwritten hprepare hwrite =>
    exact (create_cases (prepare_eq_ok.1 hprepare).2).1.stands hclear.lock
  | @unreplaced _ _ _ w₁ _ hprepare hwrite hreplace =>
    -- an alias of the store stays one, so there was none when the lock file was opened
    have hputs := (write_cases (FileAction.exec_change_eq_ok.1 hwrite)).1
    have hlock : ¬ w₁.Aliases (CachePaths.lock c.directory) c.storePath :=
      fun halias => hclear.lock (hputs.extended.aliases halias)
    exact ((create_cases (prepare_eq_ok.1 hprepare).2).1.stands hlock).trans
      (hputs.stands hclear.temporary)

/-! ## Further tries -/

/-- Nothing stands in the way of a cache: its directory can be made, its lock file and its temporary
file can be opened for writing then, and no directory has the name of the store. -/
structure Unobstructed (c : RunCache) (v : Workspace) : Prop where
  made : (v.makeDirectories c.directory).isOk = true
  lock : ∃ x, (c.housed v).openForWriting (CachePaths.lock c.directory) = .ok x
  temporary : ∃ x, (c.housed v).openForWriting c.temporaryPath = .ok x
  store : ∃ t, (c.housed v).locate false c.storePath = .ok t ∧
    ∀ x, t = .found x → (c.housed v).isDirectoryAt x = false

/-- What is written to the temporary file can replace the store if no directory had the name of the
store when nothing was written yet. -/
theorem exists_replace (h : c.Unobstructed v) (hextends : (c.housed v).Extends w)
    (hleaf : ∀ x, (c.housed v).isDirectoryAt x = false → w.isDirectoryAt x = false) {x : Place}
    (hx : w.placeOf c.temporaryPath = .ok x) :
    ∃ w', w.rename c.temporaryPath c.storePath = .ok w' := by
  obtain ⟨dirs, hs⟩ := siblings_store c
  have hnamed : Named "run_cache.json" := ⟨by decide, by decide, by decide⟩
  obtain ⟨directory, m, k, hdirs, -, hlinks, hdir, ha, e, he⟩ :=
    exists_directory hs.source ⟨hs.notHere, hs.notUp⟩ hx
  obtain ⟨x₀, hopen⟩ := h.temporary
  obtain ⟨directory₀, n, hdirs₀, hn, hdir₀⟩ := exists_way_of_open hopen hs.source
  -- the directory is the one that the temporary file was opened in
  have hstart : w.start c.temporaryPath = (c.housed v).start c.temporaryPath := by
    rw [start, start, hextends.here]
  rw [hstart] at hdirs
  obtain ⟨-, heq⟩ := (hextends.leads hdirs₀).unique hdirs
  obtain rfl := Target.found.inj heq
  obtain ⟨t, hlocate, hfound⟩ := h.store
  have htext := checkText_of_locate hlocate
  have hname : (c.housed v).isDirectoryAt (directory₀ ++ ["run_cache.json"]) = false := by
    have hstart' : (c.housed v).start c.temporaryPath = (c.housed v).start c.storePath := by
      rw [start, start, hs.absolute]
    have hlast := locate_last hs.target hnamed htext (hstart' ▸ hdirs₀) hn hdir₀
    rw [hlocate] at hlast
    obtain rfl := Except.ok.inj hlast
    cases hentry : (c.housed v).entries.get? (directory₀ ++ ["run_cache.json"]) with
    | none => simp [isDirectoryAt, hentry]
    | some e => exact hfound _ (by rw [hentry])
  exact exists_rename hs ha hnamed (checkText_of_locate (placeOf_eq_ok.1 hx)) htext
    (hstart ▸ hdirs) (by omega) hdir he (hleaf _ hname)

/-- **Where nothing stands in the way, a persist succeeds**, and the cache is clean. -/
theorem exists_persist (h : c.Unobstructed v) :
    ∃ v', c.persist.exec v = (.ok { c with dirty := false }, v') := by
  cases hdirty : c.dirty with
  | false =>
    refine ⟨v, ?_⟩
    rw [persist, hdirty]
    simp [← hdirty]
  | true =>
    obtain ⟨x, hlock⟩ := h.lock
    obtain ⟨y, htemporary⟩ := h.temporary
    obtain ⟨v₂, hcreate⟩ := exists_create hlock
    have hputs := (create_cases hcreate).1
    obtain ⟨v₃, hwrite⟩ := exists_write (hputs.openForWriting htemporary) (encode c.entries).toUTF8
    obtain ⟨hputs', z, -, hz, -⟩ := write_cases hwrite
    obtain ⟨v', hrename⟩ := exists_replace h (hputs.extended.trans hputs'.extended)
      (fun x hx => hputs'.leaf (hputs.leaf hx)) hz
    refine ⟨v', ?_⟩
    rw [persist, hdirty]
    simp only [Bool.not_true, Bool.false_eq_true, if_false]
    exact FileAction.exec_bind_eq_ok.2 ⟨(), v₂, prepare_eq_ok.2 ⟨h.made, hcreate⟩,
      FileAction.exec_bind_eq_ok.2 ⟨(), v₃, FileAction.exec_change_eq_ok.2 hwrite,
        FileAction.exec_bind_eq_ok.2 ⟨(), v', FileAction.exec_change_eq_ok.2 hrename, rfl⟩⟩⟩

/-- A change is written: the cache is clean, and a reader finds all of its entries if the path of
the store leads to a file then, and else none. It does lead to one if the path of the temporary file
has led to one and that of the store to another entry, or to none, and to no directory. -/
structure Writes (c : RunCache) (v v' : Workspace) : Prop where
  done : c.persist.exec v = (.ok { c with dirty := false }, v')
  loaded : v'.isRegular c.storePath = true → Storable c.entries →
    load v' c.directory =
      { c with entries := c.entries.mapValues fun _ e => e.kept, dirty := false }
  lost : v'.isRegular c.storePath = false → (load v' c.directory).entries = .empty
  regular : ¬ (c.staged v).Aliases c.temporaryPath c.storePath →
    (c.staged v).Replaceable c.storePath →
    v'.isRegular c.storePath = (c.staged v).isRegular c.temporaryPath

theorem writes_of_persist (h : c.persist.exec v = (.ok { c with dirty := false }, v'))
    (hdirty : c.dirty = true) : c.Writes v v' where
  done := h
  loaded hregular hstorable := by
    rw [load, ← storePath, readStore_of_persist h hdirty hstorable hregular]
  lost := readStore_of_not_regular
  regular halias hreplaceable := by
    obtain ⟨-, ⟨hclean, -⟩ | ⟨-, w₁, hwrite, hrename⟩⟩ := exec_persist h
    · cases hclean.symm.trans hdirty
    obtain ⟨dirs, hs⟩ := siblings_store c
    exact (rename_cases hs ⟨by decide, by decide, by decide⟩ (by decide) (write_cases hwrite).2
      halias hreplaceable hrename).2.1

/-! ## What a failure leaves -/

/-- **A failure leaves the files alone and loses nothing.** Whatever part of a persist fails, the
store is spared and the cache has its entries and its changes still, and they are written by the
next try in a tree in which nothing stands in the way. A budget is spared by a save that fails. -/
theorem intact_of_failure :
    (∀ (c : RunCache) (w w' : Workspace) (e : StoreError), c.persist.exec w = (.error e, w') →
      Clear c.directory w' →
      c.dirty = true ∧ (Session.mk c w).perform .persist = ⟨c, w'⟩ ∧ c.Spares w w' ∧
        ∀ v, c.Unobstructed v → ∃ v', c.Writes v v') ∧
    ∀ (b : Budget) (p : Path) (w w' : Workspace) (e : RatchetError),
      (b.save p).exec w = (.error e, w') → ¬ w'.Aliases (Budget.temporaryPath p) p →
      Budget.Spares w w' p := by
  refine ⟨fun c w w' e h hclear => ?_, fun b p w w' e h halias => Budget.spares_of_save h halias⟩
  have hdirty := dirty_of_error h
  refine ⟨hdirty, ?_, spares_of_persist h hclear, fun v hfree => ?_⟩
  · rw [Session.perform, h]
    rfl
  · obtain ⟨v', hdone⟩ := exists_persist hfree
    exact ⟨v', writes_of_persist hdone hdirty⟩

/-! ## Failures in the root -/

section Root

open CommandLine

/-- A cache of the root is unobstructed where its temporary file can be opened and what stands in
the places of the lock and of the store is a leaf. -/
theorem unobstructed_root (entries : SortedMap String CacheEntry) (dirty : Bool)
    (hlock : ∀ e, v.entries.get? ["run_cache.lock"] = some e → e.route = .leaf)
    (htemporary : ∃ x, v.openForWriting (CachePaths.temporary ⟨"/"⟩) = .ok x)
    (hstore : v.isDirectoryAt ["run_cache.json"] = false) :
    Unobstructed ⟨⟨"/"⟩, entries, dirty⟩ v := by
  have hmake := makeDirectories_root v
  have hhoused : housed ⟨⟨"/"⟩, entries, dirty⟩ v = v := making_of_ok hmake
  refine ⟨by rw [hmake]; rfl, ?_, ?_, ?_⟩ <;> rw [hhoused]
  · exact ⟨_, inRoot_lock.open_leaf (by decide) (by decide) hlock⟩
  · exact htemporary
  · cases he : v.entries.get? ["run_cache.json"] with
    | none => exact ⟨_, inRoot_store.locate_free he false, fun x heq => by cases heq⟩
    | some e =>
      refine ⟨_, inRoot_store.locate_entry he, fun x heq => ?_⟩
      cases heq
      exact hstore

/-- The entry of one plain run. -/
def single : SortedMap String CacheEntry := SortedMap.ofList [("lint", .plain)]

theorem storable_single : Storable single := by
  have hplain : AllPlain single := by
    intro t e he
    rw [single, SortedMap.get?_ofList_eq_some (by simp)] at he
    exact (Prod.mk.inj (List.mem_singleton.1 he)).2
  exact hplain.storable

/-- What is in the way of a lock file of the root is removed, and nothing else of the root is. -/
theorem exists_remove_lock {e : Entry} (h : w.entries.get? ["run_cache.lock"] = some e) :
    ∃ v, w.remove (CachePaths.lock ⟨"/"⟩) = .ok v ∧
      v.entries.get? ["run_cache.lock"] = none ∧
      ∀ name, name ≠ "run_cache.lock" → v.entries.get? [name] = w.entries.get? [name] := by
  have hget (x : Place) : (w.removeAt ["run_cache.lock"]).entries.get? x =
      (w.entries.get? x).filter fun _ => !(["run_cache.lock"].isPrefixOf x) :=
    SortedMap.get?_filter ..
  refine ⟨w.removeAt ["run_cache.lock"], ?_, ?_, fun name hname => ?_⟩
  · rw [remove, inRoot_lock.locate_entry h]
    rfl
  · rw [hget]
    simp
  · have hother : ("run_cache.lock" == name) = false := by simpa using hname.symm
    rw [hget]
    cases w.entries.get? [name] <;> simp [List.isPrefixOf, hother]

/-- A directory in the place of the lock makes a persist fail, and once it is removed the entries
are written and found. So do budgets stay that cannot be saved. -/
theorem intact_of_failure_locked :
    let c : RunCache := ⟨⟨"/"⟩, single, true⟩
    (∃ e w' v v', c.persist.exec locked = (.error e, w') ∧ Clear ⟨"/"⟩ w' ∧
      w'.Holds c.storePath (.file "{}".toUTF8 0) ∧
      w'.remove (CachePaths.lock ⟨"/"⟩) = .ok v ∧ c.Unobstructed v ∧
      c.persist.exec v = (.ok ⟨⟨"/"⟩, single, false⟩, v') ∧
      load v' ⟨"/"⟩ = ⟨⟨"/"⟩, single.mapValues fun _ e => e.kept, false⟩) ∧
    ∃ e w', ((Budget.empty .epoch).save ⟨"/budget.json"⟩).exec blocked = (.error e, w') ∧
      ¬ w'.Aliases (Budget.temporaryPath ⟨"/budget.json"⟩) ⟨"/budget.json"⟩ ∧
      w'.Holds ⟨"/budget.json"⟩ (.file "{}".toUTF8 0) := by
  intro c
  have hstore : locked.entries.get? ["run_cache.json"] = some (.file "{}".toUTF8 0) := by
    simp [locked, SortedMap.get?_ofList]
  have hlock : locked.entries.get? ["run_cache.lock"] = some .directory := by
    simp [locked, SortedMap.get?_ofList]
  have htemporary : locked.entries.get? ["run_cache.json.tmp"] = none := by
    simp [locked, SortedMap.get?_ofList]
  have hplace : locked.placeOf c.storePath = .ok ["run_cache.json"] :=
    placeOf_eq_ok.2 (inRoot_store.locate_found hstore (by simp) true)
  have hplace' : locked.placeOf (CachePaths.lock ⟨"/"⟩) = .ok ["run_cache.lock"] :=
    placeOf_eq_ok.2 (inRoot_lock.locate_found hlock (by simp) true)
  have hfailed := persist_refused (c := c) rfl (prepare_locked (makeDirectories_root locked) hplace'
    (by simp [isDirectoryAt, hlock]) (by decide) (by decide))
  have hclear : Clear ⟨"/"⟩ locked := by
    constructor
    · rintro ⟨x, hx, -⟩
      obtain ⟨-, n, -, hway⟩ := locate_eq_ok.1 (placeOf_eq_ok.1 hx)
      exact inRoot_temporary.not_found htemporary hway
    · rintro ⟨x, hx, hx'⟩
      exact absurd ((hplace'.symm.trans hx).trans (hx'.symm.trans hplace)) (by simp)
  obtain ⟨v, hremove, hnone, hothers⟩ := exists_remove_lock hlock
  have hroom : Room v := by
    refine ⟨by simp [hnone], (hothers _ (by decide)).trans htemporary, fun e he => ?_⟩
    rw [hothers _ (by decide), hstore] at he
    cases he
    rfl
  have hfree : c.Unobstructed v := by
    refine unobstructed_root single true hroom.lock ?_ ?_
    · exact ⟨_, inRoot_temporary.open_leaf (by decide) (by decide) (by simp [hroom.temporary])⟩
    · simp [isDirectoryAt, hothers, hstore]
  obtain ⟨-, -, hspares, hagain⟩ := intact_of_failure.1 c locked locked _ hfailed hclear
  obtain ⟨v', hwrites⟩ := hagain v hfree
  obtain ⟨v₁, hdone, hregular, -⟩ := exists_persist_of_room single hroom
  obtain rfl : v' = v₁ := congrArg Prod.snd (hwrites.done.symm.trans hdone)
  refine ⟨⟨_, locked, v, v', hfailed, hclear, hspares.kept _ ⟨_, hplace, hstore⟩, hremove, hfree,
    hwrites.done, hwrites.loaded hregular storable_single⟩, ?_⟩
  obtain ⟨hsave, halias, hholds⟩ := save_blocked_root
  have hfailed' := hsave (Budget.empty .epoch)
  have hspares' := intact_of_failure.2 _ _ _ _ _ hfailed' halias
  exact ⟨_, blocked, hfailed', halias, hspares'.kept _ hholds⟩

/-! ## Failures that leave something else -/

/-- A persist to a directory whose path steps up again from a missing one makes that one and then
fails: now the path of the store leads to a file that was there. -/
theorem revealed_of_persist :
    let c : RunCache := ⟨⟨"/logs/.."⟩, single, true⟩
    ∃ e w', c.persist.exec locked = (.error e, w') ∧ Clear c.directory w' ∧
      locked.pathExists c.storePath = false ∧ w'.pathExists c.storePath = true := by
  intro c
  obtain ⟨hmissing, w', hprepare, hclear, hexists⟩ := revealed_of_prepare single true
  exact ⟨_, w', persist_refused rfl hprepare, hclear, hmissing.pathExists, hexists⟩

/-- A link to a device in the place of the temporary file, and a directory in that of the lock. -/
def drained : Workspace :=
  ⟨SortedMap.ofList [(["run_cache.json.tmp"], .link "/null"), (["null"], .device),
    (["run_cache.lock"], .directory)], [], 0⟩

/-- A persist that succeeds when the lock can be opened, and whose bytes a device has taken: none of
the entries is found. -/
theorem lost_of_persist :
    let c : RunCache := ⟨⟨"/"⟩, single, true⟩
    ∃ e w' v v', c.persist.exec drained = (.error e, w') ∧ Clear c.directory w' ∧
      w'.remove (CachePaths.lock ⟨"/"⟩) = .ok v ∧ c.Unobstructed v ∧
      c.persist.exec v = (.ok { c with dirty := false }, v') ∧
      (load v' c.directory).entries = .empty := by
  intro c
  have hlink : drained.entries.get? ["run_cache.json.tmp"] = some (.link "/null") := by
    simp [drained, SortedMap.get?_ofList]
  have hdevice : drained.entries.get? ["null"] = some .device := by
    simp [drained, SortedMap.get?_ofList]
  have hlock : drained.entries.get? ["run_cache.lock"] = some .directory := by
    simp [drained, SortedMap.get?_ofList]
  have hstore : drained.entries.get? ["run_cache.json"] = none := by
    simp [drained, SortedMap.get?_ofList]
  have hfailed := persist_refused (c := c) rfl (prepare_locked (makeDirectories_root drained)
    (placeOf_eq_ok.2 (inRoot_lock.locate_found hlock (by simp) true))
    (by simp [isDirectoryAt, hlock]) (by decide) (by decide))
  have hclear : Clear ⟨"/"⟩ drained :=
    Scene.clear_of_missing (Scene.storeless_root hstore).missing
  obtain ⟨v, hremove, hnone, hothers⟩ := exists_remove_lock hlock
  rw [← hothers _ (by decide)] at hlink hdevice hstore
  have htemporary : v.openForWriting (CachePaths.temporary ⟨"/"⟩) = .ok ["null"] :=
    openForWriting_found (by decide) (by decide) (inRoot_temporary.placeOf_null hlink hdevice)
      (by simp [isDirectoryAt, hdevice])
  have hfree : c.Unobstructed v :=
    unobstructed_root single true (by simp [hnone]) ⟨_, htemporary⟩
      (by simp [isDirectoryAt, hstore])
  obtain ⟨v', hdone, -, hdrained⟩ :=
    exists_persist_device single (by simp [hnone]) hlink hdevice hstore
  exact ⟨_, drained, v, v', hfailed, hclear, hremove, hfree, hdone,
    (writes_of_persist hdone rfl).lost hdrained⟩

/-- **Failures that leave something else, and a further try that does**: the directory that a
persist or a save makes before it fails can be on the way to a file, and a device keeps nothing of
what a further try writes to it. -/
theorem not_intact :
    (∃ e w', (RunCache.mk ⟨"/logs/.."⟩ single true).persist.exec locked = (.error e, w') ∧
      Clear ⟨"/logs/.."⟩ w' ∧ locked.pathExists (CachePaths.store ⟨"/logs/.."⟩) = false ∧
      w'.pathExists (CachePaths.store ⟨"/logs/.."⟩) = true) ∧
    (∃ e w' v v', (RunCache.mk ⟨"/"⟩ single true).persist.exec drained = (.error e, w') ∧
      Clear ⟨"/"⟩ w' ∧ w'.remove (CachePaths.lock ⟨"/"⟩) = .ok v ∧
      (RunCache.mk ⟨"/"⟩ single true).persist.exec v = (.ok ⟨⟨"/"⟩, single, false⟩, v') ∧
      Storable single ∧ single.size = 1 ∧ (load v' ⟨"/"⟩).entries = .empty) ∧
    ∃ e w', ((Budget.empty .epoch).save ⟨"/logs/../budget.json"⟩).exec blocked = (.error e, w') ∧
      ¬ w'.Aliases (Budget.temporaryPath ⟨"/logs/../budget.json"⟩) ⟨"/logs/../budget.json"⟩ ∧
      blocked.pathExists ⟨"/logs/../budget.json"⟩ = false ∧
      w'.pathExists ⟨"/logs/../budget.json"⟩ = true := by
  refine ⟨revealed_of_persist, ?_, ?_⟩
  · obtain ⟨e, w', v, v', hfailed, hclear, hremove, -, hdone, hlost⟩ := lost_of_persist
    exact ⟨e, w', v, v', hfailed, hclear, hremove, hdone, storable_single, by decide, hlost⟩
  · obtain ⟨w', hsave, halias, hnew, hexists⟩ := revealed_of_save
    exact ⟨_, w', hsave _, halias, hnew, hexists⟩

end Root

end AnalysisGate.RunCache
