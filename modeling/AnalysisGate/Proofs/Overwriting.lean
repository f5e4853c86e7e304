import AnalysisGate.Proofs.Persisting
import Mathlib

/-!
Caches that overwrite each other's store.

A persist writes a cache as a whole and does not read the store first, so what is in the store is
what the last cache that persisted a change had (`Sharing.Does.stored_of_change`). An entry that one
cache has persisted stays there while all that persist a change afterwards have it too: they are the
one that recorded it, or have loaded since (`Sharing.lookup_of_informed`). A cache with an older
copy takes it out, though no one has touched its key (`Sharing.lookup_of_informed_overwritten`).

Going through the store, doubles may be read as others, so an entry that stays does so up to its
doubles.
-/
namespace AnalysisGate

/-! ## Steps of several caches -/

/-- Caches of one directory and the tree that their store is in. -/
structure Sharing (ι : Type) where
  caches : ι → RunCache
  files : Workspace

namespace Sharing

variable {ι : Type}

/-- Every cache starts with what it loads. -/
def start (ι : Type) (w : Workspace) (directory : Path) : Sharing ι :=
  ⟨fun _ => .load w directory, w⟩

/-- One of the caches with the tree. -/
def session (s : Sharing ι) (i : ι) : Session := ⟨s.caches i, s.files⟩

/-- One step of one cache; the other caches stay as they are. -/
structure Does (i : ι) (step : CacheStep) (s s' : Sharing ι) : Prop where
  own : Session.Does step (s.session i) (s'.session i)
  others : ∀ j, j ≠ i → s'.caches j = s.caches j

/-- Steps of the caches one after the other. -/
inductive DoesAll : List (ι × CacheStep) → Sharing ι → Sharing ι → Prop
  | done (s : Sharing ι) : DoesAll [] s s
  | next {i : ι} {step : CacheStep} {rest : List (ι × CacheStep)} {s s' s'' : Sharing ι}
      (h : Does i step s s') (hrest : DoesAll rest s' s'') : DoesAll ((i, step) :: rest) s s''

end Sharing

/-! ## What one step changes -/

namespace CacheStep

/-- The values of what is recorded have finite doubles only, as all values in memory do. -/
def Finite : CacheStep → Prop
  | record _ r => (CacheEntry.ofRun r.fingerprints r.run).Finite
  | invalidate _ | clear | persist | reload => True

/-- The entry of a text stays as it is: no key of this text is recorded or invalidated, and the
cache is not cleared. -/
def Leaves (t : String) : CacheStep → Prop
  | record k _ | invalidate k => k.text ≠ t
  | clear => False
  | persist | reload => True

end CacheStep

namespace Session

variable {s s' : Session} {step : CacheStep} {t : String}

/-- A cache changes an entry of its own only where the step says so. -/
theorem get?_perform (s : Session) (hleaves : step.Leaves t) (hreload : step ≠ .reload) :
    (s.perform step).cache.entries.get? t = s.cache.entries.get? t := by
  cases step with
  | record k r => rw [perform, RunCache.record, SortedMap.get?_insert, if_neg (Ne.symm hleaves)]
  | invalidate k =>
    rw [perform, RunCache.invalidate]
    split
    · rw [SortedMap.get?_erase, if_neg (Ne.symm hleaves)]
    · rfl
  | clear => exact hleaves.elim
  | persist => rw [entries_perform_persist]
  | reload => exact absurd rfl hreload

/-- Only a persist of a change touches the tree. -/
theorem Does.files_eq (h : Does step s s') (hclean : step = .persist → s.cache.dirty = false) :
    s'.files = s.files := by
  cases h with
  | record | invalidate | clear | reload => rfl
  | persist hdone =>
    obtain ⟨-, ⟨-, rfl⟩ | ⟨hdirty, -⟩⟩ := RunCache.exec_persist hdone
    · rfl
    · cases (hclean rfl).symm.trans hdirty

/-- A persist of a change puts the whole cache in the store. -/
theorem Does.readStore_eq (h : Does .persist s s')
    (hfinite : ∀ t e, s.cache.entries.get? t = some e → e.Finite) (hdirty : s.cache.dirty = true) :
    RunCache.readStore s'.files s.cache.storePath =
      s.cache.entries.mapValues fun _ e => e.reread := by
  cases h with
  | persist hdone hheight hregular =>
    exact RunCache.readStore_rereading hdone hdirty
      (fun e he => hfinite e.1 e.2 (SortedMap.get?_eq_some_iff.2 he)) (hheight hdirty)
      (hregular hdirty)

end Session

/-! ## Stores that are shared -/

namespace Sharing

variable {ι : Type} {directory : Path} {i : ι} {step : CacheStep} {s s' s'' : Sharing ι}
  {steps earlier later : List (ι × CacheStep)} {t : String} {e : CacheEntry}

/-- What a reader finds in the store of a directory. -/
def stored (s : Sharing ι) (directory : Path) : SortedMap String CacheEntry :=
  RunCache.readStore s.files (CachePaths.store directory)

/-- All caches have the store of one directory, and values of finite doubles only. -/
structure Sound (directory : Path) (s : Sharing ι) : Prop where
  paths : ∀ i, (s.caches i).storePath = CachePaths.store directory
  finite : ∀ i t e, (s.caches i).entries.get? t = some e → e.Finite

theorem sound_start (w : Workspace) (directory : Path) : Sound directory (start ι w directory) :=
  ⟨fun _ => rfl, fun _ _ _ => RunCache.finite_of_readStore⟩

theorem Does.cache_eq (h : Does i step s s') :
    s'.caches i = ((s.session i).perform step).cache :=
  (congrArg Session.cache h.own.perform).symm

/-- A persist of a change puts the whole cache in the store. -/
theorem Does.stored_of_change (h : Does i .persist s s') (hs : Sound directory s)
    (hdirty : (s.caches i).dirty = true) :
    s'.stored directory = (s.caches i).entries.mapValues fun _ e => e.reread := by
  rw [stored, ← hs.paths i]
  exact h.own.readStore_eq (hs.finite i) hdirty

/-- No other step changes the store. -/
theorem Does.stored_of_clean (h : Does i step s s')
    (hclean : step = .persist → (s.caches i).dirty = false) :
    s'.stored directory = s.stored directory :=
  congrArg (RunCache.readStore · (CachePaths.store directory)) (h.own.files_eq hclean)

theorem Does.sound (h : Does i step s s') (hs : Sound directory s) (hfinite : step.Finite) :
    Sound directory s' := by
  refine ⟨fun j => ?_, fun j => ?_⟩
  · by_cases hj : j = i
    · rw [hj, h.cache_eq, Session.storePath_perform]
      exact hs.paths i
    · rw [h.others j hj]
      exact hs.paths j
  · by_cases hj : j = i
    · rw [hj, h.cache_eq]
      exact Session.forall_perform (Q := fun _ e => e.Finite) (hs.finite i)
        (fun _ _ => RunCache.finite_of_readStore) (by rintro k r rfl; exact hfinite)
    · rw [h.others j hj]
      exact hs.finite j

theorem DoesAll.sound (h : DoesAll steps s s') (hs : Sound directory s)
    (hfinite : ∀ x ∈ steps, x.2.Finite) : Sound directory s' := by
  induction h with
  | done s => exact hs
  | next hstep _ ih =>
    rw [List.forall_mem_cons] at hfinite
    exact ih (hstep.sound hs hfinite.1) hfinite.2

/-! ## Entries that stay -/

/-- Whoever persists a change on the way is one of some caches, or has loaded before. -/
def Informed (known : Set ι) (s : Sharing ι) (steps : List (ι × CacheStep)) : Prop :=
  ∀ earlier i later u, steps = earlier ++ (i, .persist) :: later → DoesAll earlier s u →
    (u.caches i).dirty = true → i ∈ known ∨ (i, .reload) ∈ earlier

variable {known : Set ι}

theorem Informed.first (h : Informed known s ((i, .persist) :: steps))
    (hdirty : (s.caches i).dirty = true) : i ∈ known := by
  rcases h [] i steps s rfl (.done s) hdirty with hmem | hmem
  · exact hmem
  · cases hmem

theorem Informed.rest (h : Informed known s ((i, step) :: steps)) (hstep : Does i step s s') :
    Informed (known ∪ {j | j = i ∧ step = .reload}) s' steps := by
  intro earlier j later u heq hsteps hdirty
  have hwhole : (i, step) :: steps = ((i, step) :: earlier) ++ (j, .persist) :: later := by
    rw [heq, List.cons_append]
  rcases h _ j later u hwhole (.next hstep hsteps) hdirty with hmem | hmem
  · exact .inl (.inl hmem)
  · rcases List.mem_cons.1 hmem with heq | hmem
    · cases heq
      exact .inl (.inr ⟨rfl, rfl⟩)
    · exact .inr hmem

/-- The store has an entry of an outline under a text, and so have some caches. -/
structure Retains (directory : Path) (t : String) (e : CacheEntry) (known : Set ι)
    (s : Sharing ι) : Prop where
  stored : ((s.stored directory).get? t).map CacheEntry.outline = some e
  copies : ∀ i ∈ known, ((s.caches i).entries.get? t).map CacheEntry.outline = some e

/-- What the store is given is what a cache has, up to doubles. -/
theorem get?_reread (entries : SortedMap String CacheEntry) (t : String) :
    ((entries.mapValues fun _ e => e.reread).get? t).map CacheEntry.outline =
      (entries.get? t).map CacheEntry.outline := by
  rw [SortedMap.get?_mapValues, Option.map_map]
  congr 1
  funext e
  exact e.outline_reread

/-- One step leaves the entry where it is, unless it persists a change of a cache without it; and
who loads has it. -/
theorem Retains.does (h : Retains directory t e known s) (hs : Sound directory s)
    (hstep : Does i step s s') (hleaves : step.Leaves t)
    (hinformed : step = .persist → (s.caches i).dirty = true → i ∈ known) :
    Retains directory t e (known ∪ {j | j = i ∧ step = .reload}) s' := by
  constructor
  · by_cases hchange : step = .persist ∧ (s.caches i).dirty = true
    · obtain ⟨rfl, hdirty⟩ := hchange
      rw [hstep.stored_of_change hs hdirty, get?_reread]
      exact h.copies i (hinformed rfl hdirty)
    · rw [hstep.stored_of_clean fun hpersist => by simpa [hpersist] using hchange]
      exact h.stored
  · intro j hj
    by_cases hji : j = i
    · subst hji
      rw [hstep.cache_eq]
      by_cases hreload : step = .reload
      · subst hreload
        have hloaded : ((s.session j).perform .reload).cache.entries = s.stored directory :=
          congrArg (RunCache.readStore s.files) (hs.paths j)
        rw [hloaded]
        exact h.stored
      · rw [Session.get?_perform _ hleaves hreload]
        exact h.copies j (hj.resolve_right fun hloads => hreload hloads.2)
    · rw [hstep.others j hji]
      exact h.copies j (hj.resolve_right fun hloads => hji hloads.1)

theorem Retains.doesAll (hsteps : DoesAll steps s s') (h : Retains directory t e known s)
    (hs : Sound directory s) (hfinite : ∀ x ∈ steps, x.2.Finite)
    (hleaves : ∀ x ∈ steps, x.2.Leaves t) (hinformed : Informed known s steps) :
    ∃ known', Retains directory t e known' s' := by
  induction hsteps generalizing known with
  | done s => exact ⟨known, h⟩
  | next hstep _ ih =>
    rw [List.forall_mem_cons] at hfinite hleaves
    have hfirst := h.does hs hstep hleaves.1 fun hpersist hdirty => by
      subst hpersist
      exact hinformed.first hdirty
    exact ih hfirst (hstep.sound hs hfinite.1) hfinite.2 hleaves.2 (hinformed.rest hstep)

/-- What a cache has recorded it has, until it says otherwise or loads. -/
theorem DoesAll.get?_eq (hsteps : DoesAll steps s s')
    (hkeeps : ∀ step, (i, step) ∈ steps → step.Leaves t ∧ step ≠ .reload) :
    (s'.caches i).entries.get? t = (s.caches i).entries.get? t := by
  induction hsteps with
  | done s => rfl
  | @next j step rest s s₁ s' hstep _ ih =>
    rw [ih fun step hmem => hkeeps step (List.mem_cons_of_mem _ hmem)]
    by_cases hji : j = i
    · subst hji
      obtain ⟨hleaves, hreload⟩ := hkeeps step List.mem_cons_self
      rw [hstep.cache_eq]
      exact Session.get?_perform _ hleaves hreload
    · rw [hstep.others i (Ne.symm hji)]

/-- An entry is found by whoever loads a store that has it, and as it was recorded if it has no
doubles. -/
theorem lookup_load {k : CacheKey} {r : RecordedRun} {w : Workspace}
    (h : ((RunCache.readStore w (CachePaths.store directory)).get? k.text).map CacheEntry.outline =
      some r.entry.outline) :
    ∃ e, (RunCache.load w directory).lookup k r.fingerprints = some e ∧
      e.outline = r.entry.outline ∧ (r.entry.Exact → e.kept = r.entry) := by
  obtain ⟨e, he, houtline⟩ := Option.map_eq_some_iff.1 h
  have hfingerprints : e.fingerprints = r.fingerprints :=
    congrArg CacheEntry.fingerprints houtline
  refine ⟨e, ?_, houtline, fun hexact => ?_⟩
  · rw [RunCache.lookup, RunCache.load, he]
    simp [Option.filter, hfingerprints]
  · rw [CacheEntry.eq_of_outline houtline hexact, RecordedRun.entry, CacheEntry.kept_kept]

theorem DoesAll.split (h : DoesAll (earlier ++ later) s s') :
    ∃ u, DoesAll earlier s u ∧ DoesAll later u s' := by
  induction earlier generalizing s with
  | nil => exact ⟨s, .done s, h⟩
  | cons x earlier ih =>
    cases h with
    | next hstep hrest =>
      obtain ⟨u, hearlier, hlater⟩ := ih hrest
      exact ⟨u, .next hstep hearlier, hlater⟩

/-- **A persisted entry stays in the store while all that persist a change have it too**: they are
the cache that recorded it, or have loaded since. A cache that persists a change without having it
takes it out, and one that leaves no file in the place of the store or a document that nests too
deep takes out everything. -/
theorem lookup_of_informed {w : Workspace} {before between after : List (ι × CacheStep)}
    {k : CacheKey} {r : RecordedRun} {s₁ s₂ s₃ : Sharing ι}
    (hfinite : ∀ x ∈ before ++ (i, .record k r) :: between ++ after, x.2.Finite)
    (hbefore : DoesAll (before ++ (i, .record k r) :: between) (start ι w directory) s₁)
    (hkeeps : ∀ step, (i, step) ∈ between → step.Leaves k.text ∧ step ≠ .reload)
    (hdirty : (s₁.caches i).dirty = true) (hpersist : Does i .persist s₁ s₂)
    (hafter : DoesAll after s₂ s₃) (hleaves : ∀ x ∈ after, x.2.Leaves k.text)
    (hinformed : Informed {i} s₂ after) :
    (∃ e, (RunCache.load s₃.files directory).lookup k r.fingerprints = some e ∧
        e.outline = r.entry.outline ∧ (r.entry.Exact → e.kept = r.entry)) ∧
      (∀ j s₄, Does j .persist s₃ s₄ → (s₃.caches j).dirty = true →
        (s₃.caches j).entries.get? k.text = none →
        ∀ current, (RunCache.load s₄.files directory).lookup k current = none) ∧
      ∀ j c w', (s₃.caches j).persist.exec s₃.files = (.ok c, w') → (s₃.caches j).dirty = true →
        Json.nestingLimit < (Json.ofMap CacheEntry.toJson (s₃.caches j).entries).height ∨
          w'.isRegular (s₃.caches j).storePath = false →
        ∀ k' current, (RunCache.load w' directory).lookup k' current = none := by
  rw [List.forall_mem_append] at hfinite
  have hsound₁ := hbefore.sound (sound_start w directory) hfinite.1
  have hsound₂ := hpersist.sound hsound₁ trivial
  have hsound₃ := hafter.sound hsound₂ hfinite.2
  refine ⟨?_, fun j s₄ hlast hchange hwithout current => ?_,
    fun j c w' hdone hchange hlost k' current => ?_⟩
  · -- the cache still has the entry when it persists, and then so has the store
    obtain ⟨s, hsteps, hrest⟩ := hbefore.split
    cases hrest with
    | @next _ _ _ _ s₀ _ hrecord hbetween =>
      have hrecorded : (s₀.caches i).entries.get? k.text =
          some (.ofRun r.fingerprints r.run) := by
        rw [hrecord.cache_eq, Session.perform, RunCache.record, SortedMap.get?_insert, if_pos rfl]
      have hheld : ((s₁.caches i).entries.get? k.text).map CacheEntry.outline =
          some r.entry.outline := by
        rw [hbetween.get?_eq hkeeps, hrecorded, Option.map_some, RecordedRun.entry,
          CacheEntry.outline_kept]
      have hpersisted : Retains directory k.text r.entry.outline {i} s₂ := by
        constructor
        · rw [hpersist.stored_of_change hsound₁ hdirty, get?_reread]
          exact hheld
        · intro j hj
          rw [Set.mem_singleton_iff.1 hj, hpersist.cache_eq, Session.entries_perform_persist]
          exact hheld
      obtain ⟨known, hretained⟩ := Retains.doesAll hafter hpersisted hsound₂ hfinite.2 hleaves
        hinformed
      exact lookup_load hretained.stored
  · have hlost : (s₄.stored directory).get? k.text = none := by
      rw [hlast.stored_of_change hsound₃ hchange, SortedMap.get?_mapValues, hwithout]
      rfl
    rw [stored] at hlost
    rw [RunCache.lookup, RunCache.load, hlost]
    rfl
  · refine RunCache.lookup_load_of_empty ?_ k' current
    rw [← hsound₃.paths j]
    rcases hlost with hdeep | hnone
    · exact RunCache.readStore_of_deep hdone hchange
        (fun e he => hsound₃.finite j e.1 e.2 (SortedMap.get?_eq_some_iff.2 he)) hdeep
    · exact RunCache.readStore_of_not_regular hnone

end Sharing

/-! ## Two caches of the root -/

namespace Sharing

section Root

/-- A cache of the root with plain entries is persisted by a step of its session. -/
theorem exists_does_persist {entries : SortedMap String CacheEntry} {w : Workspace}
    (hroom : RunCache.Room w) (hplain : AllPlain entries) :
    ∃ w', Session.Does .persist ⟨⟨⟨"/"⟩, entries, true⟩, w⟩ ⟨⟨⟨"/"⟩, entries, false⟩, w'⟩ ∧
      RunCache.Room w' := by
  obtain ⟨w', hdone, hregular, hroom'⟩ := RunCache.exists_persist_of_room entries hroom
  exact ⟨w', .persist hdone (fun _ => hplain.height) fun _ => hregular, hroom'⟩

/-- Keys of a strict and of a loose run have different texts. -/
theorem text_strict_ne :
    (CacheKey.ofPaths "strict" "lint" ["a.py"]).text ≠
      (CacheKey.ofPaths "loose" "lint" ["a.py"]).text := by
  intro h
  have hhead := congrArg (fun text : String => text.toList.head?) h
  simp [CacheKey.text, CacheKey.ofPaths] at hhead

/-- Two caches with their tree. -/
def pair (first second : RunCache) (w : Workspace) : Sharing Bool :=
  ⟨fun b => bif b then second else first, w⟩

theorem start_eq_pair (w : Workspace) (directory : Path) :
    start Bool w directory = pair (.load w directory) (.load w directory) w := by
  rw [start, pair]
  congr 1
  funext b
  cases b <;> rfl

theorem does_first {c c' second : RunCache} {w w' : Workspace} {step : CacheStep}
    (h : Session.Does step ⟨c, w⟩ ⟨c', w'⟩) :
    Does false step (pair c second w) (pair c' second w') where
  own := h
  others j hj := by
    cases j with
    | false => exact absurd rfl hj
    | true => rfl

theorem does_second {c c' first : RunCache} {w w' : Workspace} {step : CacheStep}
    (h : Session.Does step ⟨c, w⟩ ⟨c', w'⟩) :
    Does true step (pair first c w) (pair first c' w') where
  own := h
  others j hj := by
    cases j with
    | false => rfl
    | true => exact absurd rfl hj

/-- In an empty tree the first of two caches of the root records a plain run and persists it. -/
theorem exists_persisted (k : CacheKey) :
    let w : Workspace := ⟨.empty, [], 0⟩
    let entries : SortedMap String CacheEntry := SortedMap.empty.insert k.text CacheEntry.plain
    ∃ w', RunCache.Room w' ∧
      (∀ t, (RunCache.readStore w' (CachePaths.store ⟨"/"⟩)).get? t = entries.get? t) ∧
      Does false (.record k RecordedRun.plain) (start Bool w ⟨"/"⟩)
        (pair ⟨⟨"/"⟩, entries, true⟩ ⟨⟨"/"⟩, .empty, false⟩ w) ∧
      Does false .persist (pair ⟨⟨"/"⟩, entries, true⟩ ⟨⟨"/"⟩, .empty, false⟩ w)
        (pair ⟨⟨"/"⟩, entries, false⟩ ⟨⟨"/"⟩, .empty, false⟩ w') := by
  intro w entries
  have hload : RunCache.load w ⟨"/"⟩ = ⟨⟨"/"⟩, .empty, false⟩ := by
    rw [RunCache.load, RunCache.readStore_root rfl]
  have hplain : AllPlain entries := AllPlain.empty.insert k.text
  obtain ⟨w', hpersist, hroom⟩ := exists_does_persist (RunCache.room_empty 0) hplain
  refine ⟨w', hroom, fun t => ?_, ?_, does_first hpersist⟩
  · have hstore := hpersist.readStore_eq
      (fun t e he => (hplain.exact t e he).finite) rfl
    rw [RunCache.storePath] at hstore
    rw [hstore, SortedMap.get?_mapValues]
    cases he : entries.get? t with
    | none => rfl
    | some e =>
      rw [hplain t e he]
      rfl
  · rw [start_eq_pair, hload]
    exact does_first (.record ⟨⟨"/"⟩, .empty, false⟩ w k RecordedRun.plain)

/-- An entry that the first of two caches persists is found after the second has loaded, recorded a
run of its own and persisted it. -/
theorem lookup_of_informed_reloaded :
    let k : CacheKey := .ofPaths "strict" "lint" ["a.py"]
    let k' : CacheKey := .ofPaths "loose" "lint" ["a.py"]
    let after : List (Bool × CacheStep) :=
      [(true, .reload), (true, .record k' RecordedRun.plain), (true, .persist)]
    ∃ s₁ s₂ s₃,
      DoesAll [(false, .record k RecordedRun.plain)] (start Bool ⟨.empty, [], 0⟩ ⟨"/"⟩) s₁ ∧
      (s₁.caches false).dirty = true ∧ Does false .persist s₁ s₂ ∧ DoesAll after s₂ s₃ ∧
      (∀ x ∈ after, x.2.Leaves k.text) ∧ Informed {false} s₂ after ∧
      ∃ e, (RunCache.load s₃.files ⟨"/"⟩).lookup k RecordedRun.plain.fingerprints = some e ∧
        e.kept = RecordedRun.plain.entry := by
  intro k k' after
  obtain ⟨w₁, hroom, hstore, hrecord, hpersist⟩ := exists_persisted k
  generalize hentries : SortedMap.empty.insert k.text CacheEntry.plain = entries
    at hstore hrecord hpersist
  let loaded := RunCache.readStore w₁ (CachePaths.store ⟨"/"⟩)
  have hloaded : AllPlain loaded := by
    intro t e he
    rw [hstore, ← hentries] at he
    exact AllPlain.empty.insert k.text t e he
  have hplain : AllPlain (loaded.insert k'.text CacheEntry.plain) := hloaded.insert k'.text
  obtain ⟨w₂, hpersist', -⟩ := exists_does_persist hroom hplain
  have hafter : DoesAll after (pair ⟨⟨"/"⟩, entries, false⟩ ⟨⟨"/"⟩, .empty, false⟩ w₁) _ :=
    .next (does_second (.reload ⟨⟨"/"⟩, .empty, false⟩ w₁))
      (.next (does_second (.record ⟨⟨"/"⟩, loaded, false⟩ w₁ k' RecordedRun.plain))
        (.next (does_second hpersist') (.done _)))
  have hleaves : ∀ x ∈ after, x.2.Leaves k.text := by
    simp [after, CacheStep.Leaves, k, k', text_strict_ne.symm]
  have hinformed : Informed {false}
      (pair ⟨⟨"/"⟩, entries, false⟩ ⟨⟨"/"⟩, .empty, false⟩ w₁) after := by
    intro earlier i later u heq _ _
    rcases earlier with _ | ⟨x, earlier⟩
    · simp [after] at heq
    · obtain ⟨rfl, htail⟩ := List.cons.inj heq
      have hmem : (i, CacheStep.persist) ∈
          [(true, .record k' RecordedRun.plain), (true, .persist)] := by
        rw [htail]
        simp
      have hi : i = true := by simpa using hmem
      exact .inr (hi ▸ List.mem_cons_self)
  have hfinite : ∀ x ∈ [] ++ (false, CacheStep.record k .plain) :: [] ++ after, x.2.Finite := by
    simp [after, CacheStep.Finite, RecordedRun.exact_plain.finite]
  obtain ⟨e, hfound, -, hexactly⟩ := (lookup_of_informed hfinite (.next hrecord (.done _)) (by simp)
    rfl hpersist hafter hleaves hinformed).1
  exact ⟨_, _, _, .next hrecord (.done _), rfl, hpersist, hafter, hleaves, hinformed, e, hfound,
    hexactly RecordedRun.exact_plain.kept⟩

/-- The second of two caches, which has loaded before the first persists, persists a run of its own:
the entry of the first is lost, though no one has touched its key. -/
theorem lookup_of_informed_overwritten :
    let k : CacheKey := .ofPaths "strict" "lint" ["a.py"]
    let k' : CacheKey := .ofPaths "loose" "lint" ["a.py"]
    let after : List (Bool × CacheStep) := [(true, .record k' RecordedRun.plain), (true, .persist)]
    ∃ s₁ s₂ s₃,
      DoesAll [(false, .record k RecordedRun.plain)] (start Bool ⟨.empty, [], 0⟩ ⟨"/"⟩) s₁ ∧
      (s₁.caches false).dirty = true ∧ Does false .persist s₁ s₂ ∧ DoesAll after s₂ s₃ ∧
      (∀ x ∈ after, x.2.Leaves k.text) ∧
      ∀ current, (RunCache.load s₃.files ⟨"/"⟩).lookup k current = none := by
  intro k k' after
  obtain ⟨w₁, hroom, -, hrecord, hpersist⟩ := exists_persisted k
  let own : SortedMap String CacheEntry := SortedMap.empty.insert k'.text CacheEntry.plain
  have hplain : AllPlain own := AllPlain.empty.insert k'.text
  obtain ⟨w₂, hpersist', -⟩ := exists_does_persist hroom hplain
  have hstore : RunCache.readStore w₂ (CachePaths.store ⟨"/"⟩) =
      own.mapValues fun _ e => e.reread :=
    hpersist'.readStore_eq (fun t e he => (hplain.exact t e he).finite) rfl
  refine ⟨_, _, _, .next hrecord (.done _), rfl, hpersist,
    .next (does_second (.record ⟨⟨"/"⟩, .empty, false⟩ w₁ k' RecordedRun.plain))
      (.next (does_second hpersist') (.done _)), ?_, fun current => ?_⟩
  · simp [after, CacheStep.Leaves, k, k', text_strict_ne.symm]
  · have hlost : (RunCache.readStore w₂ (CachePaths.store ⟨"/"⟩)).get? k.text = none := by
      rw [hstore, SortedMap.get?_mapValues, SortedMap.get?_insert, if_neg text_strict_ne]
      rfl
    change ((RunCache.readStore w₂ (CachePaths.store ⟨"/"⟩)).get? k.text).filter _ = none
    rw [hlost]
    rfl

end Root

end Sharing

end AnalysisGate
