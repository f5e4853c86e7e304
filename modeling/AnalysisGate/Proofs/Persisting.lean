import AnalysisGate.Proofs.Sessions
import AnalysisGate.Proofs.Workspace.Reading
import Mathlib

/-!
Steps of a session whatever comes of them.

A persist can fail half way, and the links of a tree can lead anywhere, but a store never shows
anything that no one has put there: afterwards it is what it was, or empty, or what the cache has
(`RunCache.readStore_of_exec`), unless the way to a store that was out of reach has opened. So what
is true of every entry that is recorded, and of every such store, is true of every entry that a
session ever has (`Session.Vouched.performAll`).
-/
namespace AnalysisGate

namespace RunCache

variable {c : RunCache} {w w' : Workspace} {p : Path} {bytes : ByteArray}

/-! ## What a store shows -/

/-- Making the directory of a cache can open the way to a store that was out of reach, as it does
if the way leads up again from a part that was missing; then it is one of some stores. -/
def Opens (known : Set (SortedMap String CacheEntry)) (c : RunCache) (w : Workspace) : Prop :=
  readStore (w.making c.directory) c.storePath = readStore w c.storePath ∨
    readStore (w.making c.directory) c.storePath ∈ known

/-- The root is there already. -/
theorem opens_root (hroot : c.directory = ⟨"/"⟩) (known : Set (SortedMap String CacheEntry))
    (w : Workspace) : Opens known c w := by
  rw [Opens, hroot, Workspace.making_of_ok (Workspace.makeDirectories_root w)]
  exact .inl rfl

/-- What a reader finds in a store after one or another step of a persist. -/
def Offers (known : Set (SortedMap String CacheEntry)) (c : RunCache) (w w' : Workspace) : Prop :=
  readStore w' c.storePath = readStore w c.storePath ∨ readStore w' c.storePath ∈ known ∨
    readStore w' c.storePath = .empty ∨
    readStore w' c.storePath = c.entries.mapValues fun _ e => e.kept

variable {known : Set (SortedMap String CacheEntry)}

theorem Offers.trans {w₁ : Workspace} (h : Offers known c w w₁) (h' : Offers known c w₁ w') :
    Offers known c w w' := by
  rcases h' with h' | h'
  · rw [Offers, h']
    exact h
  · exact .inr h'

theorem Offers.refl (known : Set (SortedMap String CacheEntry)) (c : RunCache) (w : Workspace) :
    Offers known c w w := .inl rfl

/-- What a store shows after a change, from what can be read then. -/
theorem offers_after (h : ∀ bytes, w'.read c.storePath = .ok bytes →
      bytes = .empty ∨ w.read c.storePath = .ok bytes ∨
        decode bytes = some (c.entries.mapValues fun _ e => e.kept)) :
    Offers known c w w' := by
  cases hread : w'.read c.storePath with
  | error e =>
    have hempty : readStore w' c.storePath = .empty := by rw [readStore, hread]
    exact .inr (.inr (.inl hempty))
  | ok bytes =>
    rcases h bytes hread with rfl | hold | hnew
    · have hempty : readStore w' c.storePath = .empty := by simp [readStore, hread, decode_empty]
      exact .inr (.inr (.inl hempty))
    · have hsame : readStore w' c.storePath = readStore w c.storePath := by
        simp [readStore, hread, hold]
      exact .inl hsame
    · have hkept : readStore w' c.storePath = c.entries.mapValues fun _ e => e.kept := by
        simp [readStore, hread, hnew]
      exact .inr (.inr (.inr hkept))

theorem offers_prepare (hopens : Opens known c w) : Offers known c w (c.prepare.exec w).2 := by
  have hmaking : Offers known c w (w.making c.directory) := hopens.imp id .inl
  rw [Workspace.making] at hmaking
  rw [prepare, FileAction.exec_bind, FileAction.exec_makeDirectories]
  cases hmake : w.makeAll c.directory with
  | error x =>
    rw [hmake] at hmaking
    exact hmaking
  | ok w₁ =>
    have hmade : Offers known c w w₁ := by rwa [hmake] at hmaking
    simp only [Except.mapError, openLock, FileAction.exec_change]
    cases hlock : w₁.create (CachePaths.lock c.directory) with
    | error e => exact hmade
    | ok w₂ =>
      refine hmade.trans (offers_after fun bytes hread => ?_)
      exact (Workspace.read_of_create hlock hread).imp id .inl

/-- What is read from the temporary file is what was written to it, if that is kept at all. -/
theorem bytes_of_written {x : Place} (h : Workspace.Written w w' p bytes x) {c : ByteArray}
    (hread : w'.read p = .ok c) : c = bytes ∨ c = .empty := by
  rw [Workspace.read_eq h.place] at hread
  rcases h.kept with hfile | ⟨-, hempty⟩
  · left
    rw [Workspace.bytesAt, hfile] at hread
    split at hread
    · cases hread
    · exact (Except.ok.inj hread).symm
  · rw [hempty] at hread
    exact .inr (Except.ok.inj hread).symm

/-- **After a persist a store shows what it showed, nothing, or what the cache has**, whatever
comes of the persist, or else it is one that the persist has opened the way to. -/
theorem readStore_of_exec (hstorable : c.dirty = true → Storable c.entries)
    (hopens : c.dirty = true → Opens known c w) : Offers known c w (c.persist.exec w).2 := by
  cases hdirty : c.dirty with
  | false =>
    rw [persist, hdirty]
    exact .refl known c w
  | true =>
    -- every step may be the last, so after each the store is one of those that are offered
    have hdecode := decode_encode (hstorable hdirty)
    have hprepare := offers_prepare (hopens hdirty)
    rw [persist, hdirty]
    simp only [Bool.not_true, Bool.false_eq_true, if_false, FileAction.exec_bind]
    rcases hstep : c.prepare.exec w with ⟨e | u, w₁⟩
    · rwa [hstep] at hprepare
    rw [hstep] at hprepare
    simp only [writeTemporary, FileAction.exec_change]
    cases hwrite : w₁.write c.temporaryPath (encode c.entries).toUTF8 with
    | error e => exact hprepare
    | ok w₂ =>
      have hwritten : Offers known c w w₂ := by
        refine hprepare.trans (offers_after fun bytes hread => ?_)
        rcases Workspace.read_of_write hwrite hread with rfl | hold
        · exact .inr (.inr hdecode)
        · exact .inr (.inl hold)
      simp only [Except.mapError, replaceStore, FileAction.exec_change]
      cases hrename : w₂.rename c.temporaryPath c.storePath with
      | error e => exact hwritten
      | ok w₃ =>
        refine hwritten.trans (offers_after fun bytes hread => ?_)
        obtain ⟨x, hx⟩ := Workspace.write_spec hwrite
        obtain ⟨dirs, hsiblings⟩ := siblings_store c
        have hnamed : Workspace.Named "run_cache.json" := ⟨by decide, by decide, by decide⟩
        rcases Workspace.read_of_rename hsiblings hnamed (by decide) hx.place hx.leaf hrename hread
          with rfl | hmoved | hold
        · exact .inl rfl
        · rcases bytes_of_written hx hmoved with rfl | rfl
          · exact .inr (.inr hdecode)
          · exact .inl rfl
        · exact .inr (.inl hold)

end RunCache

/-! ## Steps of a session -/

/-- What is recorded is found. -/
theorem RunCache.lookup_record (c : RunCache) (k : CacheKey) (r : RecordedRun) :
    (c.record k r.fingerprints r.run).lookup k r.fingerprints =
      some (.ofRun r.fingerprints r.run) := by
  rw [lookup, record, SortedMap.get?_insert, if_pos rfl]
  exact Option.filter_eq_some_iff.2 ⟨rfl, decide_eq_true rfl⟩

namespace Session

/-- One step, whatever comes of it: a persist that fails leaves the cache as it is. -/
def perform (s : Session) : CacheStep → Session
  | .record k r => ⟨s.cache.record k r.fingerprints r.run, s.files⟩
  | .invalidate k => ⟨(s.cache.invalidate k).1, s.files⟩
  | .clear => ⟨s.cache.clear, s.files⟩
  | .persist => ⟨(s.cache.persist.exec s.files).1.toOption.getD s.cache,
      (s.cache.persist.exec s.files).2⟩
  | .reload => ⟨.load s.files s.cache.directory, s.files⟩

def performAll (s : Session) (steps : List CacheStep) : Session := steps.foldl perform s

/-- A step that a session does is what it performs. -/
theorem Does.perform {step : CacheStep} {s s' : Session} (h : Does step s s') :
    s.perform step = s' := by
  cases h with
  | record | invalidate | clear | reload => rfl
  | persist hdone =>
    rw [Session.perform, hdone]
    rfl

/-- A step whose entries a store keeps: what is recorded is exact, and what is persisted nests no
deeper than a reader goes and comes upon no store but a known one. -/
def Keeps (known : Set (SortedMap String CacheEntry)) (s : Session) : CacheStep → Prop
  | .record _ r => (CacheEntry.ofRun r.fingerprints r.run).Exact
  | .persist => s.cache.dirty = true →
      (Json.ofMap CacheEntry.toJson s.cache.entries).height ≤ Json.nestingLimit ∧
        RunCache.Opens known s.cache s.files
  | .invalidate _ | .clear | .reload => True

/-- Steps of which each is one whose entries a store keeps. -/
def KeepsAll (known : Set (SortedMap String CacheEntry)) (s : Session) : List CacheStep → Prop
  | [] => True
  | step :: rest => Keeps known s step ∧ KeepsAll known (s.perform step) rest

/-! ## What is true of all entries -/

/-- Every entry under a text has a property, and its values are exact. -/
def AllVouched (P : String → CacheEntry → Prop) (entries : SortedMap String CacheEntry) : Prop :=
  ∀ t e, entries.get? t = some e → e.Exact ∧ P t e

/-- Every entry of a session, in memory and in the store, has a property. -/
structure Vouched (P : String → CacheEntry → Prop) (s : Session) : Prop where
  memory : AllVouched P s.cache.entries
  stored : AllVouched P (RunCache.readStore s.files s.cache.storePath)

variable {P : String → CacheEntry → Prop} {s : Session} {step : CacheStep}
  {entries : SortedMap String CacheEntry} {known : Set (SortedMap String CacheEntry)}

theorem allVouched_empty : AllVouched P .empty := nofun

theorem AllVouched.kept (h : AllVouched P entries) (hkept : ∀ {t e}, P t e → P t e.kept) :
    AllVouched P (entries.mapValues fun _ e => e.kept) := by
  intro t e he
  rw [SortedMap.get?_mapValues, Option.map_eq_some_iff] at he
  obtain ⟨e₀, he₀, rfl⟩ := he
  obtain ⟨hexact, hP⟩ := h t e₀ he₀
  exact ⟨hexact.kept, hkept hP⟩

theorem directory_perform (s : Session) (step : CacheStep) :
    (s.perform step).cache.directory = s.cache.directory := by
  cases step with
  | record | reload => rfl
  | invalidate k =>
    rw [perform, RunCache.invalidate]
    split <;> rfl
  | clear =>
    rw [perform, RunCache.clear]
    split <;> rfl
  | persist =>
    rw [perform]
    rcases hdone : s.cache.persist.exec s.files with ⟨e | c', w'⟩
    · rfl
    · obtain ⟨rfl, -⟩ := RunCache.exec_persist hdone
      rfl

theorem storePath_perform (s : Session) (step : CacheStep) :
    (s.perform step).cache.storePath = s.cache.storePath :=
  congrArg CachePaths.store (directory_perform s step)

theorem storePath_performAll (s : Session) (steps : List CacheStep) :
    (s.performAll steps).cache.storePath = s.cache.storePath := by
  induction steps generalizing s with
  | nil => rfl
  | cons step rest ih => exact (ih (s.perform step)).trans (storePath_perform s step)

theorem entries_perform_persist (s : Session) :
    (s.perform .persist).cache.entries = s.cache.entries := by
  rw [perform]
  rcases hdone : s.cache.persist.exec s.files with ⟨e | c', w'⟩
  · rfl
  · obtain ⟨rfl, -⟩ := RunCache.exec_persist hdone
    rfl

/-- What is recorded and persisted is found, whatever comes of the persist. -/
theorem lookup_performAll (s : Session) (k : CacheKey) (r : RecordedRun) :
    (s.performAll [.record k r, .persist]).cache.lookup k r.fingerprints =
      some (.ofRun r.fingerprints r.run) := by
  rw [← RunCache.lookup_record s.cache k r, RunCache.lookup, RunCache.lookup]
  exact congrArg (fun entries => Option.filter _ (SortedMap.get? entries k.text))
    (entries_perform_persist (s.perform (.record k r)))

/-- What is true of the entries in memory and in the store, and of an entry that is recorded, is
true of the entries in memory after a step. -/
theorem forall_perform {Q : String → CacheEntry → Prop}
    (hmemory : ∀ t e, s.cache.entries.get? t = some e → Q t e)
    (hstored : ∀ t e, (RunCache.readStore s.files s.cache.storePath).get? t = some e → Q t e)
    (hrecord : ∀ k r, step = .record k r → Q k.text (.ofRun r.fingerprints r.run)) :
    ∀ t e, (s.perform step).cache.entries.get? t = some e → Q t e := by
  intro t e he
  cases step with
  | record k r =>
    simp only [perform, RunCache.record, SortedMap.get?_insert] at he
    split at he
    · next htext =>
      cases he
      exact htext ▸ hrecord k r rfl
    · exact hmemory t e he
  | invalidate k =>
    rw [perform, RunCache.invalidate] at he
    split at he
    · simp only [SortedMap.get?_erase] at he
      split at he
      · cases he
      · exact hmemory t e he
    · exact hmemory t e he
  | clear =>
    rw [perform, RunCache.clear] at he
    split at he
    · exact hmemory t e he
    · cases he
  | persist => exact hmemory t e (entries_perform_persist s ▸ he)
  | reload => exact hstored t e he

theorem Vouched.perform (h : Vouched P s) (hkept : ∀ {t e}, P t e → P t e.kept)
    (hknown : ∀ entries ∈ known, AllVouched P entries) (hkeeps : Keeps known s step)
    (hrecord : ∀ k r, step = .record k r → P k.text (.ofRun r.fingerprints r.run)) :
    Vouched P (s.perform step) := by
  have hexact : ∀ k r, step = .record k r →
      (CacheEntry.ofRun r.fingerprints r.run).Exact ∧ P k.text (.ofRun r.fingerprints r.run) := by
    rintro k r rfl
    exact ⟨hkeeps, hrecord k r rfl⟩
  refine ⟨forall_perform h.memory h.stored hexact, ?_⟩
  rw [storePath_perform]
  cases step with
  | record | reload => exact h.stored
  | invalidate k =>
    rw [Session.perform, RunCache.invalidate]
    exact h.stored
  | clear =>
    rw [Session.perform, RunCache.clear]
    exact h.stored
  | persist =>
    have hoffers : RunCache.Offers known s.cache s.files (s.cache.persist.exec s.files).2 :=
      RunCache.readStore_of_exec
        (fun hdirty => ⟨fun e he => (h.memory _ _ (SortedMap.get?_eq_some_iff.2 he)).1,
          (hkeeps hdirty).1⟩) fun hdirty => (hkeeps hdirty).2
    rcases hoffers with hsame | hopened | hempty | hnew
    · exact hsame ▸ h.stored
    · exact hknown _ hopened
    · exact hempty ▸ allVouched_empty
    · exact hnew ▸ h.memory.kept hkept

/-- **What is true of every entry that is recorded is true of every entry that a session has**, if
it is of the known stores. -/
theorem Vouched.performAll {steps : List CacheStep} (h : Vouched P s)
    (hkept : ∀ {t e}, P t e → P t e.kept) (hknown : ∀ entries ∈ known, AllVouched P entries)
    (hkeeps : KeepsAll known s steps)
    (hrecord : ∀ k r, .record k r ∈ steps → P k.text (.ofRun r.fingerprints r.run)) :
    Vouched P (s.performAll steps) := by
  induction steps generalizing s with
  | nil => exact h
  | cons step rest ih =>
    have hstep := h.perform hkept hknown hkeeps.1 fun k r heq =>
      hrecord k r (heq ▸ List.mem_cons_self)
    exact ih hstep hkeeps.2 fun k r hmem => hrecord k r (List.mem_cons_of_mem _ hmem)

theorem vouched_start {w : Workspace} {directory : Path}
    (hempty : RunCache.readStore w (CachePaths.store directory) = .empty) :
    Vouched P (start w directory) := by
  have hstored : RunCache.readStore w (start w directory).cache.storePath = .empty := hempty
  have hmemory : (start w directory).cache.entries = .empty := hempty
  exact ⟨hmemory ▸ allVouched_empty, hstored ▸ allVouched_empty⟩

end Session

end AnalysisGate
