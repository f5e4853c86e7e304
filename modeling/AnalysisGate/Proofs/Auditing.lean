import AnalysisGate.Proofs.Collecting
import AnalysisGate.Proofs.Persisting
import Mathlib

/-!
Audits with a run cache.

An audit takes the fingerprints of its files and looks its key up; only if nothing is found does
the analyzer run, and then its run is recorded and persisted. Between audits the tree may be edited
in any way, the store may be lost or damaged, and the cache may be loaded again. Still every audit
gives what the analyzer gives for the tree as it stands (`Auditor.audit_eq_run`): each entry that
a look-up can find, in memory or in the store, is of a run on a tree with the same fingerprints.
-/
namespace AnalysisGate

/-- What audits have in common. What the analyzer gives depends on the key, and on the states of
the files that are taken. -/
structure Auditor where
  root : Path
  targets : List Path
  options : CollectOptions
  analyze : CacheKey → SortedMap String FileState → AnalyzerRun

/-- What happens in a history: the tree becomes another one, the cache is loaded again, or there is
an audit under a key. -/
inductive AuditStep
  | edit (w : Workspace)
  | reload
  | audit (k : CacheKey)

namespace Auditor

/-- No baseline is used. -/
def collectOptions (a : Auditor) : CollectOptions := { a.options with baseline := none }

def fingerprints (a : Auditor) (w : Workspace) : FingerprintMap :=
  (Collection.collect w a.root a.targets a.collectOptions).fingerprints

def states (a : Auditor) (w : Workspace) : SortedMap String FileState :=
  Collection.states w a.root a.targets a.collectOptions

/-- The run of the analyzer on a tree. -/
def run (a : Auditor) (k : CacheKey) (w : Workspace) : AnalyzerRun := a.analyze k (a.states w)

/-- That run with the fingerprints of the tree. -/
def recorded (a : Auditor) (k : CacheKey) (w : Workspace) : RecordedRun :=
  ⟨a.fingerprints w, a.run k w⟩

/-- The diagnostics of an audit, and the session after it. -/
def audit (a : Auditor) (k : CacheKey) (s : Session) : List Diagnostic × Session :=
  match s.cache.lookup k (a.fingerprints s.files) with
  | some e => (e.diagnostics, s)
  | none =>
    let r := a.recorded k s.files
    ((CacheEntry.ofRun r.fingerprints r.run).diagnostics, s.performAll [.record k r, .persist])

def perform (a : Auditor) (s : Session) : AuditStep → Session
  | .edit w => ⟨s.cache, w⟩
  | .reload => s.perform .reload
  | .audit k => (a.audit k s).2

def performAll (a : Auditor) (s : Session) (steps : List AuditStep) : Session :=
  steps.foldl a.perform s

/-- The bytes that are taken from a tree are among those met. -/
def Meets (a : Auditor) (met : Set ByteArray) (w : Workspace) : Prop :=
  ∀ name bytes, (a.states w).get? name = some (.content bytes) → bytes ∈ met

/-- A step that leaves the store to the audits: an edit may remove or damage it, let it be, or put
back what it showed before, and what an audit records is kept by a store. -/
def Fair (a : Auditor) (keys : Set CacheKey) (met : Set ByteArray)
    (shown : Set (SortedMap String CacheEntry)) (s : Session) : AuditStep → Prop
  | .edit w => RunCache.readStore w s.cache.storePath ∈ shown
  | .reload => True
  | .audit k => k ∈ keys ∧ a.Meets met s.files ∧
      (s.cache.lookup k (a.fingerprints s.files) = none →
        Session.KeepsAll shown s [.record k (a.recorded k s.files), .persist])

/-- Steps of which each leaves the store to the audits; after each of them one more store has been
shown. -/
def FairAll (a : Auditor) (keys : Set CacheKey) (met : Set ByteArray)
    (shown : Set (SortedMap String CacheEntry)) (s : Session) : List AuditStep → Prop
  | [] => True
  | step :: rest =>
    let s' := a.perform s step
    a.Fair keys met shown s step ∧
      a.FairAll keys met (insert (RunCache.readStore s'.files s'.cache.storePath) shown) s' rest

/-- An entry under a text is of a run on some tree, for each key of that text. -/
def Stands (a : Auditor) (keys : Set CacheKey) (met : Set ByteArray) (t : String)
    (e : CacheEntry) : Prop :=
  ∀ k ∈ keys, k.text = t → ∃ w, a.Meets met w ∧ e.fingerprints = a.fingerprints w ∧
    e.diagnostics = Diagnostic.sort (a.run k w).diagnostics

variable {a : Auditor} {keys : Set CacheKey} {met : Set ByteArray} {s : Session} {k : CacheKey}
  {t : String} {e : CacheEntry} {w : Workspace} {shown : Set (SortedMap String CacheEntry)}

theorem Stands.kept (h : a.Stands keys met t e) : a.Stands keys met t e.kept := h

theorem stands_recorded (hkeys : keys.InjOn CacheKey.text) (hk : k ∈ keys) (hmet : a.Meets met w) :
    a.Stands keys met k.text (.ofRun (a.recorded k w).fingerprints (a.recorded k w).run) := by
  intro k' hk' htext
  obtain rfl := hkeys hk' hk htext
  exact ⟨w, hmet, rfl, rfl⟩

/-- **Trees with the same fingerprints have the same runs.** -/
theorem run_eq (hdigest : met.InjOn Xxh3.hex) {w' : Workspace} (hmet : a.Meets met w)
    (hmet' : a.Meets met w') (h : a.fingerprints w = a.fingerprints w') (k : CacheKey) :
    a.run k w = a.run k w' := by
  have hstates : a.states w = a.states w' :=
    Collection.states_eq hdigest (o := a.collectOptions) rfl hmet hmet' h
  rw [run, run, hstates]

/-- What is found for a tree is the run on it. -/
theorem diagnostics_of_lookup (hdigest : met.InjOn Xxh3.hex)
    (h : s.Vouched (a.Stands keys met)) (hk : k ∈ keys) (hmet : a.Meets met s.files)
    (hfound : s.cache.lookup k (a.fingerprints s.files) = some e) :
    e.diagnostics = Diagnostic.sort (a.run k s.files).diagnostics := by
  rw [RunCache.lookup, Option.filter_eq_some_iff] at hfound
  obtain ⟨hentry, hcurrent⟩ := hfound
  obtain ⟨w, hw, hfingerprints, hdiagnostics⟩ := (h.memory _ e hentry).2 k hk rfl
  have hsame : a.fingerprints w = a.fingerprints s.files :=
    hfingerprints.symm.trans (of_decide_eq_true hcurrent)
  rw [hdiagnostics, run_eq hdigest hw hmet hsame]

theorem vouched_perform (hkeys : keys.InjOn CacheKey.text) {step : AuditStep}
    (h : s.Vouched (a.Stands keys met))
    (hshown : ∀ entries ∈ shown, Session.AllVouched (a.Stands keys met) entries)
    (hfair : a.Fair keys met shown s step) : (a.perform s step).Vouched (a.Stands keys met) := by
  cases step with
  | edit w => exact ⟨h.memory, hshown _ hfair⟩
  | reload => exact ⟨h.stored, h.stored⟩
  | audit k =>
    obtain ⟨hk, hmet, hkeeps⟩ := hfair
    rw [perform, audit]
    split
    · exact h
    · next hmiss =>
      refine h.performAll Stands.kept hshown (hkeeps hmiss) fun k' r hmem => ?_
      obtain ⟨rfl, rfl⟩ : k' = k ∧ r = a.recorded k s.files := by simpa using hmem
      exact stands_recorded hkeys hk hmet

theorem vouched_performAll (hkeys : keys.InjOn CacheKey.text) {steps : List AuditStep}
    (h : s.Vouched (a.Stands keys met))
    (hshown : ∀ entries ∈ shown, Session.AllVouched (a.Stands keys met) entries)
    (hfair : a.FairAll keys met shown s steps) :
    (a.performAll s steps).Vouched (a.Stands keys met) := by
  induction steps generalizing s shown with
  | nil => exact h
  | cons step rest ih =>
    -- what the step leaves in the store can be put back by any later edit
    have hstep := vouched_perform hkeys h hshown hfair.1
    refine ih hstep (fun entries hentries => ?_) hfair.2
    rcases hentries with rfl | hentries
    · exact hstep.stored
    · exact hshown entries hentries

/-- **Caching is transparent.** After any history in which only audits write the store, an audit
gives the diagnostics of the analyzer's run on the tree as it stands, sorted, whether they are
found or the analyzer runs. -/
theorem audit_eq_run (hdigest : met.InjOn Xxh3.hex)
    (hkeys : keys.InjOn fun k => Sha256.hex k.canonicalText) {directory : Path}
    (hempty : RunCache.readStore w (CachePaths.store directory) = .empty) {steps : List AuditStep}
    (hfair : a.FairAll keys met {.empty} (.start w directory) steps)
    (hsteps : a.performAll (.start w directory) steps = s) (hk : k ∈ keys)
    (hmet : a.Meets met s.files) :
    (a.audit k s).1 = Diagnostic.sort (a.run k s.files).diagnostics := by
  have htexts : keys.InjOn CacheKey.text := fun k hk k' hk' htext =>
    hkeys hk hk' (CacheKey.hex_of_text htext)
  have hvouched := vouched_performAll htexts (Session.vouched_start hempty)
    (fun _ hshown => Set.mem_singleton_iff.1 hshown ▸ Session.allVouched_empty) hfair
  rw [hsteps] at hvouched
  rw [audit]
  split
  · next e hfound => exact diagnostics_of_lookup hdigest hvouched hk hmet hfound
  · rfl

/-- What an audit is of is found by the next one, whether the store could be written or not. -/
theorem lookup_after_audit (a : Auditor) (k : CacheKey) (s : Session) :
    ((a.audit k s).2.cache.lookup k (a.fingerprints s.files)).isSome = true := by
  rw [Option.isSome_iff_exists, audit]
  split
  · next e hfound => exact ⟨e, hfound⟩
  · exact ⟨_, Session.lookup_performAll s k (a.recorded k s.files)⟩

theorem storePath_audit (a : Auditor) (k : CacheKey) (s : Session) :
    (a.audit k s).2.cache.storePath = s.cache.storePath := by
  rw [audit]
  split
  · rfl
  · exact Session.storePath_performAll s _

open Workspace in
/-- A file is audited, and then its tree is put back as it was, without a store: the diagnostics
are found in memory, and they are those of the file. -/
theorem audit_eq_run_found :
    let k : CacheKey := .ofPaths "lint" "strict" ["a.py"]
    let d : Diagnostic := ⟨"a.py", 1, 1, "error", none, "bad"⟩
    let a : Auditor := ⟨⟨"/"⟩, [⟨"/a.py"⟩], ⟨[], false, none, none, none⟩, fun _ states =>
      ⟨["lint", "a.py"], 1, 20, match states.get? "a.py" with
        | some (.content bytes) => List.replicate bytes.size d
        | _ => [], .empty, none⟩⟩
    let w : Workspace := ⟨.ofList [(["a.py"], .file "!".toUTF8 0)], [], 0⟩
    let s := a.performAll (.start w ⟨"/"⟩) [.audit k, .edit w]
    (s.cache.lookup k (a.fingerprints s.files)).isSome = true ∧ (a.audit k s).1 = [d] := by
  intro k d a w s
  have hname : InRoot ⟨"/a.py"⟩ "a.py" :=
    ⟨by decide, by decide, by decide, by decide, by decide, by decide⟩
  have hentry : w.entries.get? ["a.py"] = some (.file "!".toUTF8 0) := rfl
  have hplace : w.placeOf ⟨"/a.py"⟩ = .ok ["a.py"] :=
    placeOf_eq_ok.2 (hname.locate_found hentry (by simp) true)
  have hstat : w.stat ⟨"/a.py"⟩ = .ok (.regular 1 0) := by
    rw [stat, hplace]
    rfl
  have hread : w.read ⟨"/a.py"⟩ = .ok "!".toUTF8 := by
    rw [read_eq hplace, bytesAt, hentry]
    rfl
  have htaken : Collection.taken w a.root a.targets a.collectOptions = [("a.py", ⟨"/a.py"⟩)] := by
    have hjoin : a.root.join ⟨"/a.py"⟩ = ⟨"/a.py"⟩ := by decide
    have hkey : a.root.key ⟨"/a.py"⟩ = "a.py" := by decide
    have hfile : w.isDirectory (a.root.join ⟨"/a.py"⟩) = false := by
      rw [hjoin, isDirectory, hstat]
    rw [Collection.taken_file hfile rfl rfl rfl, hjoin, hkey]
  have hstates : a.states w = .ofList [("a.py", .content "!".toUTF8)] := by
    rw [states, Collection.states, htaken, List.map_singleton,
      FileState.ofFile_regular hstat hread]
  have hfingerprints : a.fingerprints w =
      .ofList [("a.py", .content (Xxh3.hex "!".toUTF8) (Fingerprint.nanos 0) 1)] := by
    rw [fingerprints, Collection.fingerprints_collect _ _ _ rfl, htaken, List.map_singleton,
      FileState.fingerprint_regular hstat hread]
    rfl
  have hmet : a.Meets {"!".toUTF8} w := by
    intro name bytes h
    rw [hstates, SortedMap.get?_ofList_eq_some (by simp)] at h
    obtain ⟨-, hbytes⟩ := Prod.mk.inj (List.mem_singleton.1 h)
    exact FileState.content.inj hbytes
  have hempty : RunCache.readStore w (CachePaths.store ⟨"/"⟩) = .empty :=
    RunCache.readStore_root rfl
  -- the height of the store does not depend on the digest, so that one is not computed
  have hkeeps : Session.KeepsAll {.empty} (.start w ⟨"/"⟩)
      [.record k (a.recorded k w), .persist] := by
    refine ⟨CacheEntry.exact_of_plain rfl rfl, fun _ => ⟨?_, RunCache.opens_root rfl _ _⟩, trivial⟩
    change (Json.ofMap CacheEntry.toJson ((RunCache.readStore w (CachePaths.store ⟨"/"⟩)).insert
      k.text (.ofRun (a.fingerprints w) (a.run k w)))).height ≤ Json.nestingLimit
    rw [hempty, hfingerprints, run, hstates]
    decide +kernel
  have hfair : a.FairAll {k} {"!".toUTF8} {.empty} (.start w ⟨"/"⟩) [.audit k, .edit w] := by
    refine ⟨⟨Set.mem_singleton k, hmet, fun _ => hkeeps⟩, .inr ?_, trivial⟩
    rw [perform, storePath_audit]
    exact hempty
  have hresult := audit_eq_run (by simp) (by simp) hempty hfair rfl (Set.mem_singleton k) hmet
  refine ⟨lookup_after_audit a k (.start w ⟨"/"⟩), ?_⟩
  have hrun : (a.run k w).diagnostics = [d] := by
    rw [run, hstates]
    rfl
  rw [hresult]
  change Diagnostic.sort (a.run k w).diagnostics = [d]
  rw [hrun]
  exact List.mergeSort_singleton d

end Auditor

end AnalysisGate
