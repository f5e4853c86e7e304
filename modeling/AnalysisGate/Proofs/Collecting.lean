import AnalysisGate.Collection
import AnalysisGate.Proofs.MapViews
import Mathlib

/-!
What a collection tells of the files.

Without a baseline a collection has one fingerprint for each file that is taken, made of the file
alone (`fingerprints_collect`). If the digests met are those of different bytes only, collections
with the same fingerprints are of files with the same bytes, or missing or unreadable alike
(`states_eq`); the times of the files may still tell them apart.
-/
namespace AnalysisGate

/-- What an analysis can see of a file: its bytes, or that there are none to see. -/
inductive FileState
  | content (bytes : ByteArray)
  | missing
  | unreadable

namespace FileState

/-- The state of a file that a failure tells. -/
def ofFailure : FileError → FileState
  | .notFound => missing
  | _ => unreadable

def ofFile (w : Workspace) (p : Path) : FileState :=
  match w.stat p with
  | .error e => ofFailure e
  | .ok (.regular _ _) =>
    match w.read p with
    | .ok bytes => content bytes
    | .error e => ofFailure e
  | .ok _ => unreadable

/-- A fingerprint is one of a state. -/
inductive Shows : FileState → Fingerprint → Prop
  | content (bytes : ByteArray) (modified size : UInt64) :
      Shows (content bytes) (.content (Xxh3.hex bytes) modified size)
  | missing : Shows missing .missing
  | unreadable : Shows unreadable .unreadable

theorem shows_ofFailure (e : FileError) : Shows (ofFailure e) (Fingerprint.ofFailure e) := by
  cases e <;> constructor

/-- The fingerprint of a file is one of its state. -/
theorem shows_ofFile (w : Workspace) (p : Path) : Shows (ofFile w p) (Fingerprint.ofFile w p) := by
  rw [ofFile, Fingerprint.ofFile, Fingerprint.probe]
  cases hstat : w.stat p with
  | error e => exact shows_ofFailure e
  | ok stat =>
    cases stat with
    | directory | other => exact .unreadable
    | regular size modified =>
      cases hread : w.read p with
      | error e => simpa using shows_ofFailure e
      | ok bytes => exact .content bytes _ _

section

variable {w : Workspace} {p : Path} {size : Nat} {modified : Int} {bytes : ByteArray}
  (hstat : w.stat p = .ok (.regular size modified)) (hread : w.read p = .ok bytes)

include hstat hread

theorem ofFile_regular : ofFile w p = content bytes := by
  rw [ofFile, hstat]
  simp only [hread]

theorem fingerprint_regular : Fingerprint.ofFile w p =
    .content (Xxh3.hex bytes) (Fingerprint.nanos modified) (UInt64.ofNat size) := by
  rw [Fingerprint.ofFile, Fingerprint.probe, hstat]
  simp only [Option.filter_none, hread]

end

/-- States whose bytes are among those with different digests. -/
theorem Shows.eq {s s' : FileState} {f : Fingerprint} {met : Set ByteArray}
    (hdigest : met.InjOn Xxh3.hex) (hs : ∀ bytes, s = .content bytes → bytes ∈ met)
    (hs' : ∀ bytes, s' = .content bytes → bytes ∈ met) (h : Shows s f) (h' : Shows s' f) :
    s = s' := by
  cases h with
  | content bytes modified size =>
    generalize hf : Fingerprint.content (Xxh3.hex bytes) modified size = f at h'
    cases h' with
    | content bytes' =>
      obtain ⟨hhex, -, -⟩ := Fingerprint.content.inj hf
      rw [hdigest (hs bytes rfl) (hs' bytes' rfl) hhex]
    | missing | unreadable => cases hf
  | missing | unreadable =>
    cases h'
    rfl

end FileState

namespace Collection

/-! ## The files that are taken -/

/-- The files whose fingerprints a collection has. -/
def taken (w : Workspace) (root : Path) (targets : List Path) (o : CollectOptions) :
    List (String × Path) :=
  (takeWithin o.maxFiles o.maxBytes (fun e => fileSize w e.2) 0 0
    (selected w root targets o).entries).1

/-- A target that is a file is taken as it is. -/
theorem taken_file {w : Workspace} {root target : Path} {o : CollectOptions}
    (hfile : w.isDirectory (root.join target) = false) (hlisted : o.respectIgnore = false)
    (hfiles : o.maxFiles = none) (hbytes : o.maxBytes = none) :
    taken w root [target] o = [(root.key (root.join target), root.join target)] := by
  have hselected : selected w root [target] o =
      SortedMap.empty.insert (root.key (root.join target)) (root.join target) := by
    simp [selected, candidates, Candidates.addTarget, hfile, hlisted]
  rw [taken, hselected, hfiles, hbytes]
  rfl

/-- The states of the files that are taken. -/
def states (w : Workspace) (root : Path) (targets : List Path) (o : CollectOptions) :
    SortedMap String FileState :=
  .ofList ((taken w root targets o).map fun e => (e.1, .ofFile w e.2))

theorem fingerprints_foldl_add (w : Workspace) (baseline : Option FingerprintMap)
    (l : List (String × Path)) (c : Collection) :
    (l.foldl (add w baseline) c).fingerprints =
      l.foldl (fun m e => m.insert e.1
        (Fingerprint.probe w (baseline.bind (·.get? e.1)) e.2).1) c.fingerprints := by
  induction l generalizing c with
  | nil => rfl
  | cons e l ih =>
    rw [List.foldl_cons, ih]
    rfl

/-- **Without a baseline a collection has the fingerprints of the files that are taken.** -/
theorem fingerprints_collect (w : Workspace) (root : Path) (targets : List Path)
    {o : CollectOptions} (ho : o.baseline = none) :
    (collect w root targets o).fingerprints =
      .ofList ((taken w root targets o).map fun e => (e.1, Fingerprint.ofFile w e.2)) := by
  rw [collect, ho, fingerprints_foldl_add, SortedMap.ofList, List.foldl_map]
  rfl

theorem get?_ofList_map {α β : Type} (f : α → β) (l : List (String × α)) (k : String) :
    (SortedMap.ofList (l.map fun e => (e.1, f e.2))).get? k =
      ((SortedMap.ofList l).get? k).map f := by
  rw [SortedMap.get?_ofList, SortedMap.get?_ofList, ← List.map_reverse, List.find?_map,
    Option.map_map, Option.map_map]
  rfl

/-- **Collections with the same fingerprints are of files in the same states**, if no two bytes
met have one digest. -/
theorem states_eq {met : Set ByteArray} (hdigest : met.InjOn Xxh3.hex) {w w' : Workspace}
    {root : Path} {targets : List Path} {o : CollectOptions} (ho : o.baseline = none)
    (hmet : ∀ k bytes, (states w root targets o).get? k = some (.content bytes) → bytes ∈ met)
    (hmet' : ∀ k bytes, (states w' root targets o).get? k = some (.content bytes) → bytes ∈ met)
    (h : (collect w root targets o).fingerprints = (collect w' root targets o).fingerprints) :
    states w root targets o = states w' root targets o := by
  refine SortedMap.ext_get? fun k => ?_
  have hfingerprint := congrArg (SortedMap.get? · k) h
  have hstates := hmet k
  have hstates' := hmet' k
  simp only [fingerprints_collect _ _ _ ho, get?_ofList_map] at hfingerprint
  simp only [states, get?_ofList_map] at hstates hstates' ⊢
  -- names without a fingerprint are not taken; those with one are taken in both trees
  cases hp : (SortedMap.ofList (taken w root targets o)).get? k with
  | none =>
    rw [hp, Option.map_none, eq_comm, Option.map_eq_none_iff] at hfingerprint
    rw [hfingerprint]
    rfl
  | some p =>
    rw [hp, Option.map_some, eq_comm, Option.map_eq_some_iff] at hfingerprint
    obtain ⟨p', hp', hsame⟩ := hfingerprint
    rw [hp, Option.map_some] at hstates
    rw [hp', Option.map_some] at hstates'
    rw [hp', Option.map_some, Option.map_some]
    refine congrArg some (FileState.Shows.eq hdigest (fun bytes hs => hstates bytes (by rw [hs]))
      (fun bytes hs => hstates' bytes (by rw [hs])) (FileState.shows_ofFile w p) ?_)
    rw [← hsame]
    exact FileState.shows_ofFile w' p'

end Collection

end AnalysisGate
