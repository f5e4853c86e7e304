import AnalysisGate.Proofs.OptionFlags
import AnalysisGate.Proofs.Persisting
import Mathlib

/-!
Runs under different options.

What is found under a key was recorded under that key (`Session.recorded_of_lookup`), so runs under
options with different flags are kept apart. Different categories have different flags if no name
of a category has a colon (`CacheKey.categories_apart`). A colon in a name can stand for the one
between another name and its severity, and then a run under one mapping is found under the other
(`CacheKey.categories_confused`).
-/
namespace AnalysisGate

namespace Session

/-- An entry under a text was recorded under a key of that text. -/
def IsRecorded (steps : List CacheStep) (t : String) (e : CacheEntry) : Prop :=
  ∃ k r, CacheStep.record k r ∈ steps ∧ k.text = t ∧ e.kept = r.entry

theorem IsRecorded.kept {steps : List CacheStep} {t : String} {e : CacheEntry}
    (h : IsRecorded steps t e) : IsRecorded steps t e.kept := by
  obtain ⟨k, r, hmem, htext, hentry⟩ := h
  exact ⟨k, r, hmem, htext, (CacheEntry.kept_kept e).trans hentry⟩

/-- Steps from a tree without a store that are about keys of different digests, and whose entries
a store keeps. -/
structure History (keys : Set CacheKey) (w : Workspace) (directory : Path)
    (steps : List CacheStep) : Prop where
  digests : keys.InjOn fun k => Sha256.hex k.canonicalText
  empty : RunCache.readStore w (CachePaths.store directory) = .empty
  within : ∀ k r, CacheStep.record k r ∈ steps → k ∈ keys
  keeps : KeepsAll {.empty} (start w directory) steps

/-- **What is found under a key was recorded under it**, after any steps and whatever came of
them. -/
theorem recorded_of_lookup {keys : Set CacheKey} {w : Workspace} {directory : Path}
    {steps : List CacheStep} (h : History keys w directory steps) {k : CacheKey} (hk : k ∈ keys)
    {current : FingerprintMap} {e : CacheEntry}
    (hfound : ((start w directory).performAll steps).cache.lookup k current = some e) :
    ∃ r, CacheStep.record k r ∈ steps ∧ r.fingerprints = current ∧ e.kept = r.entry := by
  have hvouched : ((start w directory).performAll steps).Vouched (IsRecorded steps) :=
    (vouched_start h.empty).performAll IsRecorded.kept
      (fun _ hempty => Set.mem_singleton_iff.1 hempty ▸ allVouched_empty) h.keeps
      fun k r hmem => ⟨k, r, hmem, rfl, rfl⟩
  rw [RunCache.lookup, Option.filter_eq_some_iff] at hfound
  obtain ⟨hentry, hcurrent⟩ := hfound
  obtain ⟨k', r, hmem, htext, hkept⟩ := (hvouched.memory _ e hentry).2
  -- entries are found by the texts of keys, and each text has the digest of its key in it
  obtain rfl := h.digests (h.within k' r hmem) hk (CacheKey.hex_of_text htext)
  have hfingerprints : e.fingerprints = r.fingerprints := congrArg CacheEntry.fingerprints hkept
  exact ⟨r, hmem, hfingerprints.symm.trans (of_decide_eq_true hcurrent), hkept⟩

end Session

namespace CacheKey

/-- No name of a category has a colon. -/
def Plain (m : SortedMap String String) : Prop := ∀ e ∈ m.entries, ':' ∉ e.1.toList

/-- Different categories have different flags. -/
theorem withOptions_ne (k : CacheKey) (o : EngineOptions) {m m' : SortedMap String String}
    (hm : Plain m) (hm' : Plain m') (hne : m ≠ m') :
    (k.withOptions { o with categories := m }).flags ≠
      (k.withOptions { o with categories := m' }).flags := by
  intro h
  have hflags := List.append_cancel_left h
  obtain ⟨-, -, -, -, -, hvalues⟩ := values_optionFlags { o with categories := m }
  obtain ⟨-, -, -, -, -, hvalues'⟩ := values_optionFlags { o with categories := m' }
  rw [hflags] at hvalues
  exact hne (SortedMap.entries_inj (map_injOn category_inj hm hm' (hvalues.symm.trans hvalues')))

/-- **Runs under different categories are kept apart**, if no name of a category has a colon: the
flags differ, and what is found under the key of one mapping was recorded under that key. -/
theorem categories_apart (k : CacheKey) (o : EngineOptions) {m m' : SortedMap String String}
    (hm : Plain m) (hm' : Plain m') (hne : m ≠ m') :
    (k.withOptions { o with categories := m }).flags ≠
        (k.withOptions { o with categories := m' }).flags ∧
      ∀ {keys : Set CacheKey} {w : Workspace} {directory : Path} {steps : List CacheStep},
        Session.History keys w directory steps →
        k.withOptions { o with categories := m' } ∈ keys →
        ∀ {current : FingerprintMap} {e : CacheEntry},
          ((Session.start w directory).performAll steps).cache.lookup
            (k.withOptions { o with categories := m' }) current = some e →
          ∃ r, CacheStep.record (k.withOptions { o with categories := m' }) r ∈ steps ∧
            r.fingerprints = current ∧ e.kept = r.entry := by
  refine ⟨withOptions_ne k o hm hm' hne, fun h hk => ?_⟩
  intro current e hfound
  exact Session.recorded_of_lookup h hk hfound

/-- Two severities of one category: what is found under the key of the second is its own run. -/
theorem categories_apart_severities :
    let k : CacheKey := .ofPaths "tsc" "check" ["src"]
    let warning : EngineOptions :=
      { EngineOptions.empty with categories := .ofList [("style", "warning")] }
    let error : EngineOptions :=
      { EngineOptions.empty with categories := .ofList [("style", "error")] }
    let r : RecordedRun := ⟨.empty, ⟨["tsc"], 0, 5, [], .empty, none⟩⟩
    (k.withOptions warning).flags ≠ (k.withOptions error).flags ∧
      ∃ e, ((Session.start ⟨.empty, [], 0⟩ ⟨"/"⟩).performAll
          [.record (k.withOptions error) r]).cache.lookup (k.withOptions error) .empty = some e ∧
        ∃ r', CacheStep.record (k.withOptions error) r' ∈ [.record (k.withOptions error) r] ∧
          r'.fingerprints = .empty ∧ e.kept = r'.entry := by
  intro k warning error r
  have hplain (severity : String) : Plain (.ofList [("style", severity)]) := by
    intro e he
    obtain rfl : e = ("style", severity) := List.mem_singleton.1 he
    have hstyle : ':' ∉ "style".toList := by decide
    exact hstyle
  obtain ⟨hflags, hapart⟩ :=
    categories_apart k .empty (hplain "warning") (hplain "error") (by decide)
  have hhistory : Session.History {k.withOptions error} ⟨.empty, [], 0⟩ ⟨"/"⟩
      [.record (k.withOptions error) r] := by
    refine ⟨Set.injOn_singleton _ _, RunCache.readStore_root rfl, ?_,
      CacheEntry.exact_of_plain rfl rfl, trivial⟩
    intro k' r' hmem
    obtain ⟨rfl, -⟩ := CacheStep.record.inj (List.mem_singleton.1 hmem)
    exact Set.mem_singleton _
  have hfound := RunCache.lookup_record (.load ⟨.empty, [], 0⟩ ⟨"/"⟩) (k.withOptions error) r
  exact ⟨hflags, _, hfound, hapart hhistory (Set.mem_singleton _) hfound⟩

/-- A colon in the name of a category stands for the one before a severity, and a run under one
mapping is found under the other. -/
theorem categories_confused :
    let k : CacheKey := .ofPaths "tsc" "check" ["src"]
    let o : EngineOptions := { EngineOptions.empty with categories := .ofList [("a", "b:c")] }
    let o' : EngineOptions := { EngineOptions.empty with categories := .ofList [("a:b", "c")] }
    let r : RecordedRun := ⟨.empty, ⟨["tsc"], 0, 5, [], o, none⟩⟩
    o.categories ≠ o'.categories ∧ (k.withOptions o).flags = (k.withOptions o').flags ∧
      ((Session.start ⟨.empty, [], 0⟩ ⟨"/"⟩).performAll
        [.record (k.withOptions o) r]).cache.lookup (k.withOptions o') .empty =
        some (.ofRun .empty r.run) := by
  intro k o o' r
  have hkeys : k.withOptions o = k.withOptions o' := by decide
  refine ⟨by decide, congrArg CacheKey.flags hkeys, ?_⟩
  rw [hkeys]
  exact RunCache.lookup_record (.load ⟨.empty, [], 0⟩ ⟨"/"⟩) (k.withOptions o') r

end CacheKey

end AnalysisGate
