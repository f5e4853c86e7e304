import AnalysisGate.Proofs.CanonicalOrder
import AnalysisGate.Proofs.Retrying
import Mathlib

/-!
Runs that are recorded again.

An entry holds the diagnostics of its run in canonical order, so runs that differ in the order of
their diagnostics have one entry, and caches that record them are persisted in the same way and
leave the same bytes (`RunCache.bytes_of_perm`). A reader of the store may find another entry than
was written, without a summary that is null, but its text is the same, so a run that is recorded
again in a cache that is loaded leaves the bytes that are there.
-/
namespace AnalysisGate

namespace CacheEntry

/-- The order in which diagnostics come does not matter to an entry. -/
theorem ofRun_of_perm (fingerprints : FingerprintMap) {run : AnalyzerRun} {ds : List Diagnostic}
    (h : ds.Perm run.diagnostics) :
    ofRun fingerprints { run with diagnostics := ds } = ofRun fingerprints run := by
  rw [ofRun, ofRun, Diagnostic.sort_eq_of_perm h]

/-- What a reader finds of an entry has the same text. -/
theorem toJson_kept (e : CacheEntry) : e.kept.toJson = e.toJson := by
  have hsummary : Json.ofOption id (e.toolSummary.filter (· ≠ .null)) =
      Json.ofOption id e.toolSummary := by
    cases hj : e.toolSummary with
    | none => rfl
    | some j =>
      by_cases hnull : j = .null
      · subst hnull
        rfl
      · simp [Option.filter, hnull]
  rw [toJson, kept, hsummary]
  rfl

end CacheEntry

namespace RunCache

/-- A store has one text for all entries with equal texts. -/
theorem encode_congr {m n : SortedMap String CacheEntry}
    (h : ∀ k, (m.get? k).map CacheEntry.toJson = (n.get? k).map CacheEntry.toJson) :
    encode m = encode n := by
  have hvalues : m.mapValues (fun _ => CacheEntry.toJson) =
      n.mapValues fun _ => CacheEntry.toJson := by
    apply SortedMap.ext_get?
    intro k
    rw [SortedMap.get?_mapValues, SortedMap.get?_mapValues, h]
  have htexts : Json.ofMap CacheEntry.toJson m = Json.ofMap CacheEntry.toJson n :=
    congrArg (fun m : SortedMap String Json => Json.object m.entries) hvalues
  rw [encode, encode, htexts]

theorem record_of_perm (c : RunCache) (k : CacheKey) (fingerprints : FingerprintMap)
    {run : AnalyzerRun} {ds : List Diagnostic} (h : ds.Perm run.diagnostics) :
    c.record k fingerprints { run with diagnostics := ds } = c.record k fingerprints run := by
  rw [record, record, CacheEntry.ofRun_of_perm fingerprints h]

/-- A run that is recorded again over what a reader finds of it leaves the text as it is. -/
theorem encode_record_kept (c : RunCache) (k : CacheKey) (fingerprints : FingerprintMap)
    (run : AnalyzerRun) :
    encode (((c.record k fingerprints run).entries.mapValues fun _ e => e.kept).insert k.text
        (.ofRun fingerprints run)) =
      encode (c.record k fingerprints run).entries := by
  apply encode_congr
  intro t
  rw [SortedMap.get?_insert, SortedMap.get?_mapValues]
  by_cases ht : t = k.text
  · rw [if_pos ht, record, SortedMap.get?_insert, if_pos ht]
  · rw [if_neg ht, Option.map_map]
    congr 1
    funext e
    exact e.toJson_kept

/-- A persist that succeeds, after which a file is at the path of the store. -/
def Stores (c : RunCache) (w w' : Workspace) : Prop :=
  (∃ c', c.persist.exec w = (.ok c', w')) ∧ w'.isRegular c.storePath = true

variable {c : RunCache} {w w' : Workspace}

theorem Stores.read (h : c.Stores w w') (hdirty : c.dirty = true) :
    w'.read c.storePath = .ok (encode c.entries).toUTF8 := by
  obtain ⟨⟨c', hdone⟩, hregular⟩ := h
  exact read_of_persist hdone hdirty hregular

theorem Stores.load (h : c.Stores w w') (hdirty : c.dirty = true) (hstorable : Storable c.entries) :
    RunCache.load w' c.directory =
      { c with entries := c.entries.mapValues fun _ e => e.kept, dirty := false } := by
  obtain ⟨⟨c', hdone⟩, hregular⟩ := h
  obtain rfl := (exec_persist hdone).1
  exact (writes_of_persist hdone hdirty).loaded hregular hstorable

/-- Where the root has room, a cache of the root with changes is stored. -/
theorem exists_stores_of_room (entries : SortedMap String CacheEntry) {w : Workspace}
    (h : Room w) : ∃ w', Stores ⟨⟨"/"⟩, entries, true⟩ w w' ∧ Room w' := by
  obtain ⟨w', hdone, hregular, hroom⟩ := exists_persist_of_room entries h
  exact ⟨w', ⟨⟨_, hdone⟩, hregular⟩, hroom⟩

/-- **Identical runs leave identical bytes.** The canonical order is total and only equal
diagnostics tie in it, so sorting gives one list for all orders in which diagnostics can come, the
only one of them that is in canonical order. Hence caches that record a run with its diagnostics in
one order or another are persisted alike, and whatever trees they are persisted in, the store files
have the same bytes; and these stay when the run is recorded again in a cache that is loaded from
them, if that loses nothing. -/
theorem bytes_of_perm :
    ((∀ a b, Diagnostic.canonical b a = (Diagnostic.canonical a b).swap) ∧
      (∀ a b c, (Diagnostic.canonical a b).isLE = true → (Diagnostic.canonical b c).isLE = true →
        (Diagnostic.canonical a c).isLE = true) ∧
      (∀ a b, Diagnostic.canonical a b = .eq ↔ a = b)) ∧
    (∀ l l', l' = Diagnostic.sort l ↔ l'.Perm l ∧ Diagnostic.Ascending l') ∧
    (∀ l l', l'.Perm l → Diagnostic.sort l' = Diagnostic.sort l) ∧
    ∀ (c : RunCache) (k : CacheKey) (fingerprints : FingerprintMap) (run : AnalyzerRun)
      (ds : List Diagnostic), ds.Perm run.diagnostics →
      (∀ w, (c.record k fingerprints { run with diagnostics := ds }).persist.exec w =
        (c.record k fingerprints run).persist.exec w) ∧
      (∀ w w' v v', (c.record k fingerprints run).Stores w w' →
        (c.record k fingerprints { run with diagnostics := ds }).Stores v v' →
        ∃ bytes, w'.read c.storePath = .ok bytes ∧ v'.read c.storePath = .ok bytes) ∧
      ∀ w w' v v', (c.record k fingerprints run).Stores w w' →
        Storable (c.record k fingerprints run).entries →
        ((load w' c.directory).record k fingerprints { run with diagnostics := ds }).Stores v v' →
        ∃ bytes, w'.read c.storePath = .ok bytes ∧ v'.read c.storePath = .ok bytes := by
  refine ⟨⟨fun a b => Std.OrientedCmp.eq_swap, fun a b c => Std.TransCmp.isLE_trans,
    fun a b => Diagnostic.canonical_eq_iff⟩, fun l l' => Diagnostic.eq_sort_iff,
    fun l l' => Diagnostic.sort_eq_of_perm, ?_⟩
  intro c k fingerprints run ds hperm
  refine ⟨fun w => ?alike, fun w w' v v' hfirst hsecond => ?apart,
    fun w w' v v' hfirst hstorable hsecond => ?again⟩
  case alike => rw [record_of_perm c k fingerprints hperm]
  case apart =>
    rw [record_of_perm c k fingerprints hperm] at hsecond
    exact ⟨_, hfirst.read rfl, hsecond.read rfl⟩
  case again =>
    have hload : load w' c.directory = _ := hfirst.load rfl hstorable
    rw [hload, record_of_perm _ k fingerprints hperm] at hsecond
    have hread := hsecond.read rfl
    refine ⟨_, hfirst.read rfl, hread.trans ?_⟩
    exact congrArg (fun text : String => Except.ok text.toUTF8)
      (encode_record_kept c k fingerprints run)

/-- Two diagnostics are recorded, and once the store is loaded they are recorded the other way
round. -/
theorem bytes_of_perm_reversed :
    let c : RunCache := ⟨⟨"/"⟩, .empty, false⟩
    let k : CacheKey := .ofPaths "lint" "strict" ["a.py"]
    let run : AnalyzerRun := ⟨["lint"], 1, 20, [⟨"a.py", 2, 1, "error", none, "unused"⟩,
      ⟨"a.py", 2, 1, "error", some "E1", "unused"⟩], .empty, some .null⟩
    ∃ w' v', (c.record k .empty run).Stores ⟨.empty, [], 0⟩ w' ∧
      ((load w' ⟨"/"⟩).record k .empty
        { run with diagnostics := run.diagnostics.reverse }).Stores w' v' ∧
      ∃ bytes, w'.read c.storePath = .ok bytes ∧ v'.read c.storePath = .ok bytes := by
  intro c k run
  obtain ⟨w', hfirst, hroom⟩ :=
    exists_stores_of_room (c.record k .empty run).entries (room_empty 0)
  obtain ⟨v', hsecond, -⟩ := exists_stores_of_room ((load w' ⟨"/"⟩).record k .empty
    { run with diagnostics := run.diagnostics.reverse }).entries hroom
  have hstorable : Storable (c.record k .empty run).entries := by
    have hentries : (c.record k .empty run).entries.entries =
        [(k.text, CacheEntry.ofRun .empty run)] := rfl
    have hsort : Diagnostic.sort run.diagnostics = run.diagnostics :=
      (Diagnostic.eq_sort_iff.2 ⟨.refl _, List.pairwise_pair.2 (by decide)⟩).symm
    have hheight : (CacheEntry.ofRun .empty run).toJson.height < Json.nestingLimit := by
      rw [CacheEntry.ofRun, hsort]
      decide +kernel
    constructor
    · intro e he
      rw [hentries] at he
      cases List.mem_singleton.1 he
      exact ⟨fun o ho => absurd ho List.not_mem_nil, fun j hj => Option.some.inj hj ▸ ⟨rfl, rfl⟩⟩
    · change max (CacheEntry.ofRun .empty run).toJson.height 0 + 1 ≤ _
      rw [Nat.max_zero]
      exact hheight
  have hruns := bytes_of_perm.2.2.2 c k .empty run run.diagnostics.reverse (List.reverse_perm _)
  exact ⟨w', v', hfirst, hsecond, hruns.2.2 _ _ _ _ hfirst hstorable hsecond⟩

end RunCache

end AnalysisGate
