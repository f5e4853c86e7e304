import AnalysisGate.RatchetError
import AnalysisGate.Proofs.Json.Records
import AnalysisGate.Proofs.Json.Values
import AnalysisGate.Proofs.Signatures
import Mathlib

/-!
Engine options of accepted manifests.

The options of every run of an accepted manifest are a value of finite doubles
(`Manifest.over_of_parse`). A signature stores their canonical form, which has no other doubles and
nests exactly as deep as they do (`EngineSignature.height_ofRun`).
-/
namespace AnalysisGate

namespace Json

variable {v : Json} {D : Set UInt64}

/-- **A canonical form nests as deep as its value**: items that are dropped from a set stand in it
another time. -/
theorem height_canonicalAs (hv : Over D v) (asSet : Bool) :
    (v.canonicalAs asSet).height = v.height := by
  induction v using induct generalizing asSet with
  | null | bool | number | string | beyond => cases asSet <;> rfl
  | array l ih =>
    have hcanonical (n : Nat) : (∀ i ∈ l.map canonical, i.height ≤ n) ↔ heightItems l ≤ n := by
      rw [List.forall_mem_map, heightItems_le_iff]
      refine forall₂_congr fun j hj => ?_
      rw [← ih j hj (hv.item j hj) false]
      rfl
    cases asSet with
    | false =>
      rw [canonicalAs_list, height, height, Nat.add_right_cancel_iff]
      exact eq_of_forall_ge_iff fun n => heightItems_le_iff.trans (hcanonical n)
    | true =>
      -- in a set items of one text are one item, and sorting keeps one of them
      have htexts : {j | Over D j}.InjOn compactText := fun j hj j' hj' =>
        compactText_inj doubleText_injective.injOn hj hj'
      have hover : ∀ i ∈ l.map canonical, Over D i := by
        intro i hi
        obtain ⟨j, hj, rfl⟩ := List.mem_map.1 hi
        exact (hv.item j hj).canonicalAs false
      rw [canonicalAs_set, height, height, Nat.add_right_cancel_iff]
      refine eq_of_forall_ge_iff fun n => ?_
      rw [heightItems_le_iff, ← hcanonical]
      exact forall_congr' fun i => imp_congr_left (mem_sortItems htexts hover)
  | object m ih =>
    rw [canonicalAs_object, height, height, Nat.add_right_cancel_iff]
    refine eq_of_forall_ge_iff fun n => ?_
    rw [heightMembers_le_iff, heightMembers_le_iff, List.forall_mem_map]
    exact forall₂_congr fun e he => by rw [ih e he (hv.member e he)]

end Json

namespace ManifestRun

theorem over_of_reader {m : Medium} {j : Json} {r : ManifestRun}
    (h : ManifestRun.reader m j = .ok r) : Json.Over Json.finiteDoubles r.engineOptions := by
  have hpart : shape.Part "engineOptions" Reader.value ManifestRun.engineOptions :=
    Shape.part_field rfl (fun _ _ => rfl) (by simp [shape])
  exact Shape.part_induct hpart (by simp [shape])
    ⟨rfl, fun x hx => absurd hx List.not_mem_nil⟩ (fun _ _ => Reader.over_value) h

end ManifestRun

namespace Manifest

/-- **The engine options of an accepted manifest are values of finite doubles.** -/
theorem over_of_parse {text : String} {origin : Path} {m : Manifest}
    (h : parse text origin = .ok m) :
    ∀ r ∈ m.runs, Json.Over Json.finiteDoubles r.engineOptions := by
  have hread {j : Json} {m : Manifest} (h : shape.reader .stream j = .ok m) :
      ∀ r ∈ m.runs, Json.Over Json.finiteDoubles r.engineOptions := by
    have hstart : ∀ r ∈ shape.start.runs, Json.Over Json.finiteDoubles r.engineOptions :=
      fun r hr => absurd hr List.not_mem_nil
    refine Shape.reader_induct (s := shape)
      (P := fun m => ∀ r ∈ m.runs, Json.Over Json.finiteDoubles r.engineOptions) hstart
      (fun f hf j m m' hfield _ => ?_) h
    obtain rfl := List.mem_singleton.1 hf
    obtain ⟨runs, hruns, rfl⟩ := Shape.field_eq_ok.1 hfield
    intro r hr
    cases j with
    | array l =>
      obtain ⟨i, -, hi⟩ := exists_of_mem_right (Reader.items_eq_ok.1 hruns) hr
      exact ManifestRun.over_of_reader hi
    | null | bool | number | string | object | beyond => cases hruns
  unfold parse at h
  split at h
  · cases h
  · next m' hm' =>
    rw [readText] at hm'
    split at hm'
    · cases hm'
    · split at hm'
      · next hok =>
        cases hm'
        rw [ofRuns] at h
        split at h <;> cases h
        exact hread hok
      · cases hm'

end Manifest

namespace EngineSignature

theorem over_ofRun {r : ManifestRun} {D : Set UInt64} (h : Json.Over D r.engineOptions) :
    Json.Over D (ofRun r).engineOptions := h.canonicalAs false

theorem height_ofRun {r : ManifestRun} {D : Set UInt64} (h : Json.Over D r.engineOptions) :
    (ofRun r).engineOptions.height = r.engineOptions.height := Json.height_canonicalAs h false

end EngineSignature

end AnalysisGate
