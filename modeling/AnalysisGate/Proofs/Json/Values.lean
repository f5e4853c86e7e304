import AnalysisGate.Proofs.Json.Doubles
import AnalysisGate.Proofs.Json.Equivalence
import Mathlib

/-!
Values that are read, written and read again.

Every double in a value that is read is finite, wherever the value stood (`Reader.over_value`). Such
a value can be read again from its own text exactly if its containers nest no deeper there than
containers may (`Reader.recovers_value_iff`): a double is always read as some double, though not
always as itself.
-/
namespace AnalysisGate

namespace Json

/-! ## Heights of lists -/

theorem heightItems_le_iff {l : List Json} {n : Nat} :
    heightItems l ≤ n ↔ ∀ j ∈ l, j.height ≤ n := by
  induction l with
  | nil => simp [heightItems]
  | cons j l ih => rw [heightItems, max_le_iff, ih, List.forall_mem_cons]

theorem heightMembers_le_iff {l : List (String × Json)} {n : Nat} :
    heightMembers l ≤ n ↔ ∀ e ∈ l, e.2.height ≤ n := by
  induction l with
  | nil => simp [heightMembers]
  | cons e l ih => rw [heightMembers, max_le_iff, ih, List.forall_mem_cons]

/-! ## Finite doubles -/

/-- The doubles that stand for a real number. -/
def finiteDoubles : Set UInt64 := {bits | Binary64.isFinite bits = true}

theorem doubles_eq_nil {j : Json} (hd : j.hasDouble = false) : j.doubles = [] := by
  induction j using induct with
  | null | bool | string | beyond => rfl
  | number n =>
    cases n with
    | natural | negative => rfl
    | double => cases hd
  | array l ih =>
    rw [doubles, doublesItems_eq, List.flatMap_eq_nil_iff]
    exact fun j hj => ih j hj (hasDoubleItems_eq_false.1 hd j hj)
  | object l ih =>
    rw [doubles, doublesMembers_eq, List.flatMap_eq_nil_iff]
    exact fun e he => ih e he (hasDoubleMembers_eq_false.1 hd e he)

/-- A value without doubles is one of any doubles. -/
theorem over_of_hasDouble {j : Json} {D : Set UInt64} (hn : j.Normal)
    (hd : j.hasDouble = false) : Over D j := by
  refine ⟨hn, fun x hx => ?_⟩
  rw [doubles_eq_nil hd] at hx
  cases hx

theorem finiteItems_eq (l : List Json) : Reader.finiteItems l = l.map Reader.finite := by
  induction l with
  | nil => rfl
  | cons j l ih => rw [Reader.finiteItems, ih, List.map_cons]

theorem finiteMembers_eq (l : List (String × Json)) :
    Reader.finiteMembers l = l.map fun e => (e.1, Reader.finite e.2) := by
  induction l with
  | nil => rfl
  | cons e l ih => rw [Reader.finiteMembers, ih, List.map_cons]

theorem doubles_finite (j : Json) : ∀ x ∈ (Reader.finite j).doubles, x ∈ finiteDoubles := by
  induction j using induct with
  | null | bool | string | beyond => exact fun x hx => absurd hx List.not_mem_nil
  | number n =>
    cases n with
    | natural | negative => exact fun x hx => absurd hx List.not_mem_nil
    | double bits =>
      intro x hx
      rw [Reader.finite] at hx
      split at hx
      · next hfinite =>
        obtain rfl := List.mem_singleton.1 hx
        exact hfinite
      · cases hx
  | array l ih =>
    intro x hx
    rw [Reader.finite, finiteItems_eq, doubles, doublesItems_eq] at hx
    obtain ⟨i, hi, hxi⟩ := List.mem_flatMap.1 hx
    obtain ⟨j, hj, rfl⟩ := List.mem_map.1 hi
    exact ih j hj x hxi
  | object l ih =>
    intro x hx
    rw [Reader.finite, finiteMembers_eq, doubles, doublesMembers_eq] at hx
    obtain ⟨i, hi, hxi⟩ := List.mem_flatMap.1 hx
    obtain ⟨e, he, rfl⟩ := List.mem_map.1 hi
    exact ih e he x hxi

/-- The value of a document has no other doubles than the document. -/
theorem doubles_value? {j v : Json} (h : j.value? = some v) : v.doubles ⊆ j.doubles := by
  induction j using induct generalizing v with
  | null | bool | number | string =>
    obtain rfl := Option.some.inj h
    exact List.Subset.refl _
  | beyond => cases h
  | array l ih =>
    obtain ⟨vs, rfl, hvs⟩ := value?_array h
    intro x hx
    rw [doubles, doublesItems_eq] at hx ⊢
    obtain ⟨w, hw, hxw⟩ := List.mem_flatMap.1 hx
    obtain ⟨j, hj, hjw⟩ := exists_of_mem_right hvs hw
    exact List.mem_flatMap.2 ⟨j, hj, ih j hj hjw hxw⟩
  | object l ih =>
    obtain ⟨vs, hvs, rfl⟩ := Option.map_eq_some_iff.1 h
    intro x hx
    rw [doubles, doublesMembers_eq] at hx ⊢
    obtain ⟨w, hw, hxw⟩ := List.mem_flatMap.1 hx
    have hmem : w ∈ vs := SortedMap.mem_of_get?_ofList (SortedMap.get?_eq_some_iff.2 hw)
    obtain ⟨e, he, -, hew⟩ := exists_of_mem_right (valueMembers?_eq_some.1 hvs) hmem
    exact List.mem_flatMap.2 ⟨e, he, ih e he hew hxw⟩

theorem isSome_valueItems? {l : List Json} :
    (valueItems? l).isSome = true ↔ ∀ j ∈ l, j.value?.isSome = true := by
  induction l with
  | nil => simp [valueItems?]
  | cons j l ih =>
    rw [List.forall_mem_cons, ← ih, valueItems?]
    cases j.value? <;> cases valueItems? l <;> simp

theorem isSome_valueMembers? {l : List (String × Json)} :
    (valueMembers? l).isSome = true ↔ ∀ e ∈ l, e.2.value?.isSome = true := by
  induction l with
  | nil => simp [valueMembers?]
  | cons e l ih =>
    rw [List.forall_mem_cons, ← ih, valueMembers?]
    cases e.2.value? <;> cases valueMembers? l <;> simp

/-- A document stands for a value exactly if it does without the doubles that are not finite. -/
theorem isSome_value?_finite (j : Json) :
    (Reader.finite j).value?.isSome = true ↔ j.value?.isSome = true := by
  induction j using induct with
  | null | bool | string | beyond => exact Iff.rfl
  | number n =>
    cases n with
    | natural | negative => exact Iff.rfl
    | double bits =>
      rw [Reader.finite]
      split <;> exact iff_of_true rfl rfl
  | array l ih =>
    rw [Reader.finite, finiteItems_eq, value?, value?, Option.isSome_map, Option.isSome_map,
      isSome_valueItems?, isSome_valueItems?, List.forall_mem_map]
    exact forall₂_congr ih
  | object l ih =>
    rw [Reader.finite, finiteMembers_eq, value?, value?, Option.isSome_map, Option.isSome_map,
      isSome_valueMembers?, isSome_valueMembers?, List.forall_mem_map]
    exact forall₂_congr ih

/-! ## Nesting -/

/-- A container fits at a depth if its parts fit one deeper. -/
theorem fits_iff {α : Type} {l : List α} {height : α → Nat} {top depth : Nat}
    (htop : ∀ n, top ≤ n ↔ ∀ a ∈ l, height a ≤ n) :
    (depth ≤ nestingLimit ∧ ∀ a ∈ l, height a = 0 ∨ depth + 1 + height a ≤ nestingLimit + 1) ↔
      top + 1 = 0 ∨ depth + (top + 1) ≤ nestingLimit + 1 := by
  constructor
  · rintro ⟨hdepth, hl⟩
    have hle := (htop (nestingLimit - depth)).2 fun a ha => by
      have hfits := hl a ha
      omega
    omega
  · intro hle
    refine ⟨by omega, fun a ha => ?_⟩
    have hheight := (htop top).1 le_rfl a ha
    omega

/-- **A value of finite doubles can be read again exactly if it does not nest too deep** where it
stands. -/
theorem exists_seen_iff {j : Json} (h : Over finiteDoubles j) {depth : Nat} :
    (∃ v, j.seen .tree depth = some v) ↔
      j.height = 0 ∨ depth + j.height ≤ nestingLimit + 1 := by
  induction j using induct generalizing depth with
  | null | bool | string => exact iff_of_true ⟨_, rfl⟩ (.inl rfl)
  | beyond => exact absurd h.normal not_normal_beyond
  | number n =>
    refine iff_of_true ?_ (.inl rfl)
    cases n with
    | natural n => exact ⟨_, congrArg value? (rereadNumber_int rfl)⟩
    | negative n => exact ⟨_, congrArg value? (rereadNumber_int rfl)⟩
    | double bits =>
      obtain ⟨x, -, hx⟩ := rereadNumber_double (h.doubles bits (List.mem_singleton.2 rfl))
      exact ⟨_, congrArg value? hx⟩
  | array l ih =>
    -- a list is read exactly if it is in reach of the reader and each of its items is read
    have hitems : (∃ v, (Json.array l).seen .tree depth = some v) ↔
        depth ≤ nestingLimit ∧ ∀ j ∈ l, ∃ v, j.seen .tree (depth + 1) = some v := by
      simp only [seen_array, ne_eq, not_true_eq_false, false_and, and_false, or_false]
      constructor
      · rintro ⟨-, hdepth, vs, hvs, -⟩
        refine ⟨hdepth, fun j hj => ?_⟩
        obtain ⟨v, -, hv⟩ := exists_of_mem_left hvs hj
        exact ⟨v, hv⟩
      · rintro ⟨hdepth, hl⟩
        obtain ⟨vs, hvs⟩ := exists_forall₂ hl
        exact ⟨_, hdepth, vs, hvs, rfl⟩
    rw [hitems, forall₂_congr fun j hj => ih j hj (h.item j hj), height]
    exact fits_iff fun n => heightItems_le_iff
  | object l ih =>
    have hmembers : (∃ v, (Json.object l).seen .tree depth = some v) ↔
        depth ≤ nestingLimit ∧ ∀ e ∈ l, ∃ v, e.2.seen .tree (depth + 1) = some v := by
      simp only [seen_object, ne_eq, not_true_eq_false, false_and, and_false, or_false]
      constructor
      · rintro ⟨-, hdepth, vs, hvs, -⟩
        refine ⟨hdepth, fun e he => ?_⟩
        obtain ⟨v, -, -, hv⟩ := exists_of_mem_left hvs he
        exact ⟨v.2, hv⟩
      · rintro ⟨hdepth, hl⟩
        have hmember : ∀ e ∈ l, ∃ v : String × Json,
            e.1 = v.1 ∧ e.2.seen .tree (depth + 1) = some v.2 := by
          intro e he
          obtain ⟨v, hv⟩ := hl e he
          exact ⟨(e.1, v), rfl, hv⟩
        obtain ⟨vs, hvs⟩ := exists_forall₂ hmember
        exact ⟨_, hdepth, vs, hvs, rfl⟩
    rw [hmembers, forall₂_congr fun e he => ih e he (h.member e he), height]
    exact fits_iff fun n => heightMembers_le_iff

end Json

namespace Reader

open Json

/-- What is read as a value has finite doubles only. -/
theorem over_value {m : Medium} {j v : Json} (h : Reader.value m j = .ok v) :
    Over finiteDoubles v := by
  rw [Reader.value] at h
  split at h
  · next w hw =>
    cases h
    exact ⟨normal_of_value? hw, fun x hx => doubles_finite j x (doubles_value? hw hx)⟩
  · cases h

/-- A document is read as a value exactly if a tree of its text is a value. -/
theorem exists_recovers_value {m : Medium} {depth : Nat} {j : Json} :
    (∃ v, Reader.value.Recovers m depth j v) ↔ ∃ v, j.seen .tree depth = some v := by
  have hvalue (w : Json) : (∃ v, Reader.value m w = .ok v) ↔ w.value?.isSome = true := by
    rw [← isSome_value?_finite, Reader.value]
    cases (finite w).value? <;> simp
  have htree : (∃ v, j.seen .tree depth = some v) ↔ (j.reread depth).value?.isSome = true := by
    rw [Option.isSome_iff_exists]
    exact Iff.rfl
  have hseen : (∃ v, Reader.value.Recovers m depth j v) ↔
      ∃ w, j.seen m depth = some w ∧ ∃ v, Reader.value m w = .ok v := by
    unfold Recovers
    tauto
  rw [hseen, htree]
  simp only [hvalue]
  cases m with
  | tree =>
    rw [← htree]
    constructor
    · rintro ⟨w, hw, -⟩
      exact ⟨w, hw⟩
    · rintro ⟨w, hw⟩
      exact ⟨w, hw, Option.isSome_iff_exists.2 ⟨w, normal_of_value? hw⟩⟩
  | stream | toml => simp [seen]

/-- **A value of finite doubles is read again exactly if it does not nest too deep** where it
stands. -/
theorem recovers_value_iff {m : Medium} {j : Json} (h : Over finiteDoubles j) {depth : Nat} :
    (∃ v, Reader.value.Recovers m depth j v) ↔
      j.height = 0 ∨ depth + j.height ≤ nestingLimit + 1 :=
  exists_recovers_value.trans (exists_seen_iff h)

end Reader

end AnalysisGate
