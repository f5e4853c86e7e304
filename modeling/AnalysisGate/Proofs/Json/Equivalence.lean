import AnalysisGate.Signature
import AnalysisGate.Proofs.Json.Unambiguous
import Mathlib

/-!
Values up to lists that are sets.

Two documents are equivalent if they are equal once every list under the key of a set is read as
the set of its items, and every object as what it holds under each key. The order of keys is
nothing to that, nor is a member that a later one of its key hides: documents are equivalent
exactly if the values that they stand for are (`equivalent_value`).
-/
namespace AnalysisGate.Json

theorem get?_eq_ofList (m : List (String × Json)) (k : String) :
    get? (.object m) k = (SortedMap.ofList m).get? k := (SortedMap.get?_ofList m k).symm

theorem mem_of_get? {m : List (String × Json)} {k : String} {i : Json}
    (h : get? (.object m) k = some i) : (k, i) ∈ m := by
  rw [get?_eq_ofList] at h
  exact SortedMap.mem_of_get?_ofList h

theorem sizeOf_get? {m : List (String × Json)} {k : String} {i : Json}
    (h : get? (.object m) k = some i) : sizeOf i < sizeOf (Json.object m) := by
  have hm := List.sizeOf_lt_of_mem (mem_of_get? h)
  simp only [Prod.mk.sizeOf_spec, Json.object.sizeOf_spec] at hm ⊢
  omega

/-- Two documents are alike; `asSet` says whether a list is read as the set of its items. -/
def Alike (asSet : Bool) : Json → Json → Prop
  | .array l, .array l' =>
    if asSet then
      -- an item that is a list is not itself under the key, so its order counts
      (∀ i (_ : i ∈ l), ∃ i' ∈ l', Alike false i i') ∧
        ∀ i' ∈ l', ∃ i, ∃ _ : i ∈ l, Alike false i i'
    else
      l.length = l'.length ∧
        ∀ n (_ : n < l.length) (_ : n < l'.length), Alike false l[n] l'[n]
  | .object l, .object l' =>
    ∀ k, (get? (.object l) k).isSome = (get? (.object l') k).isSome ∧
      ∀ i (_ : get? (.object l) k = some i) i', get? (.object l') k = some i' →
        Alike (isSetKey k) i i'
  | j, j' => j = j'
termination_by j => sizeOf j
decreasing_by
  · have := List.sizeOf_lt_of_mem ‹i ∈ l›
    simp
    omega
  · have := List.sizeOf_lt_of_mem ‹i ∈ l›
    simp
    omega
  · have := List.sizeOf_lt_of_mem (List.getElem_mem ‹n < l.length›)
    simp
    omega
  · exact sizeOf_get? ‹_›

/-- Equal up to the order and the repetitions in lists that are sets. -/
def Equivalent (j j' : Json) : Prop := Alike false j j'

variable {asSet : Bool} {l l' : List Json} {j j' : Json}

theorem alike_list : Alike false (.array l) (.array l') ↔ l.length = l'.length ∧
    ∀ n (_ : n < l.length) (_ : n < l'.length), Alike false l[n] l'[n] := by
  rw [Alike, if_neg Bool.false_ne_true]

theorem alike_set : Alike true (.array l) (.array l') ↔
    (∀ i ∈ l, ∃ i' ∈ l', Alike false i i') ∧ ∀ i' ∈ l', ∃ i ∈ l, Alike false i i' := by
  rw [Alike, if_pos rfl]
  simp only [exists_prop]

theorem alike_object {l l' : List (String × Json)} : Alike asSet (.object l) (.object l') ↔
    ∀ k, (get? (.object l) k).isSome = (get? (.object l') k).isSome ∧
      ∀ i, get? (.object l) k = some i → ∀ i', get? (.object l') k = some i' →
        Alike (isSetKey k) i i' := by
  rw [Alike]

/-- Documents that are not both lists or both objects are alike if they are equal. -/
theorem alike_other (harray : ∀ l l', j = .array l → j' = .array l' → False)
    (hobject : ∀ l l', j = .object l → j' = .object l' → False) :
    Alike asSet j j' ↔ j = j' := by
  rw [Alike] <;> assumption

/-- Documents of different kinds are not alike. -/
theorem Alike.kind (h : Alike asSet j j') : j.kind = j'.kind := by
  by_contra hkind
  have hother : j = j' := by
    refine (alike_other (fun l l' hj hj' => hkind ?_) fun l l' hj hj' => hkind ?_).1 h
    · rw [hj, hj']
      rfl
    · rw [hj, hj']
      rfl
  exact hkind (congrArg Json.kind hother)

/-! ## Documents and their values -/

variable {m : List (String × Json)} {v v' : Json}

theorem get?_object (h : m.Pairwise fun a b => compare a.1 b.1 = .lt) (k : String) :
    get? (.object m) k = (SortedMap.mk m h).get? k := by
  rw [get?_eq_ofList, SortedMap.ofList_of_ascending h]

theorem normal_array : Normal (.array l) ↔ ∀ j ∈ l, Normal j := by
  refine ⟨normal_item, fun h => ?_⟩
  have hvalues : valueItems? l = some l := valueItems?_eq_some.2 (List.forall₂_same.2 h)
  rw [Normal, value?, hvalues, Option.map_some]

theorem normal_object : Normal (.object m) ↔
    (m.Pairwise fun a b => compare a.1 b.1 = .lt) ∧ ∀ e ∈ m, Normal e.2 := by
  refine ⟨normal_member, fun ⟨hascending, h⟩ => ?_⟩
  have hvalues : valueMembers? m = some m :=
    valueMembers?_eq_some.2 (List.forall₂_same.2 fun e he => ⟨rfl, h e he⟩)
  rw [Normal, value?, hvalues, Option.map_some, SortedMap.ofList_of_ascending hascending]

theorem value?_array (h : value? (.array l) = some v) :
    ∃ vs, v = .array vs ∧ List.Forall₂ (fun j v => j.value? = some v) l vs := by
  obtain ⟨vs, hvs, rfl⟩ := Option.map_eq_some_iff.1 h
  exact ⟨vs, rfl, valueItems?_eq_some.1 hvs⟩

/-- Which members of a list stand to some of another is told by lists that are related to them. -/
theorem covers_iff {S S' R Q : Json → Json → Prop} {l l' vs vs' : List Json}
    (h : List.Forall₂ S l vs) (h' : List.Forall₂ S' l' vs')
    (hR : ∀ i ∈ l, ∀ i' ∈ l', ∀ w w', S i w → S' i' w' → (R i i' ↔ Q w w')) :
    (∀ i ∈ l, ∃ i' ∈ l', R i i') ↔ ∀ w ∈ vs, ∃ w' ∈ vs', Q w w' := by
  constructor
  · intro hall w hw
    obtain ⟨i, hi, hiw⟩ := exists_of_mem_right h hw
    obtain ⟨i', hi', hrel⟩ := hall i hi
    obtain ⟨w', hw', hiw'⟩ := exists_of_mem_left h' hi'
    exact ⟨w', hw', (hR i hi i' hi' w w' hiw hiw').1 hrel⟩
  · intro hall i hi
    obtain ⟨w, hw, hiw⟩ := exists_of_mem_left h hi
    obtain ⟨w', hw', hrel⟩ := hall w hw
    obtain ⟨i', hi', hiw'⟩ := exists_of_mem_right h' hw'
    exact ⟨i', hi', (hR i hi i' hi' w w' hiw hiw').2 hrel⟩

theorem map_find?_eq {α β γ : Type} {R : α → β → Prop} {p : α → Bool} {q : β → Bool} {f : α → γ}
    {g : β → γ} (hR : ∀ a b, R a b → p a = q b ∧ f a = g b) {l : List α} {l' : List β}
    (h : List.Forall₂ R l l') : (l.find? p).map f = (l'.find? q).map g := by
  induction h with
  | nil => rfl
  | @cons a b _ _ hab _ ih =>
    obtain ⟨htest, hvalue⟩ := hR a b hab
    rw [List.find?_cons, List.find?_cons, htest]
    cases q b with
    | true => exact congrArg some hvalue
    | false => exact ih

/-- The value of an object holds the values of what the object holds. -/
theorem value?_object (h : value? (.object m) = some v) :
    ∃ vs, v = .object vs ∧
      ∀ k, (get? (.object m) k).map value? = (get? (.object vs) k).map some := by
  obtain ⟨vs, hvs, rfl⟩ := Option.map_eq_some_iff.1 h
  refine ⟨_, rfl, fun k => ?_⟩
  have hsorted : get? (.object (SortedMap.ofList vs).entries) k = get? (.object vs) k := by
    rw [get?_object (SortedMap.ofList vs).ascending, get?_eq_ofList]
  rw [hsorted, get?, get?, Option.map_map, Option.map_map]
  refine map_find?_eq (fun e e' he => ?_) (List.forall₂_reverse_iff.2 (valueMembers?_eq_some.1 hvs))
  exact ⟨by rw [he.1], he.2⟩

theorem kind_value? (h : j.value? = some v) : v.kind = j.kind := by
  cases j with
  | null | bool | number | string => rw [← Option.some.inj h]
  | array => obtain ⟨vs, rfl, -⟩ := value?_array h; rfl
  | object => obtain ⟨vs, rfl, -⟩ := value?_object h; rfl
  | beyond => cases h

theorem eq_of_value? (h : j.value? = some v) (hlist : ∀ l, v ≠ .array l)
    (hobject : ∀ m, v ≠ .object m) : j = v := by
  cases j with
  | null | bool | number | string => exact Option.some.inj h
  | array => obtain ⟨vs, rfl, -⟩ := value?_array h; exact absurd rfl (hlist vs)
  | object => obtain ⟨vs, rfl, -⟩ := value?_object h; exact absurd rfl (hobject vs)
  | beyond => cases h

theorem alike_value_of_kind (h : j.value? = some v) (h' : j'.value? = some v')
    (hkind : j.kind ≠ j'.kind) : Alike asSet j j' ↔ Alike asSet v v' := by
  refine iff_of_false (fun halike => hkind halike.kind) fun halike => hkind ?_
  rw [← kind_value? h, ← kind_value? h', halike.kind]

theorem alike_value_of_scalar (h : j.value? = some j) (h' : j'.value? = some v')
    (hlist : ∀ l, j ≠ .array l) (hobject : ∀ m, j ≠ .object m) :
    Alike asSet j j' ↔ Alike asSet j v' := by
  rw [alike_other (fun l _ hj => absurd hj (hlist l)) fun m _ hj => absurd hj (hobject m),
    alike_other (fun l _ hj => absurd hj (hlist l)) fun m _ hj => absurd hj (hobject m)]
  constructor
  · rintro rfl
    exact Option.some.inj (h.symm.trans h')
  · rintro rfl
    exact (eq_of_value? h' hlist hobject).symm

/-- **Documents are alike exactly if their values are.** -/
theorem alike_value (h : j.value? = some v) (h' : j'.value? = some v') :
    Alike asSet j j' ↔ Alike asSet v v' := by
  -- the induction is on one document; the other has its kind, or nothing is alike on either side
  induction j using induct generalizing asSet j' v v' with
  | null | bool | number | string =>
    obtain rfl := Option.some.inj h
    exact alike_value_of_scalar h h' nofun nofun
  | beyond => cases h
  | array l ih =>
    cases j' with
    | array l' =>
      obtain ⟨vs, rfl, hvs⟩ := value?_array h
      obtain ⟨vs', rfl, hvs'⟩ := value?_array h'
      cases asSet with
      | false =>
        rw [alike_list, alike_list]
        refine and_congr (by rw [hvs.length_eq, hvs'.length_eq]) ?_
        refine forall_congr' fun n => ?_
        constructor
        · intro hall hw hw'
          have hn : n < l.length := hvs.length_eq ▸ hw
          have hn' : n < l'.length := hvs'.length_eq ▸ hw'
          exact (ih _ (List.getElem_mem hn) (hvs.get hn hw) (hvs'.get hn' hw')).1 (hall hn hn')
        · intro hall hn hn'
          have hw : n < vs.length := hvs.length_eq ▸ hn
          have hw' : n < vs'.length := hvs'.length_eq ▸ hn'
          exact (ih _ (List.getElem_mem hn) (hvs.get hn hw) (hvs'.get hn' hw')).2 (hall hw hw')
      | true =>
        rw [alike_set, alike_set]
        exact and_congr (covers_iff hvs hvs' fun i hi _ _ _ _ hiw hiw' => ih i hi hiw hiw')
          (covers_iff hvs' hvs fun _ _ i hi _ _ hiw' hiw => ih i hi hiw hiw')
    | null | bool | number | string | object | beyond => exact alike_value_of_kind h h' nofun
  | object m ih =>
    cases j' with
    | object m' =>
      obtain ⟨vs, rfl, hvs⟩ := value?_object h
      obtain ⟨vs', rfl, hvs'⟩ := value?_object h'
      rw [alike_object, alike_object]
      refine forall_congr' fun k => ?_
      have hk := hvs k
      have hk' := hvs' k
      have hsome : (get? (.object m) k).isSome = (get? (.object vs) k).isSome := by
        simpa using congrArg Option.isSome hk
      have hsome' : (get? (.object m') k).isSome = (get? (.object vs') k).isSome := by
        simpa using congrArg Option.isSome hk'
      refine and_congr (by rw [hsome, hsome']) ?_
      constructor
      · intro hall w hw w' hw'
        rw [hw] at hk
        rw [hw'] at hk'
        obtain ⟨i, hi, hiw⟩ := Option.map_eq_some_iff.1 hk
        obtain ⟨i', hi', hiw'⟩ := Option.map_eq_some_iff.1 hk'
        exact (ih (k, i) (mem_of_get? hi) hiw hiw').1 (hall i hi i' hi')
      · intro hall i hi i' hi'
        rw [hi] at hk
        rw [hi'] at hk'
        obtain ⟨w, hw, hiw⟩ := Option.map_eq_some_iff.1 hk.symm
        obtain ⟨w', hw', hiw'⟩ := Option.map_eq_some_iff.1 hk'.symm
        exact (ih (k, i) (mem_of_get? hi) hiw.symm hiw'.symm).2 (hall w hw w' hw')
    | null | bool | number | string | array | beyond => exact alike_value_of_kind h h' nofun

/-- The value that a document stands for is one. -/
theorem normal_of_value? (h : j.value? = some v) : v.Normal := by
  induction j using induct generalizing v with
  | null | bool | number | string =>
    rw [← Option.some.inj h]
    rfl
  | beyond => cases h
  | array l ih =>
    obtain ⟨vs, rfl, hvs⟩ := value?_array h
    refine normal_array.2 fun w hw => ?_
    obtain ⟨i, hi, hiw⟩ := exists_of_mem_right hvs hw
    exact ih i hi hiw
  | object m ih =>
    obtain ⟨vs, hvs, rfl⟩ := Option.map_eq_some_iff.1 h
    refine normal_object.2 ⟨(SortedMap.ofList vs).ascending, fun e he => ?_⟩
    have hmem : e ∈ vs := SortedMap.mem_of_get?_ofList (SortedMap.get?_eq_some_iff.2 he)
    obtain ⟨a, ha, -, hvalue⟩ := exists_of_mem_right (valueMembers?_eq_some.1 hvs) hmem
    exact ih a ha hvalue

theorem equivalent_value (h : j.value? = some v) (h' : j'.value? = some v') :
    j.Equivalent j' ↔ v.Equivalent v' := alike_value h h'

end AnalysisGate.Json
