import AnalysisGate.SortedMap
import Mathlib

/-!
Sorted maps and sets seen through their keys.

A key is in a map exactly when a look-up finds a value, the keys of a map ascend strictly, and a
set made of a list has the members of the list. What a fold of insertions leaves at a key is the
last value that was put there.
-/
namespace AnalysisGate

namespace SortedMap

variable {κ α β : Type} [Ord κ]

theorem entries_inj {m m' : SortedMap κ α} (h : m.entries = m'.entries) : m = m' := by
  cases m
  cases m'
  cases h
  rfl

theorem mapValues_congr {f g : κ → α → β} {m : SortedMap κ α}
    (h : ∀ e ∈ m.entries, f e.1 e.2 = g e.1 e.2) : m.mapValues f = m.mapValues g :=
  entries_inj (List.map_congr_left fun e he => Prod.ext rfl (h e he))

theorem mapValues_eq_self {f : κ → α → α} {m : SortedMap κ α}
    (h : ∀ e ∈ m.entries, f e.1 e.2 = e.2) : m.mapValues f = m := by
  have hentries : (m.entries.map fun e => (e.1, f e.1 e.2)) = m.entries.map id :=
    List.map_congr_left fun e he => Prod.ext rfl (h e he)
  exact entries_inj (hentries.trans (List.map_id _))

theorem mapValues_mapValues {γ : Type} (f : κ → α → β) (g : κ → β → γ) (m : SortedMap κ α) :
    (m.mapValues f).mapValues g = m.mapValues fun k a => g k (f k a) :=
  entries_inj (List.map_map ..)

theorem keys_ascending (m : SortedMap κ α) : m.keys.Pairwise fun a b => compare a b = .lt :=
  List.pairwise_map.2 m.ascending

theorem get?_of_isEmpty {m : SortedMap κ α} (h : m.isEmpty = true) (k : κ) : m.get? k = none := by
  have hl : m.entries = [] := List.isEmpty_iff.1 h
  simp [get?, hl, lookup]

section

variable [Std.LawfulEqOrd κ]

theorem lookup_cons [DecidableEq κ] (k k' : κ) (v : α) (l : List (κ × α)) :
    lookup k ((k', v) :: l) = if k = k' then some v else lookup k l := by
  by_cases h : k = k' <;> simp [lookup, Std.LawfulEqCmp.compare_eq_iff_eq, h]

theorem mem_keys {m : SortedMap κ α} {k : κ} : k ∈ m.keys ↔ (m.get? k).isSome := by
  simp only [keys, List.mem_map, Prod.exists, exists_and_right, exists_eq_right,
    Option.isSome_iff_exists, get?_eq_some_iff]

theorem contains_iff_mem_keys {m : SortedMap κ α} {k : κ} : m.contains k = true ↔ k ∈ m.keys :=
  mem_keys.symm

theorem get?_none_of_not_mem {m : SortedMap κ α} {k : κ} (h : k ∉ m.keys) : m.get? k = none := by
  rw [mem_keys] at h
  simpa using h

theorem mem_values_of_get? {m : SortedMap κ α} {k : κ} {v : α} (h : m.get? k = some v) :
    v ∈ m.values :=
  List.mem_map.2 ⟨(k, v), get?_eq_some_iff.1 h, rfl⟩

theorem nodup_of_ascending {l : List (κ × α)}
    (h : l.Pairwise fun a b => compare a.1 b.1 = .lt) : (l.map Prod.fst).Nodup := by
  refine List.pairwise_map.2 (h.imp fun {a b} hlt heq => ?_)
  have hself : compare b.1 b.1 = .eq := Std.ReflCmp.compare_self
  rw [heq, hself] at hlt
  cases hlt

end

/-! ## Folds of insertions -/

variable [Std.TransOrd κ] [Std.LawfulEqOrd κ] [DecidableEq κ]

/-- Of the values that are put at a key the last one stays. -/
theorem get?_foldl_insert (l : List (κ × α)) (m : SortedMap κ α) (k : κ) :
    (l.foldl (fun m e => m.insert e.1 e.2) m).get? k =
      ((l.reverse.find? (·.1 = k)).map (·.2)).or (m.get? k) := by
  induction l generalizing m with
  | nil => simp
  | cons e rest ih =>
    rw [List.foldl_cons, ih, get?_insert, List.reverse_cons, List.find?_append]
    cases List.find? (fun x => decide (x.1 = k)) rest.reverse with
    | some x => simp
    | none =>
      by_cases h : e.1 = k
      · simp [h]
      · simp [h, Ne.symm h]

theorem mem_keys_insert {m : SortedMap κ α} {k k' : κ} {v : α} :
    k' ∈ (m.insert k v).keys ↔ k' = k ∨ k' ∈ m.keys := by
  rw [mem_keys, get?_insert, mem_keys]
  by_cases h : k' = k <;> simp [h]

/-- What comes about only through one of the steps of a fold. -/
theorem foldl_iff {σ β : Type} {f : σ → β → σ} {P : σ → Prop} {Q : β → Prop}
    (hstep : ∀ c b, P (f c b) ↔ P c ∨ Q b) (l : List β) (c : σ) :
    P (l.foldl f c) ↔ P c ∨ ∃ b ∈ l, Q b := by
  induction l generalizing c with
  | nil => simp
  | cons b rest ih => rw [List.foldl_cons, ih, hstep, List.exists_mem_cons_iff, or_assoc]

theorem mem_keys_foldl_insert {β : Type} (f : β → κ) (g : β → α) (l : List β)
    (m : SortedMap κ α) {k : κ} :
    k ∈ (l.foldl (fun m b => m.insert (f b) (g b)) m).keys ↔ k ∈ m.keys ∨ ∃ b ∈ l, k = f b := by
  refine foldl_iff (P := fun m : SortedMap κ α => k ∈ m.keys) (Q := fun b => k = f b) ?_ l m
  intro m b
  rw [mem_keys_insert, or_comm]

theorem get?_ofList (l : List (κ × α)) (k : κ) :
    (ofList l).get? k = (l.reverse.find? (·.1 = k)).map (·.2) := by
  rw [ofList, get?_foldl_insert]
  simp

/-- The keys of a map made of a list are those of the list. -/
theorem mem_keys_ofList {l : List (κ × α)} {k : κ} : k ∈ (ofList l).keys ↔ k ∈ l.map Prod.fst := by
  rw [mem_keys, get?_ofList, Option.isSome_map, List.find?_isSome]
  simp

/-- A map has nothing that is not in the list that it is made of. -/
theorem mem_of_get?_ofList {l : List (κ × α)} {k : κ} {v : α} (h : (ofList l).get? k = some v) :
    (k, v) ∈ l := by
  rw [get?_ofList, Option.map_eq_some_iff] at h
  obtain ⟨e, he, rfl⟩ := h
  have hk : e.1 = k := by simpa using List.find?_some he
  have hmem := List.mem_of_find?_eq_some he
  rw [List.mem_reverse] at hmem
  rwa [← hk]

/-- A list that has each key once puts into a map exactly what it has. -/
theorem get?_ofList_eq_some {l : List (κ × α)} (h : (l.map Prod.fst).Nodup) {k : κ} {v : α} :
    (ofList l).get? k = some v ↔ (k, v) ∈ l := by
  refine ⟨mem_of_get?_ofList, fun hmem => ?_⟩
  have hkey : k ∈ (ofList l).keys := mem_keys_ofList.2 (List.mem_map_of_mem hmem)
  obtain ⟨v', hv'⟩ := Option.isSome_iff_exists.1 (mem_keys.1 hkey)
  have hsame : (k, v') = (k, v) := List.inj_on_of_nodup_map h (mem_of_get?_ofList hv') hmem rfl
  rw [hv', (Prod.mk.inj hsame).2]

/-- A list that ascends is already the entries of its map. -/
theorem ofList_of_ascending {l : List (κ × α)}
    (h : l.Pairwise fun a b => compare a.1 b.1 = .lt) : ofList l = ⟨l, h⟩ := by
  refine ext_get? fun k => Option.ext fun v => ?_
  rw [get?_ofList_eq_some (nodup_of_ascending h), get?_eq_some_iff]

theorem ofList_entries (m : SortedMap κ α) : ofList m.entries = m :=
  ofList_of_ascending m.ascending

/-- Of two maps the one that is merged in decides first. -/
theorem get?_merge (m n : SortedMap κ α) (k : κ) :
    (m.merge n).get? k = (n.get? k).or (m.get? k) := by
  rw [merge, get?_foldl_insert, ← get?_ofList, ofList_entries]

end SortedMap

/-! ## Maps with related values -/

namespace SortedMap

variable {κ α β : Type} [Ord κ]

/-- Two maps have the same keys, and related values at each. -/
def Rel (R : α → β → Prop) (m : SortedMap κ α) (n : SortedMap κ β) : Prop :=
  ∀ k, Option.Rel R (m.get? k) (n.get? k)

theorem rel_self {R : α → α → Prop} (hR : ∀ a, R a a) (m : SortedMap κ α) : Rel R m m := by
  intro k
  cases m.get? k with
  | none => exact .none
  | some a => exact .some (hR a)

theorem Rel.exists_right {R : α → β → Prop} {m : SortedMap κ α} {n : SortedMap κ β}
    (h : Rel R m n) {k : κ} {a : α} (ha : m.get? k = some a) :
    ∃ b, n.get? k = some b ∧ R a b := by
  have hk := h k
  rw [ha] at hk
  generalize n.get? k = y at hk ⊢
  cases hk with
  | some hab => exact ⟨_, rfl, hab⟩

theorem Rel.none_right {R : α → β → Prop} {m : SortedMap κ α} {n : SortedMap κ β}
    (h : Rel R m n) {k : κ} (hk : m.get? k = none) : n.get? k = none := by
  have hrel := h k
  rw [hk] at hrel
  generalize n.get? k = y at hrel ⊢
  cases hrel
  rfl

theorem Rel.mono {R S : α → β → Prop} {m : SortedMap κ α} {n : SortedMap κ β} (h : Rel R m n)
    (hR : ∀ {a b}, R a b → S a b) : Rel S m n := by
  intro k
  cases hk : m.get? k with
  | none =>
    rw [h.none_right hk]
    exact .none
  | some a =>
    obtain ⟨b, hb, hab⟩ := h.exists_right hk
    rw [hb]
    exact .some (hR hab)

/-- Related maps give related values at every key, as long as what stands for none is related. -/
theorem Rel.getD {R : α → β → Prop} {m : SortedMap κ α} {n : SortedMap κ β} {a : α} {b : β}
    (h : Rel R m n) (hab : R a b) (k : κ) : R ((m.get? k).getD a) ((n.get? k).getD b) := by
  cases hk : m.get? k with
  | none =>
    rw [h.none_right hk]
    exact hab
  | some a' =>
    obtain ⟨b', hb', hab'⟩ := h.exists_right hk
    rw [hb']
    exact hab'

theorem Rel.mem_keys [Std.TransOrd κ] [Std.LawfulEqOrd κ] {R : α → β → Prop} {m : SortedMap κ α}
    {n : SortedMap κ β} (h : Rel R m n) {k : κ} : k ∈ n.keys ↔ k ∈ m.keys := by
  rw [SortedMap.mem_keys, SortedMap.mem_keys]
  cases hk : m.get? k with
  | none => rw [h.none_right hk, Option.isSome_none, Option.isSome_none]
  | some a =>
    obtain ⟨b, hb, -⟩ := h.exists_right hk
    rw [hb, Option.isSome_some, Option.isSome_some]

theorem Rel.right_unique [Std.TransOrd κ] [Std.LawfulEqOrd κ] {R : α → β → Prop}
    {m : SortedMap κ α} {n n' : SortedMap κ β} (h : Rel R m n) (h' : Rel R m n')
    (hR : ∀ {a b b'}, R a b → R a b' → b = b') : n = n' := by
  refine ext_get? fun k => ?_
  cases hk : m.get? k with
  | none => rw [h.none_right hk, h'.none_right hk]
  | some a =>
    obtain ⟨b, hb, hab⟩ := h.exists_right hk
    obtain ⟨b', hb', hab'⟩ := h'.exists_right hk
    rw [hb, hb', hR hab hab']

/-- Maps whose related values are equal are the same map. -/
theorem Rel.eq [Std.TransOrd κ] [Std.LawfulEqOrd κ] {R : α → α → Prop} {m n : SortedMap κ α}
    (h : Rel R m n) (hR : ∀ {a b}, R a b → a = b) : m = n := by
  refine ext_get? fun k => ?_
  cases hk : m.get? k with
  | none => rw [h.none_right hk]
  | some a =>
    obtain ⟨b, hb, hab⟩ := h.exists_right hk
    rw [hb, hR hab]

end SortedMap

namespace SortedSet

variable {κ : Type} [Ord κ] [Std.TransOrd κ] [Std.LawfulEqOrd κ] [DecidableEq κ]

theorem mem_keys_ofList {l : List κ} {k : κ} : k ∈ (SortedSet.ofList l).keys ↔ k ∈ l := by
  rw [SortedSet.ofList, SortedMap.mem_keys_ofList, List.map_map]
  simp

/-- Lists with the same members make one set. -/
theorem ofList_congr {l l' : List κ} (h : ∀ k, k ∈ l ↔ k ∈ l') :
    SortedSet.ofList l = SortedSet.ofList l' := by
  refine SortedMap.ext_get? fun k => ?_
  have hkeys : ((SortedSet.ofList l).get? k).isSome = ((SortedSet.ofList l').get? k).isSome := by
    rw [Bool.eq_iff_iff, ← SortedMap.mem_keys, ← SortedMap.mem_keys, mem_keys_ofList,
      mem_keys_ofList, h]
  revert hkeys
  cases (SortedSet.ofList l).get? k <;> cases (SortedSet.ofList l').get? k <;> simp

theorem ofList_keys (s : SortedSet κ) : SortedSet.ofList s.keys = s := by
  have hpairs : s.keys.map (·, ()) = s.entries := by
    rw [SortedMap.keys, List.map_map]
    exact List.map_id _
  rw [SortedSet.ofList, hpairs, SortedMap.ofList_entries]

end SortedSet

end AnalysisGate
