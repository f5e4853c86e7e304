/-!
Maps kept as entries in strictly ascending key order.

The order is part of the type, so two maps with the same look-ups are the same value
(`SortedMap.ext_get?`), and what a map prints depends only on what it holds. The view of a map
is `get?`; each operation has one equation through it (`get?_insert`, `get?_erase`,
`get?_filterMap`).
-/
namespace AnalysisGate

/-- Entries whose keys ascend strictly under `compare`. -/
structure SortedMap (κ α : Type) [Ord κ] where
  entries : List (κ × α)
  ascending : entries.Pairwise fun a b => compare a.1 b.1 = .lt

namespace SortedMap

/-! ## Entry lists -/

section Entries

variable {κ α β : Type} [Ord κ]

/-- The value at `k` in an ascending entry list. -/
def lookup (k : κ) : List (κ × α) → Option α
  | [] => none
  | (k', v) :: rest => if compare k k' = .eq then some v else lookup k rest

/-- Put `v` at `k`, before the first larger key and in place of an equal one. -/
def place (k : κ) (v : α) : List (κ × α) → List (κ × α)
  | [] => [(k, v)]
  | (k', v') :: rest =>
    match compare k k' with
    | .lt => (k, v) :: (k', v') :: rest
    | .eq => (k, v) :: rest
    | .gt => (k', v') :: place k v rest

theorem mem_place {k : κ} {v : α} {e : κ × α} :
    ∀ {l : List (κ × α)}, e ∈ place k v l → e = (k, v) ∨ e ∈ l
  | [], h => by simpa [place] using h
  | (k', v') :: rest, h => by
    unfold place at h
    split at h
    · simpa using h
    · rcases List.mem_cons.1 h with h | h
      · exact .inl h
      · exact .inr (List.mem_cons_of_mem _ h)
    · rcases List.mem_cons.1 h with h | h
      · exact .inr (h ▸ List.mem_cons_self ..)
      · exact (mem_place h).imp id (List.mem_cons_of_mem _)

variable [Std.TransOrd κ] [Std.LawfulEqOrd κ]

theorem place_ascending (k : κ) (v : α) :
    ∀ {l : List (κ × α)}, (l.Pairwise fun a b => compare a.1 b.1 = .lt) →
      ((place k v l).Pairwise fun a b => compare a.1 b.1 = .lt)
  | [], _ => by simp [place]
  | (k', v') :: rest, h => by
    have hhead := (List.pairwise_cons.1 h).1
    have htail := (List.pairwise_cons.1 h).2
    unfold place
    split
    · next hlt =>
      refine List.pairwise_cons.2 ⟨fun e he => ?_, h⟩
      rcases List.mem_cons.1 he with rfl | he
      · exact hlt
      · exact Std.TransCmp.lt_trans hlt (hhead e he)
    · next heq =>
      have hk : k = k' := Std.LawfulEqCmp.eq_of_compare heq
      exact List.pairwise_cons.2 ⟨fun e he => hk ▸ hhead e he, htail⟩
    · next hgt =>
      refine List.pairwise_cons.2 ⟨fun e he => ?_, place_ascending k v htail⟩
      rcases mem_place he with rfl | he
      · exact Std.OrientedCmp.lt_of_gt hgt
      · exact hhead e he

end Entries

/-! ## Operations -/

variable {κ α β : Type} [Ord κ]

instance [DecidableEq κ] [DecidableEq α] : DecidableEq (SortedMap κ α) := fun a b =>
  if h : a.entries = b.entries then
    .isTrue (by cases a; cases b; cases h; rfl)
  else
    .isFalse (fun e => h (e ▸ rfl))

def empty : SortedMap κ α := ⟨[], .nil⟩

instance : EmptyCollection (SortedMap κ α) := ⟨empty⟩
instance : Inhabited (SortedMap κ α) := ⟨empty⟩

def get? (m : SortedMap κ α) (k : κ) : Option α := lookup k m.entries

@[simp] theorem get?_empty (k : κ) : (empty : SortedMap κ α).get? k = none := rfl

def contains (m : SortedMap κ α) (k : κ) : Bool := (m.get? k).isSome

def keys (m : SortedMap κ α) : List κ := m.entries.map Prod.fst

def values (m : SortedMap κ α) : List α := m.entries.map Prod.snd

def size (m : SortedMap κ α) : Nat := m.entries.length

def isEmpty (m : SortedMap κ α) : Bool := m.entries.isEmpty

/-- Keep the entries for which `f` gives a value, under that value. -/
def filterMap (f : κ → α → Option β) (m : SortedMap κ α) : SortedMap κ β where
  entries := m.entries.filterMap fun e => (f e.1 e.2).map (e.1, ·)
  ascending := by
    refine List.pairwise_filterMap.2 (m.ascending.imp ?_)
    intro a b hab a' ha b' hb
    obtain ⟨_, _, rfl⟩ := Option.map_eq_some_iff.1 ha
    obtain ⟨_, _, rfl⟩ := Option.map_eq_some_iff.1 hb
    exact hab

/-- Change every value, keeping the keys. -/
def mapValues (f : κ → α → β) (m : SortedMap κ α) : SortedMap κ β where
  entries := m.entries.map fun e => (e.1, f e.1 e.2)
  ascending := List.pairwise_map.2 m.ascending

/-- Keep the entries that satisfy `p`. -/
def filter (p : κ → α → Bool) (m : SortedMap κ α) : SortedMap κ α where
  entries := m.entries.filter fun e => p e.1 e.2
  ascending := m.ascending.filter _

/-- Drop the entry at `k`, if there is one. -/
def erase (m : SortedMap κ α) (k : κ) : SortedMap κ α :=
  m.filter fun k' _ => compare k k' != .eq

variable [Std.TransOrd κ] [Std.LawfulEqOrd κ]

/-- Put `v` at `k`, replacing what was there. -/
def insert (m : SortedMap κ α) (k : κ) (v : α) : SortedMap κ α :=
  ⟨place k v m.entries, place_ascending k v m.ascending⟩

/-- All pairs of a list; of two pairs with one key the later wins. -/
def ofList (l : List (κ × α)) : SortedMap κ α := l.foldl (fun m e => m.insert e.1 e.2) empty

/-- The entries of both maps; of two at one key that of `n`. -/
def merge (m n : SortedMap κ α) : SortedMap κ α :=
  n.entries.foldl (fun m e => m.insert e.1 e.2) m

/-- Put `f` of what is at `k` there. -/
def alter (m : SortedMap κ α) (k : κ) (f : Option α → α) : SortedMap κ α :=
  m.insert k (f (m.get? k))

/-! ## Look-ups -/

section Views

variable {κ α β : Type} [Ord κ] [Std.LawfulEqOrd κ]

theorem lookup_place [DecidableEq κ] (k k' : κ) (v : α) :
    ∀ (l : List (κ × α)), lookup k' (place k v l) = if k' = k then some v else lookup k' l
  | [] => by
    by_cases h : k' = k <;> simp [place, lookup, Std.LawfulEqCmp.compare_eq_iff_eq, h]
  | (k₀, v₀) :: rest => by
    have ih := lookup_place k k' v rest
    unfold place
    split
    · by_cases h : k' = k <;> simp [lookup, Std.LawfulEqCmp.compare_eq_iff_eq, h]
    · next heq =>
      have hk : k = k₀ := Std.LawfulEqCmp.eq_of_compare heq
      by_cases h : k' = k
      · simp [lookup, h]
      · have h₀ : k' ≠ k₀ := hk ▸ h
        simp [lookup, Std.LawfulEqCmp.compare_eq_iff_eq, h, h₀]
    · next hgt =>
      have hne : k ≠ k₀ := by
        rintro rfl
        have hself : compare k k = .eq := Std.ReflCmp.compare_self
        rw [hself] at hgt
        cases hgt
      by_cases h : k' = k₀
      · subst h
        simp [lookup, Ne.symm hne]
      · simp [lookup, Std.LawfulEqCmp.compare_eq_iff_eq, h, ih]

theorem lookup_eq_some_iff {l : List (κ × α)}
    (hl : l.Pairwise fun a b => compare a.1 b.1 = .lt) {k : κ} {v : α} :
    lookup k l = some v ↔ (k, v) ∈ l := by
  induction l with
  | nil => simp [lookup]
  | cons e rest ih =>
    obtain ⟨k₀, v₀⟩ := e
    have hhead := (List.pairwise_cons.1 hl).1
    have ih := ih (List.pairwise_cons.1 hl).2
    unfold lookup
    split
    · next heq =>
      have hk : k = k₀ := Std.LawfulEqCmp.eq_of_compare heq
      subst hk
      constructor
      · rintro h
        cases h
        exact List.mem_cons_self ..
      · intro h
        rcases List.mem_cons.1 h with h | h
        · cases h; rfl
        · have := hhead _ h
          rw [heq] at this
          cases this
    · next hne =>
      rw [ih]
      constructor
      · exact List.mem_cons_of_mem _
      · intro h
        rcases List.mem_cons.1 h with h | h
        · cases h
          exact absurd Std.ReflCmp.compare_self hne
        · exact h

theorem get?_eq_some_iff {m : SortedMap κ α} {k : κ} {v : α} :
    m.get? k = some v ↔ (k, v) ∈ m.entries :=
  lookup_eq_some_iff m.ascending

theorem get?_filterMap (f : κ → α → Option β) (m : SortedMap κ α) (k : κ) :
    (m.filterMap f).get? k = (m.get? k).bind (f k) := by
  refine Option.ext fun b => ?_
  rw [get?_eq_some_iff, Option.bind_eq_some_iff]
  simp only [filterMap, List.mem_filterMap, Option.map_eq_some_iff, get?_eq_some_iff]
  constructor
  · rintro ⟨⟨k', a⟩, he, b', hb, heq⟩
    cases heq
    exact ⟨a, he, hb⟩
  · rintro ⟨a, he, hb⟩
    exact ⟨(k, a), he, b, hb, rfl⟩

theorem get?_mapValues (f : κ → α → β) (m : SortedMap κ α) (k : κ) :
    (m.mapValues f).get? k = (m.get? k).map (f k) := by
  refine Option.ext fun b => ?_
  rw [get?_eq_some_iff, Option.map_eq_some_iff]
  simp only [mapValues, List.mem_map, get?_eq_some_iff]
  constructor
  · rintro ⟨⟨k', a⟩, he, heq⟩
    cases heq
    exact ⟨a, he, rfl⟩
  · rintro ⟨a, he, rfl⟩
    exact ⟨(k, a), he, rfl⟩

theorem get?_filter (p : κ → α → Bool) (m : SortedMap κ α) (k : κ) :
    (m.filter p).get? k = (m.get? k).filter (p k) := by
  refine Option.ext fun b => ?_
  rw [get?_eq_some_iff, Option.filter_eq_some_iff]
  simp only [filter, List.mem_filter, get?_eq_some_iff]

theorem get?_erase [DecidableEq κ] (m : SortedMap κ α) (k k' : κ) :
    (m.erase k).get? k' = if k' = k then none else m.get? k' := by
  have hkeep (a : α) : (compare k k' != .eq) = !decide (k' = k) := by
    by_cases h : k' = k
    · subst h
      simp
    · have hne : compare k k' ≠ .eq := fun hc => h (Std.LawfulEqCmp.eq_of_compare hc).symm
      simp [h, hne]
  rw [erase, get?_filter]
  cases hm : m.get? k' with
  | none => simp
  | some a =>
    by_cases h : k' = k <;> simp [Option.filter, hkeep a, h]

end Views

section Laws

variable {κ α : Type} [Ord κ] [Std.TransOrd κ] [Std.LawfulEqOrd κ]

theorem get?_insert [DecidableEq κ] (m : SortedMap κ α) (k k' : κ) (v : α) :
    (m.insert k v).get? k' = if k' = k then some v else m.get? k' :=
  lookup_place k k' v m.entries

/-- Two strictly ascending lists with the same members are the same list. -/
theorem eq_of_mem_iff {l₁ l₂ : List (κ × α)}
    (h₁ : l₁.Pairwise fun a b => compare a.1 b.1 = .lt)
    (h₂ : l₂.Pairwise fun a b => compare a.1 b.1 = .lt)
    (h : ∀ e, e ∈ l₁ ↔ e ∈ l₂) : l₁ = l₂ := by
  have irrefl (a : κ) : compare a a ≠ .lt := by
    have hself : compare a a = .eq := Std.ReflCmp.compare_self
    rw [hself]
    exact Ordering.noConfusion
  induction l₁ generalizing l₂ with
  | nil =>
    cases l₂ with
    | nil => rfl
    | cons b r₂ => exact absurd ((h b).2 (List.mem_cons_self ..)) (by simp)
  | cons a r₁ ih =>
    cases l₂ with
    | nil => exact absurd ((h a).1 (List.mem_cons_self ..)) (by simp)
    | cons b r₂ =>
      have ha := (List.pairwise_cons.1 h₁).1
      have hb := (List.pairwise_cons.1 h₂).1
      have hab : a = b := by
        rcases List.mem_cons.1 ((h a).1 (List.mem_cons_self ..)) with hab | hab
        · exact hab
        rcases List.mem_cons.1 ((h b).2 (List.mem_cons_self ..)) with hba | hba
        · exact hba.symm
        exact absurd (Std.TransCmp.lt_trans (hb a hab) (ha b hba)) (irrefl _)
      subst hab
      congr 1
      refine ih (List.pairwise_cons.1 h₁).2 (List.pairwise_cons.1 h₂).2 fun e => ?_
      constructor
      · intro he
        rcases List.mem_cons.1 ((h e).1 (List.mem_cons_of_mem _ he)) with rfl | he'
        · exact absurd (ha e he) (irrefl _)
        · exact he'
      · intro he
        rcases List.mem_cons.1 ((h e).2 (List.mem_cons_of_mem _ he)) with rfl | he'
        · exact absurd (hb e he) (irrefl _)
        · exact he'

/-- A map is what it holds. -/
theorem ext_get? {m₁ m₂ : SortedMap κ α} (h : ∀ k, m₁.get? k = m₂.get? k) : m₁ = m₂ := by
  have hentries : m₁.entries = m₂.entries := by
    refine eq_of_mem_iff m₁.ascending m₂.ascending fun e => ?_
    obtain ⟨k, v⟩ := e
    rw [← get?_eq_some_iff, ← get?_eq_some_iff, h]
  cases m₁
  cases m₂
  cases hentries
  rfl

end Laws

end SortedMap

/-- A set is a map whose values say nothing. -/
abbrev SortedSet (κ : Type) [Ord κ] := SortedMap κ Unit

namespace SortedSet

variable {κ : Type} [Ord κ] [Std.TransOrd κ] [Std.LawfulEqOrd κ]

def ofList (l : List κ) : SortedSet κ := SortedMap.ofList (l.map (·, ()))

def add (s : SortedSet κ) (k : κ) : SortedSet κ := s.insert k ()

def union (s t : SortedSet κ) : SortedSet κ := t.keys.foldl add s

end SortedSet

end AnalysisGate
