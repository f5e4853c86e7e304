import AnalysisGate.Json.Decode
import AnalysisGate.Proofs.Json.Documents
import AnalysisGate.Proofs.MapViews
import Mathlib

/-!
Values recovered from text.

What is written as a part of a document and read again goes through text, for a value through the
sorting of members, and through a reader. `Reader.Recovers` says what comes out at the end; there
is one equation for it per reader, so what comes out of a record is computed from its fields.
-/
namespace AnalysisGate

/-! ## Related lists -/

section Lists

variable {α β γ : Type} {R : α → β → Prop}

theorem forall₂_comp {S : β → γ → Prop} {l : List α} {n : List γ} :
    (∃ m, List.Forall₂ R l m ∧ List.Forall₂ S m n) ↔
      List.Forall₂ (fun a c => ∃ b, R a b ∧ S b c) l n := by
  induction l generalizing n with
  | nil => simp
  | cons a l ih =>
    simp only [List.forall₂_cons_left_iff, ← ih]
    constructor
    · rintro ⟨m, ⟨b, m, hb, hm, rfl⟩, hn⟩
      obtain ⟨c, n, hc, hrest, rfl⟩ := List.forall₂_cons_left_iff.1 hn
      exact ⟨c, n, ⟨b, hb, hc⟩, ⟨m, hm, hrest⟩, rfl⟩
    · rintro ⟨c, n, ⟨b, hb, hc⟩, ⟨m, hm, hn⟩, rfl⟩
      exact ⟨b :: m, ⟨b, m, hb, hm, rfl⟩, .cons hc hn⟩

theorem exists_forall₂ {l : List α} (h : ∀ a ∈ l, ∃ b, R a b) : ∃ m, List.Forall₂ R l m := by
  induction l with
  | nil => exact ⟨[], .nil⟩
  | cons a l ih =>
    rw [List.forall_mem_cons] at h
    obtain ⟨b, hb⟩ := h.1
    obtain ⟨m, hm⟩ := ih h.2
    exact ⟨b :: m, .cons hb hm⟩

theorem exists_of_mem_left {l : List α} {m : List β} (h : List.Forall₂ R l m) {a : α}
    (ha : a ∈ l) : ∃ b ∈ m, R a b := by
  induction h with
  | nil => cases ha
  | cons hab _ ih =>
    rcases List.mem_cons.1 ha with rfl | ha
    · exact ⟨_, List.mem_cons_self .., hab⟩
    · obtain ⟨b, hb, hr⟩ := ih ha
      exact ⟨b, List.mem_cons_of_mem _ hb, hr⟩

theorem exists_of_mem_right {l : List α} {m : List β} (h : List.Forall₂ R l m) {b : β}
    (hb : b ∈ m) : ∃ a ∈ l, R a b :=
  exists_of_mem_left (R := fun b a => R a b) h.flip hb

theorem map_eq_of_forall₂ {f : α → γ} {g : β → γ} {l : List α} {m : List β}
    (h : List.Forall₂ R l m) (hR : ∀ a ∈ l, ∀ b, R a b → f a = g b) : l.map f = m.map g := by
  induction h with
  | nil => rfl
  | cons hab _ ih =>
    rw [List.forall_mem_cons] at hR
    rw [List.map_cons, List.map_cons, hR.1 _ hab, ih hR.2]

theorem forall₂_eq_map {f : α → β} (hR : ∀ a b, R a b ↔ f a = b) {l : List α} {m : List β} :
    List.Forall₂ R l m ↔ l.map f = m := by
  have hfun : R = fun a b => f a = b := by
    funext a b
    exact propext (hR a b)
  rw [hfun, ← List.forall₂_map_left_iff (R := Eq), List.forall₂_eq_eq_eq]

end Lists

namespace Json

/-! ## Parts of what is read -/

theorem valueItems?_eq_some {l vs : List Json} :
    valueItems? l = some vs ↔ List.Forall₂ (fun j v => j.value? = some v) l vs := by
  induction l generalizing vs with
  | nil => simp [valueItems?, eq_comm]
  | cons j l ih =>
    simp only [valueItems?, Option.bind_eq_bind, Option.bind_eq_some_iff, Option.pure_def,
      Option.some.injEq, ih, List.forall₂_cons_left_iff]
    constructor
    · rintro ⟨v, hv, vs, hvs, rfl⟩
      exact ⟨v, vs, hv, hvs, rfl⟩
    · rintro ⟨v, vs, hv, hvs, rfl⟩
      exact ⟨v, hv, vs, hvs, rfl⟩

theorem valueMembers?_eq_some {l vs : List (String × Json)} :
    valueMembers? l = some vs ↔
      List.Forall₂ (fun e v => e.1 = v.1 ∧ e.2.value? = some v.2) l vs := by
  induction l generalizing vs with
  | nil => simp [valueMembers?, eq_comm]
  | cons e l ih =>
    simp only [valueMembers?, Option.bind_eq_bind, Option.bind_eq_some_iff, Option.pure_def,
      Option.some.injEq, ih, List.forall₂_cons_left_iff]
    constructor
    · rintro ⟨v, hv, vs, hvs, rfl⟩
      exact ⟨(e.1, v), vs, ⟨rfl, hv⟩, hvs, rfl⟩
    · rintro ⟨⟨k, v⟩, vs, ⟨rfl, hv⟩, hvs, rfl⟩
      exact ⟨v, hv, vs, hvs, rfl⟩

/-- What a reader of a medium is given for the text of a document at a depth: the document that
is read back, which for a tree has to be a value. -/
def seen (m : Medium) (depth : Nat) (j : Json) : Option Json :=
  if m = .tree then (j.reread depth).value? else some (j.reread depth)

/-- The members of an object as a medium gives them. -/
def arrange (m : Medium) (l : List (String × Json)) : List (String × Json) :=
  if m = .tree then (SortedMap.ofList l).entries else l

theorem mem_arrange {m : Medium} {l : List (String × Json)} (h : (l.map Prod.fst).Nodup)
    {e : String × Json} : e ∈ arrange m l ↔ e ∈ l := by
  obtain ⟨k, j⟩ := e
  unfold arrange
  split
  · rw [← SortedMap.get?_eq_some_iff, SortedMap.get?_ofList_eq_some h]
  · rfl

theorem nodup_arrange {m : Medium} {l : List (String × Json)} (h : (l.map Prod.fst).Nodup) :
    ((arrange m l).map Prod.fst).Nodup := by
  unfold arrange
  split
  · exact SortedMap.nodup_of_ascending (SortedMap.ofList l).ascending
  · exact h

theorem seen_string {m : Medium} {depth : Nat} {s : String} :
    (Json.string s).seen m depth = some (.string s) := by
  cases m <;> rfl

theorem seen_ofCount {m : Medium} {depth : Nat} {n : UInt64} :
    (ofCount n).seen m depth = some (.ofCount n) := by
  have hread : rereadNumber (.natural n) = .number (.natural n) := rereadNumber_int rfl
  rw [seen, ofCount, reread, hread]
  exact ite_self _

theorem seen_array {m : Medium} {depth : Nat} {l : List Json} {v : Json} :
    (Json.array l).seen m depth = some v ↔
      (depth ≤ nestingLimit ∧
        ∃ vs, List.Forall₂ (fun j v => j.seen m (depth + 1) = some v) l vs ∧ v = .array vs) ∨
      (nestingLimit < depth ∧ m ≠ .tree ∧ v = .beyond) := by
  by_cases hdepth : depth ≤ nestingLimit <;> by_cases hm : m = .tree
  · simp only [seen, hm, if_true, reread, nested, if_pos hdepth, rereadItems_eq, value?,
      Option.map_eq_some_iff, valueItems?_eq_some, List.forall₂_map_left_iff]
    simp [hdepth, eq_comm]
  · simp only [seen, if_neg hm, reread, nested, if_pos hdepth, rereadItems_eq,
      forall₂_eq_map (f := reread (depth + 1)) (fun _ _ => Option.some_inj)]
    simp [hdepth, eq_comm]
  · simp [seen, hm, reread, nested, hdepth, value?]
  · simp [seen, hm, reread, nested, hdepth, Nat.lt_of_not_le hdepth, eq_comm]

theorem seen_object {m : Medium} {depth : Nat} {l : List (String × Json)} {v : Json} :
    (Json.object l).seen m depth = some v ↔
      (depth ≤ nestingLimit ∧
        ∃ vs, List.Forall₂ (fun e v => e.1 = v.1 ∧ e.2.seen m (depth + 1) = some v.2) l vs ∧
          v = .object (arrange m vs)) ∨
      (nestingLimit < depth ∧ m ≠ .tree ∧ v = .beyond) := by
  have hmembers (e v : String × Json) :
      (e.1 = v.1 ∧ some (e.2.reread (depth + 1)) = some v.2) ↔
        (e.1, e.2.reread (depth + 1)) = v := by
    simp [Prod.ext_iff]
  by_cases hdepth : depth ≤ nestingLimit <;> by_cases hm : m = .tree
  · simp only [seen, hm, if_true, reread, nested, if_pos hdepth, rereadMembers_eq, value?,
      Option.map_eq_some_iff, valueMembers?_eq_some, List.forall₂_map_left_iff, arrange]
    simp [hdepth, eq_comm]
  · simp only [seen, if_neg hm, reread, nested, if_pos hdepth, rereadMembers_eq, arrange,
      forall₂_eq_map hmembers]
    simp [hdepth, eq_comm]
  · simp [seen, hm, reread, nested, hdepth, value?]
  · simp [seen, hm, reread, nested, hdepth, Nat.lt_of_not_le hdepth, eq_comm]

end Json

namespace Reader

variable {α β κ : Type}

/-- The reader makes `b` of the text of a document that stands at a depth. -/
def Recovers (read : Reader β) (m : Medium) (depth : Nat) (j : Json) (b : β) : Prop :=
  ∃ v, j.seen m depth = some v ∧ read m v = .ok b

theorem Recovers.unique {read : Reader β} {m : Medium} {depth : Nat} {j : Json} {b b' : β}
    (h : read.Recovers m depth j b) (h' : read.Recovers m depth j b') : b = b' := by
  obtain ⟨v, hv, hb⟩ := h
  obtain ⟨v', hv', hb'⟩ := h'
  obtain rfl : v = v' := Option.some.inj (hv.symm.trans hv')
  exact Except.ok.inj (hb.symm.trans hb')

/-- What is made of a recovered value. -/
theorem recovers_made {γ : Type} {read : Reader β} {make : β → γ} {m : Medium} {depth : Nat}
    {j : Json} {c : γ} :
    Reader.Recovers (fun m j => (read m j).map make) m depth j c ↔
      ∃ b, read.Recovers m depth j b ∧ make b = c := by
  constructor
  · rintro ⟨v, hv, hc⟩
    simp only at hc
    cases hb : read m v with
    | error e => simp [hb, Except.map] at hc
    | ok b => exact ⟨b, ⟨v, hv, hb⟩, by simpa [hb, Except.map] using hc⟩
  · rintro ⟨b, ⟨v, hv, hb⟩, rfl⟩
    exact ⟨v, hv, by simp only [hb]; rfl⟩

/-! ## Scalars -/

theorem recovers_string {m : Medium} {depth : Nat} {s t : String} :
    Reader.string.Recovers m depth (.string s) t ↔ s = t := by
  simp [Recovers, Json.seen, Json.reread, Json.value?, Reader.string]

theorem recovers_count {m : Medium} {depth : Nat} {n k : UInt64} :
    Reader.count.Recovers m depth (.ofCount n) k ↔ n = k := by
  rw [Recovers, Json.seen_ofCount]
  simp [Json.ofCount, Reader.count, integer, natural?]

theorem recovers_null {read : Reader β} {m : Medium} {depth : Nat} {b : Option β} :
    (Reader.optional read).Recovers m depth .null b ↔ b = none := by
  simp [Recovers, Json.seen, Json.reread, Json.value?, Reader.optional, eq_comm]

theorem optional_of_ne {read : Reader β} {m : Medium} {v : Json} (hv : v ≠ .null) :
    Reader.optional read m v = (read m v).map some := by
  cases v <;> first | rfl | exact absurd rfl hv

theorem of_optional {read : Reader β} {m : Medium} {j : Json} {b : β}
    (h : Reader.optional read m j = .ok (some b)) : read m j = .ok b := by
  by_cases hnull : j = .null
  · rw [hnull] at h
    cases h
  · rw [optional_of_ne hnull] at h
    cases hj : read m j with
    | error e => simp [hj, Except.map] at h
    | ok b' =>
      rw [hj] at h
      exact congrArg Except.ok (Option.some.inj (Except.ok.inj h))

/-- What is not null is what the reader makes of it. -/
theorem recovers_optional {read : Reader β} {m : Medium} {depth : Nat} {j : Json} {b : Option β}
    (hj : j.seen m depth ≠ some .null) :
    (Reader.optional read).Recovers m depth j b ↔
      ∃ a, read.Recovers m depth j a ∧ some a = b := by
  constructor
  · rintro ⟨v, hv, hb⟩
    rw [optional_of_ne (by rintro rfl; exact hj hv)] at hb
    cases ha : read m v with
    | error e => simp [ha, Except.map] at hb
    | ok a => exact ⟨a, ⟨v, hv, ha⟩, by simpa [ha, Except.map] using hb⟩
  · rintro ⟨a, ⟨v, hv, ha⟩, rfl⟩
    refine ⟨v, hv, ?_⟩
    rw [optional_of_ne (by rintro rfl; exact hj hv), ha]
    rfl

/-! ## Lists -/

theorem items_eq_ok {read : Reader β} {m : Medium} {l : List Json} {bs : List β} :
    items read m l = .ok bs ↔ List.Forall₂ (fun j b => read m j = .ok b) l bs := by
  induction l generalizing bs with
  | nil => simp [items, eq_comm]
  | cons j l ih =>
    simp only [items, List.forall₂_cons_left_iff, ← ih]
    cases read m j with
    | error e => simp [bind, Except.bind]
    | ok b =>
      cases items read m l with
      | error e => simp [bind, Except.bind]
      | ok bs => simp [bind, Except.bind, pure, Except.pure, eq_comm]

theorem recovers_list {read : Reader β} {write : α → Json} {m : Medium} {depth : Nat}
    {l : List α} {bs : List β} :
    (Reader.list read).Recovers m depth (.array (l.map write)) bs ↔
      depth ≤ Json.nestingLimit ∧
        List.Forall₂ (fun a b => read.Recovers m (depth + 1) (write a) b) l bs := by
  constructor
  · rintro ⟨v, hv, hbs⟩
    rcases Json.seen_array.1 hv with ⟨hdepth, vs, hvs, rfl⟩ | ⟨-, -, rfl⟩
    · refine ⟨hdepth, forall₂_comp.1 ⟨vs, List.forall₂_map_left_iff.1 hvs, ?_⟩⟩
      exact items_eq_ok.1 hbs
    · cases hbs
  · rintro ⟨hdepth, hl⟩
    obtain ⟨vs, hvs, hbs⟩ := forall₂_comp.2 hl
    refine ⟨.array vs, Json.seen_array.2 (.inl ⟨hdepth, vs, ?_, rfl⟩), items_eq_ok.2 hbs⟩
    exact List.forall₂_map_left_iff.2 hvs

/-- A list whose items are recovered is recovered. -/
theorem recovers_list_self {read : Reader α} {write : α → Json} {m : Medium} {depth : Nat}
    {l : List α} (hdepth : depth ≤ Json.nestingLimit)
    (h : ∀ a ∈ l, read.Recovers m (depth + 1) (write a) a) :
    (Reader.list read).Recovers m depth (.array (l.map write)) l :=
  recovers_list.2 ⟨hdepth, List.forall₂_same.2 h⟩

/-! ## Maps -/

/-- Members that are written for the keys of a map have different names. -/
theorem nodup_of_named [Ord κ] [Std.LawfulEqOrd κ] {n : SortedMap κ α} {name : κ → String}
    (hname : Function.Injective name) {vs : List (String × Json)}
    (hvs : List.Forall₂ (fun e v => name e.1 = v.1) n.entries vs) : (vs.map Prod.fst).Nodup := by
  have hnames : vs.map Prod.fst = (n.entries.map Prod.fst).map name := by
    rw [List.map_map]
    exact (map_eq_of_forall₂ hvs fun _ _ _ h => h).symm
  rw [hnames]
  exact (SortedMap.nodup_of_ascending n.ascending).map hname

section Maps

variable [Ord κ] [Std.TransOrd κ] [Std.LawfulEqOrd κ]

theorem members_eq_ok {key : String → Except DecodeError κ} {read : Reader β} {m : Medium}
    {l : List (String × Json)} {acc n : SortedMap κ β} :
    members key read m acc l = .ok n ↔
      ∃ bs : List (κ × β), List.Forall₂ (fun e b => key e.1 = .ok b.1 ∧ read m e.2 = .ok b.2) l bs ∧
        bs.foldl (fun n b => n.insert b.1 b.2) acc = n := by
  induction l generalizing acc with
  | nil => simp [members]
  | cons e l ih =>
    obtain ⟨k, j⟩ := e
    simp only [members, List.forall₂_cons_left_iff]
    cases hk : key k with
    | error e => simp [bind, Except.bind]
    | ok k' =>
      cases hj : read m j with
      | error e => simp [bind, Except.bind]
      | ok b =>
        simp only [bind, Except.bind, ih]
        constructor
        · rintro ⟨bs, hbs, rfl⟩
          exact ⟨(k', b) :: bs, ⟨(k', b), bs, ⟨rfl, rfl⟩, hbs, rfl⟩, rfl⟩
        · rintro ⟨_, ⟨⟨_, _⟩, bs, ⟨hk, hb⟩, hbs, rfl⟩, rfl⟩
          cases hk
          cases hb
          exact ⟨bs, hbs, rfl⟩

variable {name : κ → String} {key : String → Except DecodeError κ}
  {read : Reader β} {write : α → Json} {m : Medium} {depth : Nat} {n : SortedMap κ α}
  {n' : SortedMap κ β}

/-- An object is recovered as a map if every member is recovered as a value. -/
theorem exists_recovers_mapWith (hname : Function.Injective name)
    (hkey : ∀ k, key (name k) = .ok k) (hdepth : depth ≤ Json.nestingLimit)
    (h : ∀ e ∈ n.entries, ∃ b, read.Recovers m (depth + 1) (write e.2) b) :
    ∃ n', (mapWith key read).Recovers m depth
      (.object (n.entries.map fun e => (name e.1, write e.2))) n' := by
  have hentry : ∀ e ∈ n.entries, ∃ v : String × Json, name e.1 = v.1 ∧
      (write e.2).seen m (depth + 1) = some v.2 ∧ ∃ b, read m v.2 = .ok b := by
    intro e he
    obtain ⟨b, v, hv, hb⟩ := h e he
    exact ⟨(name e.1, v), rfl, hv, b, hb⟩
  obtain ⟨vs, hvs⟩ := exists_forall₂ hentry
  have hnodup := nodup_of_named hname (hvs.imp fun _ _ h => h.1)
  have hmember : ∀ v ∈ Json.arrange m vs,
      ∃ b : κ × β, key v.1 = .ok b.1 ∧ read m v.2 = .ok b.2 := by
    intro v hv
    obtain ⟨e, -, he, -, b, hb⟩ := exists_of_mem_right hvs ((Json.mem_arrange hnodup).1 hv)
    exact ⟨(e.1, b), by rw [← he, hkey], hb⟩
  obtain ⟨bs, hbs⟩ := exists_forall₂ hmember
  refine ⟨_, .object (Json.arrange m vs), ?_, members_eq_ok.2 ⟨bs, hbs, rfl⟩⟩
  refine Json.seen_object.2 (.inl ⟨hdepth, vs, List.forall₂_map_left_iff.2 ?_, rfl⟩)
  exact hvs.imp fun e v h => ⟨h.1, h.2.1⟩

variable [DecidableEq κ]

/-- What is put into a map from members that name its keys is related to what they were written
for. -/
theorem rel_of_members (hname : Function.Injective name) (hkey : ∀ k, key (name k) = .ok k)
    {R : α → Json → Prop} {vs : List (String × Json)}
    (hvs : List.Forall₂ (fun e v => name e.1 = v.1 ∧ R e.2 v.2) n.entries vs)
    (hn : members key read m .empty (Json.arrange m vs) = .ok n') :
    n.Rel (fun a b => ∃ v, R a v ∧ read m v = .ok b) n' := by
  have hnodup := nodup_of_named hname (hvs.imp fun _ _ h => h.1)
  obtain ⟨bs, hbs, rfl⟩ := members_eq_ok.1 hn
  -- the key that a member is read under is the key that it was written for
  have hsource {v : String × Json} (hv : v ∈ Json.arrange m vs) :
      ∃ e ∈ n.entries, name e.1 = v.1 ∧ R e.2 v.2 :=
    exists_of_mem_right hvs ((Json.mem_arrange hnodup).1 hv)
  have hsame {v : String × Json} (hv : v ∈ Json.arrange m vs) {k : κ} (hk : key v.1 = .ok k) :
      v.1 = name k := by
    obtain ⟨e, -, he, -⟩ := hsource hv
    rw [← he, hkey] at hk
    rw [← he, Except.ok.inj hk]
  have hbnodup : (bs.map Prod.fst).Nodup := by
    refine List.Nodup.of_map name ?_
    have hread : (Json.arrange m vs).map Prod.fst = (bs.map Prod.fst).map name := by
      rw [List.map_map]
      exact map_eq_of_forall₂ hbs fun v hv b h => hsame hv h.1
    rw [← hread]
    exact Json.nodup_arrange hnodup
  intro k
  cases ha : n.get? k with
  | some a =>
    obtain ⟨v, hv, hvk, hR⟩ := exists_of_mem_left hvs (SortedMap.get?_eq_some_iff.1 ha)
    obtain ⟨b, hb, hbk, hread⟩ := exists_of_mem_left hbs ((Json.mem_arrange hnodup).2 hv)
    rw [← hvk, hkey] at hbk
    have hk : k = b.1 := Except.ok.inj hbk
    have hget : (SortedMap.ofList bs).get? k = some b.2 := by
      rw [SortedMap.get?_ofList_eq_some hbnodup, hk]
      exact hb
    rw [SortedMap.ofList] at hget
    rw [hget]
    exact .some ⟨v.2, hR, hread⟩
  | none =>
    cases hb : (bs.foldl (fun n b => n.insert b.1 b.2) SortedMap.empty).get? k with
    | none => exact .none
    | some b =>
      have hmem : (k, b) ∈ bs := (SortedMap.get?_ofList_eq_some hbnodup).1 hb
      obtain ⟨v, hv, hvk, -⟩ := exists_of_mem_right hbs hmem
      obtain ⟨e, he, hek, -⟩ := hsource hv
      have hk : e.1 = k := hname (hek.trans (hsame hv hvk))
      rw [SortedMap.get?_eq_some_iff.2 (hk ▸ he : (k, e.2) ∈ n.entries)] at ha
      cases ha

theorem recovers_mapWith (hname : Function.Injective name) (hkey : ∀ k, key (name k) = .ok k) :
    (mapWith key read).Recovers m depth
        (.object (n.entries.map fun e => (name e.1, write e.2))) n' ↔
      depth ≤ Json.nestingLimit ∧
        n.Rel (fun a b => read.Recovers m (depth + 1) (write a) b) n' := by
  have hforward {n' : SortedMap κ β} (h : (mapWith key read).Recovers m depth
      (.object (n.entries.map fun e => (name e.1, write e.2))) n') :
      depth ≤ Json.nestingLimit ∧
        n.Rel (fun a b => read.Recovers m (depth + 1) (write a) b) n' := by
    obtain ⟨v, hv, hn⟩ := h
    rcases Json.seen_object.1 hv with ⟨hdepth, vs, hvs, rfl⟩ | ⟨-, -, rfl⟩
    · exact ⟨hdepth, rel_of_members hname hkey (List.forall₂_map_left_iff.1 hvs) hn⟩
    · cases hn
  refine ⟨hforward, fun ⟨hdepth, hrel⟩ => ?_⟩
  have hentry : ∀ e ∈ n.entries, ∃ b, read.Recovers m (depth + 1) (write e.2) b := by
    rintro ⟨k, a⟩ he
    obtain ⟨b, -, hab⟩ := hrel.exists_right (SortedMap.get?_eq_some_iff.2 he)
    exact ⟨b, hab⟩
  obtain ⟨n'', hn⟩ := exists_recovers_mapWith hname hkey hdepth hentry
  obtain rfl : n' = n'' := hrel.right_unique (hforward hn).2 fun h h' => h.unique h'
  exact hn

theorem recovers_map {read : Reader β} {write : α → Json} {m : Medium} {depth : Nat}
    {n : SortedMap String α} {n' : SortedMap String β} :
    (Reader.map read).Recovers m depth (.ofMap write n) n' ↔
      depth ≤ Json.nestingLimit ∧
        n.Rel (fun a b => read.Recovers m (depth + 1) (write a) b) n' := by
  have hid : Function.Injective (id : String → String) := Function.injective_id
  exact recovers_mapWith hid fun _ => rfl

/-- What a map of a document holds is read from one of its members. -/
theorem exists_of_map {read : Reader β} {m : Medium} {j : Json} {n : SortedMap String β}
    (h : Reader.map read m j = .ok n) {k : String} {b : β} (hb : n.get? k = some b) :
    ∃ i, read m i = .ok b := by
  cases j with
  | object l =>
    obtain ⟨bs, hbs, rfl⟩ := members_eq_ok.1 h
    have hmem : (k, b) ∈ bs := SortedMap.mem_of_get?_ofList hb
    obtain ⟨e, -, -, hread⟩ := exists_of_mem_right hbs hmem
    exact ⟨e.2, hread⟩
  | null | bool | number | string | array | beyond => cases h

/-- A map is recovered as one if every value is recovered. -/
theorem exists_recovers_map {read : Reader β} {write : α → Json} {m : Medium} {depth : Nat}
    {n : SortedMap String α} (hdepth : depth ≤ Json.nestingLimit)
    (h : ∀ e ∈ n.entries, ∃ b, read.Recovers m (depth + 1) (write e.2) b) :
    ∃ n', (Reader.map read).Recovers m depth (.ofMap write n) n' := by
  have hid : Function.Injective (id : String → String) := Function.injective_id
  exact exists_recovers_mapWith hid (fun _ => rfl) hdepth h

end Maps

end Reader

end AnalysisGate
