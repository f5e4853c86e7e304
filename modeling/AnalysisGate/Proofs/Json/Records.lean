import AnalysisGate.Proofs.Json.Recovery
import Mathlib

/-!
Records recovered from text.

A part of a record is what one member gives it and no other member touches. Each part of a record
that is read is what its member is read as (`Shape.recovers_part`), in whatever order a medium
gives the members. A text whose members fill a record in turn is read as that record
(`Shape.recovers_of_fills`), and some record is read as soon as every member can be read into its
field (`Shape.exists_recovers`). What every field keeps holds of every record that is read
(`Shape.reader_induct`).
-/
namespace AnalysisGate

variable {α γ : Type}

/-- Reading the field leaves a part of the record as it is. -/
def Field.Keeps (f : Field α) (part : α → γ) : Prop :=
  ∀ m j a a', f.read m j a = .ok a' → part a' = part a

namespace Shape

/-- A part of the record is what `read` makes of the member at `k`, and of nothing else. -/
structure Part (s : Shape α) (k : String) (read : Reader γ) (part : α → γ) : Prop where
  field : ∃ f, s.fields.find? (·.name == k) = some f ∧
    ∀ m j a, (f.read m j a).map part = read m j
  frame : ∀ f ∈ s.fields, f.name ≠ k → f.Keeps part

/-- What a field reads is set in the record. -/
theorem field_eq_ok {β : Type} {name : String} {read : Reader β} {set : α → β → α}
    {presence : Presence} {m : Medium} {j : Json} {a a' : α} :
    (Shape.field name read set presence).read m j a = .ok a' ↔
      ∃ b, read m j = .ok b ∧ set a b = a' := by
  rw [Shape.field]
  cases hj : read m j <;> simp [hj, Except.map]

@[simp] theorem keeps_field {β : Type} {name : String} {read : Reader β} {set : α → β → α}
    {presence : Presence} {part : α → γ} (h : ∀ a b, part (set a b) = part a) :
    (Shape.field name read set presence).Keeps part := by
  intro m j a a' hread
  obtain ⟨b, -, rfl⟩ := field_eq_ok.1 hread
  exact h a b

@[simp] theorem field_name {β : Type} {name : String} {read : Reader β} {set : α → β → α}
    {presence : Presence} : (Shape.field name read set presence).name = name := rfl

/-- A part of the record may be made of what is read. -/
theorem part_field_map {β : Type} {s : Shape α} {k : String} {read : Reader β} {set : α → β → α}
    {presence : Presence} {part : α → γ} {make : β → γ}
    (hfind : s.fields.find? (·.name == k) = some (Shape.field k read set presence))
    (hset : ∀ a b, part (set a b) = make b)
    (hframe : ∀ f ∈ s.fields, f.name ≠ k → f.Keeps part) :
    s.Part k (fun m j => (read m j).map make) part where
  field := by
    refine ⟨_, hfind, fun m j a => ?_⟩
    rw [Shape.field]
    cases hj : read m j with
    | error e => simp [hj, Except.map]
    | ok b => simp [hj, Except.map, hset]
  frame := hframe

theorem part_field {s : Shape α} {k : String} {read : Reader γ} {set : α → γ → α}
    {presence : Presence} {part : α → γ}
    (hfind : s.fields.find? (·.name == k) = some (Shape.field k read set presence))
    (hset : ∀ a b, part (set a b) = b) (hframe : ∀ f ∈ s.fields, f.name ≠ k → f.Keeps part) :
    s.Part k read part := by
  have hread : (fun m j => (read m j).map id) = read := by
    funext m j
    cases read m j <;> rfl
  rw [← hread]
  exact part_field_map hfind hset hframe

/-! ## Members -/

variable {s : Shape α} {m : Medium}

/-- Members at other keys leave a part as it is. -/
theorem readMembers_frame {k : String} {part : α → γ}
    (hframe : ∀ f ∈ s.fields, f.name ≠ k → f.Keeps part) {l : List (String × Json)}
    (hl : k ∉ l.map Prod.fst) :
    ∀ {seen seen' : List String} {a a' : α},
      s.readMembers m seen a l = .ok (seen', a') → part a' = part a := by
  induction l with
  | nil =>
    intro seen seen' a a' h
    cases h
    rfl
  | cons e l ih =>
    obtain ⟨k', j⟩ := e
    simp only [List.map_cons, List.mem_cons, not_or] at hl
    intro seen seen' a a' h
    rw [readMembers] at h
    split at h
    · exact ih hl.2 h
    · next f hf =>
      have hname : f.name = k' := by simpa using List.find?_some hf
      have hkeeps := hframe f (List.mem_of_find?_eq_some hf) (by rw [hname]; exact Ne.symm hl.1)
      split at h
      · cases h
      · split at h
        · next a₁ ha₁ => rw [ih hl.2 h, hkeeps _ _ _ _ ha₁]
        · cases h

/-- The part is what its member is read as. -/
theorem readMembers_part {k : String} {read : Reader γ} {part : α → γ}
    (hpart : s.Part k read part) {j : Json} {l : List (String × Json)}
    (hl : (l.map Prod.fst).Nodup) (hj : (k, j) ∈ l) :
    ∀ {seen seen' : List String} {a a' : α},
      s.readMembers m seen a l = .ok (seen', a') → read m j = .ok (part a') := by
  induction l with
  | nil => cases hj
  | cons e l ih =>
    obtain ⟨k', j'⟩ := e
    simp only [List.map_cons, List.nodup_cons] at hl
    intro seen seen' a a' h
    rw [readMembers] at h
    -- the member is read when it comes, and none after it has its name
    rcases List.mem_cons.1 hj with heq | hj
    · cases heq
      obtain ⟨f, hf, hread⟩ := hpart.field
      rw [hf] at h
      simp only at h
      split at h
      · cases h
      · split at h
        · next a₁ ha₁ =>
          rw [← hread m j a, ha₁, readMembers_frame hpart.frame hl.1 h]
          rfl
        · cases h
    · split at h
      · exact ih hl.2 hj h
      · split at h
        · cases h
        · split at h
          · exact ih hl.2 hj h
          · cases h

/-- **What every field keeps holds of a record that is read**, by name or by position. -/
theorem reader_induct {P : α → Prop} (hstart : P s.start)
    (hkeep : ∀ f ∈ s.fields, ∀ j a a', f.read m j a = .ok a' → P a → P a') {j : Json} {a : α}
    (h : s.reader m j = .ok a) : P a := by
  -- an object gives its members one after the other, whatever names were seen before
  have hmembers {l : List (String × Json)} : ∀ {seen seen' : List String} {a a' : α},
      s.readMembers m seen a l = .ok (seen', a') → P a → P a' := by
    induction l with
    | nil =>
      intro seen seen' a a' h ha
      cases h
      exact ha
    | cons e l ih =>
      intro seen seen' a a' h ha
      rw [readMembers] at h
      split at h
      · exact ih h ha
      · next f hf =>
        split at h
        · cases h
        · split at h
          · next a₁ ha₁ => exact ih h (hkeep f (List.mem_of_find?_eq_some hf) _ _ _ ha₁ ha)
          · cases h
  -- an array gives its items to the fields in order, so the induction is on the fields
  have hitems {length : Nat} {fields : List (Field α)} : (∀ f ∈ fields, f ∈ s.fields) →
      ∀ {i : Nat} {a a' : α} {l : List Json},
        s.readItems m length i fields a l = .ok a' → P a → P a' := by
    induction fields with
    | nil =>
      intro _ i a a' l h ha
      cases l with
      | nil => cases h; exact ha
      | cons j l =>
        rw [readItems] at h
        split at h <;> cases h
        exact ha
    | cons f fields ih =>
      intro hsub i a a' l h ha
      rw [List.forall_mem_cons] at hsub
      cases l with
      | nil =>
        rw [readItems] at h
        split at h
        · exact ih hsub.2 h ha
        · cases h
      | cons j l =>
        rw [readItems] at h
        split at h
        · next a₁ ha₁ => exact ih hsub.2 h (hkeep f hsub.1 _ _ _ ha₁ ha)
        · cases h
  unfold reader at h
  split at h
  · rw [ofMembers] at h
    split at h
    · cases h
    · next seen a' hread =>
      split at h
      · cases h
      · cases h
        exact hmembers hread hstart
  · exact hitems (fun _ => id) h hstart
  · cases h

/-- **What is true of all that a part can be read as is true of the part of every record that is
read**, if it is of a record without fields. -/
theorem part_induct {k : String} {read : Reader γ} {part : α → γ} {P : γ → Prop}
    (hpart : s.Part k read part) (hnames : (s.fields.map Field.name).Nodup)
    (hstart : P (part s.start)) (hread : ∀ j c, read m j = .ok c → P c) {j : Json} {a : α}
    (h : s.reader m j = .ok a) : P (part a) := by
  refine reader_induct (P := fun a => P (part a)) hstart (fun f hf j a a' ha' ha => ?_) h
  by_cases hname : f.name = k
  · obtain ⟨f', hfind, hfield⟩ := hpart.field
    have hsame : f = f' := by
      have hname' : f'.name = k := by simpa using List.find?_some hfind
      exact List.inj_on_of_nodup_map hnames hf (List.mem_of_find?_eq_some hfind)
        (hname.trans hname'.symm)
    have hpart' := hfield m j a
    rw [← hsame, ha'] at hpart'
    exact hread j _ hpart'.symm
  · rw [hpart.frame f hf hname m j a a' ha']
    exact ha

/-! ## Records -/

variable {depth : Nat} {l : List (String × Json)}

theorem recovers_iff {a : α} :
    Reader.Recovers s.reader m depth (.object l) a ↔
      depth ≤ Json.nestingLimit ∧
        ∃ vs, List.Forall₂ (fun e v => e.1 = v.1 ∧ e.2.seen m (depth + 1) = some v.2) l vs ∧
          s.ofMembers m (Json.arrange m vs) = .ok a := by
  constructor
  · rintro ⟨v, hv, ha⟩
    rcases Json.seen_object.1 hv with ⟨hdepth, vs, hvs, rfl⟩ | ⟨-, -, rfl⟩
    · exact ⟨hdepth, vs, hvs, ha⟩
    · cases ha
  · rintro ⟨hdepth, vs, hvs, ha⟩
    exact ⟨_, Json.seen_object.2 (.inl ⟨hdepth, vs, hvs, rfl⟩), ha⟩

/-- **A part of a record that is recovered is what its member is recovered as.** -/
theorem recovers_part {k : String} {read : Reader γ} {part : α → γ} {a : α}
    (h : Reader.Recovers s.reader m depth (.object l) a) (hpart : s.Part k read part)
    (hl : (l.map Prod.fst).Nodup) {j : Json} (hj : (k, j) ∈ l) :
    read.Recovers m (depth + 1) j (part a) := by
  obtain ⟨-, vs, hvs, ha⟩ := recovers_iff.1 h
  have hkeys : l.map Prod.fst = vs.map Prod.fst := map_eq_of_forall₂ hvs fun _ _ _ h => h.1
  obtain ⟨⟨k', v⟩, hv, rfl, hseen⟩ := exists_of_mem_left hvs hj
  refine ⟨v, hseen, ?_⟩
  rw [hkeys] at hl
  rw [ofMembers] at ha
  split at ha
  · cases ha
  · next seen a' hmembers =>
    split at ha
    · cases ha
    · cases ha
      exact readMembers_part hpart (Json.nodup_arrange hl) ((Json.mem_arrange hl).2 hv) hmembers

/-- **A part that no member gives is the one of a record without fields.** -/
theorem recovers_part_absent {k : String} {part : α → γ} {a : α}
    (h : Reader.Recovers s.reader m depth (.object l) a)
    (hframe : ∀ f ∈ s.fields, f.name ≠ k → f.Keeps part) (hl : (l.map Prod.fst).Nodup)
    (hk : k ∉ l.map Prod.fst) : part a = part s.start := by
  obtain ⟨-, vs, hvs, ha⟩ := recovers_iff.1 h
  have hkeys : l.map Prod.fst = vs.map Prod.fst := map_eq_of_forall₂ hvs fun _ _ _ h => h.1
  rw [hkeys] at hl hk
  have habsent : k ∉ (Json.arrange m vs).map Prod.fst := by
    intro hmem
    obtain ⟨e, he, rfl⟩ := List.mem_map.1 hmem
    exact hk (List.mem_map_of_mem ((Json.mem_arrange hl).1 he))
  rw [ofMembers] at ha
  split at ha
  · cases ha
  · next seen a' hmembers =>
    split at ha
    · cases ha
    · cases ha
      exact readMembers_frame hframe habsent hmembers

/-- The text of a member can be read into the field of its name, whatever the record is. -/
def Admits (s : Shape α) (m : Medium) (depth : Nat) (e : String × Json) : Prop :=
  ∃ f v, s.fields.find? (·.name == e.1) = some f ∧ e.2.seen m depth = some v ∧
    ∀ a, ∃ a', f.read m v a = .ok a'

theorem admits_field {β : Type} {k : String} {read : Reader β} {set : α → β → α}
    {presence : Presence} {j : Json}
    (hfind : s.fields.find? (·.name == k) = some (Shape.field k read set presence)) {b : β}
    (h : read.Recovers m depth j b) : s.Admits m depth (k, j) := by
  obtain ⟨v, hv, hb⟩ := h
  exact ⟨_, v, hfind, hv, fun a => ⟨set a b, field_eq_ok.2 ⟨b, hb, rfl⟩⟩⟩

theorem exists_readMembers {l : List (String × Json)} (hl : (l.map Prod.fst).Nodup)
    (h : ∀ e ∈ l, ∃ f, s.fields.find? (·.name == e.1) = some f ∧
      ∀ a, ∃ a', f.read m e.2 a = .ok a') :
    ∀ (seen : List String) (a : α), (∀ k ∈ l.map Prod.fst, k ∉ seen) →
      ∃ seen' a', s.readMembers m seen a l = .ok (seen', a') ∧
        ∀ k, k ∈ l.map Prod.fst ∨ k ∈ seen → k ∈ seen' := by
  induction l with
  | nil =>
    intro seen a _
    exact ⟨seen, a, rfl, fun k hk => hk.resolve_left List.not_mem_nil⟩
  | cons e l ih =>
    intro seen a hnew
    obtain ⟨k, j⟩ := e
    rw [List.forall_mem_cons] at h
    simp only [List.map_cons, List.nodup_cons, List.forall_mem_cons] at hl hnew
    obtain ⟨⟨f, hf, hread⟩, hrest⟩ := h
    obtain ⟨a₁, ha₁⟩ := hread a
    have hnew' : ∀ k' ∈ l.map Prod.fst, k' ∉ k :: seen := by
      intro k' hk'
      rw [List.mem_cons, not_or]
      exact ⟨fun heq => hl.1 (heq ▸ hk'), hnew.2 k' hk'⟩
    obtain ⟨seen', a', hmembers, hseen⟩ := ih hl.2 hrest (k :: seen) a₁ hnew'
    have hcontains : seen.contains k = false := by simpa using hnew.1
    refine ⟨seen', a', ?_, fun k' hk' => hseen k' ?_⟩
    · simp only [readMembers, hf, hcontains, Bool.false_eq_true, if_false, ha₁, hmembers]
    · rw [List.map_cons, List.mem_cons] at hk'
      rw [List.mem_cons]
      tauto

/-- **A record is recovered once each member can be read into its field** and none that it needs
is missing. -/
theorem exists_recovers (hdepth : depth ≤ Json.nestingLimit) (hl : (l.map Prod.fst).Nodup)
    (hmember : ∀ e ∈ l, s.Admits m (depth + 1) e)
    (hrequired : ∀ f ∈ s.fields, f.presence = .required → f.name ∈ l.map Prod.fst) :
    ∃ a, Reader.Recovers s.reader m depth (.object l) a := by
  have hvalue : ∀ e ∈ l, ∃ v : String × Json, (e.1 = v.1 ∧ e.2.seen m (depth + 1) = some v.2) ∧
      ∃ f, s.fields.find? (·.name == v.1) = some f ∧ ∀ a, ∃ a', f.read m v.2 a = .ok a' := by
    intro e he
    obtain ⟨f, v, hf, hv, hread⟩ := hmember e he
    exact ⟨(e.1, v), ⟨rfl, hv⟩, f, hf, hread⟩
  obtain ⟨vs, hvs⟩ := exists_forall₂ hvalue
  have hkeys : l.map Prod.fst = vs.map Prod.fst := map_eq_of_forall₂ hvs fun _ _ _ h => h.1.1
  have hnodup := hkeys ▸ hl
  have hfields : ∀ e ∈ Json.arrange m vs, ∃ f, s.fields.find? (·.name == e.1) = some f ∧
      ∀ a, ∃ a', f.read m e.2 a = .ok a' := by
    intro e he
    obtain ⟨-, -, -, hread⟩ := exists_of_mem_right hvs ((Json.mem_arrange hnodup).1 he)
    exact hread
  obtain ⟨seen, a, hmembers, hseen⟩ :=
    exists_readMembers (Json.nodup_arrange hnodup) hfields [] s.start fun _ _ => List.not_mem_nil
  refine ⟨a, recovers_iff.2 ⟨hdepth, vs, hvs.imp fun _ _ h => h.1, ?_⟩⟩
  -- every field that is needed is among the members, and so has been seen
  have hnone : (s.fields.find? fun f => f.presence == .required && !seen.contains f.name) =
      none := by
    rw [List.find?_eq_none]
    intro f hf
    by_cases hpresence : f.presence = .required
    · have hname := hrequired f hf hpresence
      rw [hkeys] at hname
      obtain ⟨e, he, heq⟩ := List.mem_map.1 hname
      have hmem : f.name ∈ (Json.arrange m vs).map Prod.fst :=
        heq ▸ List.mem_map_of_mem ((Json.mem_arrange hnodup).2 he)
      simp [hseen f.name (.inl hmem)]
    · simp [hpresence]
  rw [ofMembers, hmembers]
  simp only [hnone]

/-! ## Texts of records -/

/-- The members of a text fill a record: each of them is read into its field in turn. -/
inductive Fills (s : Shape α) (depth : Nat) :
    List String → α → List (String × Json) → α → Prop
  | done {seen : List String} {a : α} : Fills s depth seen a [] a
  | read {seen : List String} {k : String} {j v : Json} {l : List (String × Json)} {a a' b : α}
      {f : Field α} (hfield : s.fields.find? (·.name == k) = some f) (hnew : k ∉ seen)
      (hseen : j.seen .stream depth = some v) (hread : f.read .stream v a = .ok a')
      (h : Fills s depth (k :: seen) a' l b) : Fills s depth seen a ((k, j) :: l) b

theorem Fills.field {seen : List String} {k : String} {j : Json} {a b : α} {c : γ}
    {read : Reader γ} {set : α → γ → α} {presence : Presence}
    (hfield : s.fields.find? (·.name == k) = some (Shape.field k read set presence))
    (hnew : k ∉ seen) (hrecovers : read.Recovers .stream depth j c)
    (h : s.Fills depth (k :: seen) (set a c) l b) : s.Fills depth seen a ((k, j) :: l) b := by
  obtain ⟨v, hv, hc⟩ := hrecovers
  exact .read hfield hnew hv (field_eq_ok.2 ⟨c, hc, rfl⟩) h

theorem Fills.exists_members {seen : List String} {a b : α} (h : s.Fills depth seen a l b) :
    ∃ vs seen', List.Forall₂ (fun e v => e.1 = v.1 ∧ e.2.seen .stream depth = some v.2) l vs ∧
      s.readMembers .stream seen a vs = .ok (seen', b) := by
  induction h with
  | done => exact ⟨[], _, .nil, rfl⟩
  | @read seen k j v l a a' b f hfield hnew hseen hread _ ih =>
    obtain ⟨vs, seen', hvs, hmembers⟩ := ih
    refine ⟨(k, v) :: vs, seen', .cons ⟨rfl, hseen⟩ hvs, ?_⟩
    have hcontains : seen.contains k = false := by simpa using hnew
    simp only [readMembers, hfield, hcontains, Bool.false_eq_true, if_false, hread, hmembers]

/-- **A record is recovered from the members that fill it**, if it can do without all others. -/
theorem recovers_of_fills {a : α} (hdepth : depth ≤ Json.nestingLimit)
    (hrequired : ∀ f ∈ s.fields, f.presence ≠ .required)
    (h : s.Fills (depth + 1) [] s.start l a) :
    Reader.Recovers s.reader .stream depth (.object l) a := by
  obtain ⟨vs, seen, hvs, hmembers⟩ := h.exists_members
  refine recovers_iff.2 ⟨hdepth, vs, hvs, ?_⟩
  have hnone : (s.fields.find? fun f => f.presence == .required && !seen.contains f.name) =
      none := by
    rw [List.find?_eq_none]
    intro f hf
    simp [hrequired f hf]
  rw [Json.arrange, if_neg (by decide), ofMembers, hmembers]
  simp only [hnone]

end Shape

end AnalysisGate
