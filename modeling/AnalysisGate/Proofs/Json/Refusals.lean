import AnalysisGate.Budget
import AnalysisGate.Proofs.Json.Passing
import AnalysisGate.Proofs.Json.Values
import Mathlib

/-!
What is said of a text that is refused.

The reader of manifests says what is wrong with a document, and so does the verdict on what it asks
for: both find the same thing first, and say the same of it (`Manifest.asks_reader`). So a text is
refused as a manifest exactly if something is found to be wrong with it
(`Manifest.readText_eq_error_iff`), and where it is a document of a value, what is said of it is
what the reader says (`Manifest.readText_message`).
-/
namespace AnalysisGate.Json.Sketch

variable {α β : Type} {s : Sketch}

/-- A reader bears a verdict out: it reads a document with which nothing is wrong, and says of
another one what is found. -/
def Answers (x : Except DecodeError α) : Finding → Prop
  | .ok () => ∃ a, x = .ok a
  | .error (some f) => ∃ e, x = .error e ∧ e.message .stream = f.message
  | .error none => ∃ e, x = .error e

/-- A reader of what a sketch asks for. -/
def Asks (s : Sketch) (read : Reader α) : Prop := ∀ j, Answers (read .stream j) (s.verdict j)

theorem Answers.of_error {x : Except DecodeError α} {o : Option Fault}
    (h : Answers x (.error o)) : ∃ e, x = .error e := by
  cases o with
  | none => exact h
  | some f =>
    obtain ⟨e, he, -⟩ := h
    exact ⟨e, he⟩

theorem Answers.map {x : Except DecodeError α} {v : Finding} (f : α → β) (h : Answers x v) :
    Answers (x.map f) v := by
  match v, h with
  | .ok (), ⟨a, ha⟩ => exact ⟨f a, by rw [ha]; rfl⟩
  | .error (some g), ⟨e, he, hm⟩ => exact ⟨e, by rw [he]; rfl, hm⟩
  | .error none, ⟨e, he⟩ => exact ⟨e, by rw [he]; rfl⟩

/-- What is read after a part is told only if nothing is wrong with the part. -/
theorem Answers.bind {x : Except DecodeError α} {v v' : Finding} {f : α → Except DecodeError β}
    (hx : Answers x v) (hf : ∀ a, Answers (f a) v') : Answers (x >>= f) (v >>= fun _ => v') := by
  match v, hx with
  | .ok (), ⟨a, ha⟩ =>
    rw [ha]
    exact hf a
  | .error (some g), ⟨e, he, hm⟩ => exact ⟨e, by rw [he]; rfl, hm⟩
  | .error none, ⟨e, he⟩ => exact ⟨e, by rw [he]; rfl⟩

/-! ## Scalars and values -/

/-- A reader of parts that are no containers: it refuses each container for its kind alone. -/
structure Plain (read : Reader α) : Prop where
  array : ∀ l, ∃ e e', read .stream (.array []) = .error e ∧
    read .stream (.array l) = .error e' ∧ e'.message .stream = e.message .stream
  object : ∀ l, ∃ e e', read .stream (.object []) = .error e ∧
    read .stream (.object l) = .error e' ∧ e'.message .stream = e.message .stream
  beyond : ∃ e, read .stream .beyond = .error e

theorem plain_string : Plain Reader.string where
  array _ := ⟨_, _, rfl, rfl, rfl⟩
  object _ := ⟨_, _, rfl, rfl, rfl⟩
  beyond := ⟨_, rfl⟩

theorem plain_count : Plain Reader.count where
  array _ := ⟨_, _, rfl, rfl, rfl⟩
  object _ := ⟨_, _, rfl, rfl, rfl⟩
  beyond := ⟨_, rfl⟩

theorem asks_ofReader {read : Reader α} (h : Plain read) : (ofReader read).Asks read := by
  have hscalar (j : Json) : Answers (read .stream j) (found ((ofReader read).refuse j)) := by
    rw [ofReader, refuse]
    cases read .stream j with
    | ok a => exact ⟨a, rfl⟩
    | error e => exact ⟨e, rfl, rfl⟩
  intro j
  cases j with
  | null | bool | number | string =>
    rw [verdict]
    exact hscalar _
  | beyond => exact h.beyond
  | array l =>
    obtain ⟨e, e', he, he', hm⟩ := h.array l
    rw [verdict, ofReader, refuse, he]
    exact ⟨e', he', hm⟩
  | object l =>
    obtain ⟨e, e', he, he', hm⟩ := h.object l
    rw [verdict, ofReader, refuse, he]
    exact ⟨e', he', hm⟩

/-- Of a value nothing is wrong, and of a part that stands for none only its text tells more. -/
def valued (b : Bool) : Finding := if b then .ok () else .error none

theorem valued_and (b b' : Bool) : (valued b >>= fun _ => valued b') = valued (b && b') := by
  cases b <;> rfl

theorem verdictItems_value {l : List Json}
    (h : ∀ j ∈ l, value.verdict j = valued j.value?.isSome) (i : Nat) :
    value.verdictItems i l = valued (valueItems? l).isSome := by
  induction l generalizing i with
  | nil => rfl
  | cons j l ih =>
    obtain ⟨hj, hl⟩ := List.forall_mem_cons.1 h
    rw [verdictItems]
    simp only [item?, hj, ih hl, valued_and, valueItems?]
    cases j.value? <;> cases valueItems? l <;> rfl

theorem verdictMembers_value {l : List (String × Json)}
    (h : ∀ e ∈ l, value.verdict e.2 = valued e.2.value?.isSome) (seen : List String) :
    value.verdictMembers seen l = valued (valueMembers? l).isSome := by
  induction l generalizing seen with
  | nil => rfl
  | cons e l ih =>
    obtain ⟨he, hl⟩ := List.forall_mem_cons.1 h
    rw [verdictMembers]
    simp only [member, he, ih hl, valued_and, valueMembers?]
    cases e.2.value? <;> cases valueMembers? l <;> rfl

theorem verdict_value (j : Json) : value.verdict j = valued j.value?.isSome := by
  induction j using Json.induct with
  | array l ih =>
    rw [verdict, value?, Option.isSome_map]
    exact verdictItems_value ih 0
  | object l ih =>
    rw [verdict, value?, Option.isSome_map]
    exact verdictMembers_value ih []
  | null | bool | number | string | beyond =>
    rw [verdict]
    rfl

theorem asks_value : value.Asks Reader.value := by
  intro j
  have hfinite := isSome_value?_finite j
  rw [verdict_value, Reader.value]
  cases hv : j.value? with
  | some v =>
    rw [hv] at hfinite
    obtain ⟨w, hw⟩ := Option.isSome_iff_exists.1 (hfinite.2 rfl)
    rw [hw]
    exact ⟨w, rfl⟩
  | none =>
    rw [hv] at hfinite
    cases hw : (Reader.finite j).value? with
    | some w =>
      rw [hw] at hfinite
      exact absurd (hfinite.1 rfl) (by simp)
    | none => exact ⟨.beyond, rfl⟩

/-! ## Parts of parts -/

theorem verdict_optional {j : Json} (hj : j ≠ .null) (part : Sketch) :
    (optional part).verdict j = part.verdict j := by
  cases j with
  | null => exact absurd rfl hj
  | bool | number | string | array | object | beyond =>
    rw [verdict, verdict]
    rfl

theorem asks_optional {part : Sketch} {read : Reader α} (h : part.Asks read) :
    (optional part).Asks (Reader.optional read) := by
  intro j
  cases j with
  | null => exact ⟨none, rfl⟩
  | bool | number | string | array | object | beyond =>
    rw [verdict_optional (by simp)]
    exact (h _).map some

theorem answers_items {item : Sketch} {read : Reader α} (h : item.Asks read) (l : List Json)
    (i : Nat) :
    Answers (Reader.items read .stream l) ((list item).verdictItems i l) := by
  induction l generalizing i with
  | nil => exact ⟨[], rfl⟩
  | cons j l ih =>
    rw [verdictItems]
    exact (h j).bind fun a => (ih (i + 1)).map (a :: ·)

theorem asks_list {item : Sketch} {read : Reader α} (h : item.Asks read) :
    (list item).Asks (Reader.list read) := by
  intro j
  cases j with
  | array l =>
    rw [verdict]
    exact answers_items h l 0
  | null | bool | number | string | object =>
    rw [verdict]
    exact ⟨_, rfl, rfl⟩
  | beyond => exact ⟨_, rfl⟩

end AnalysisGate.Json.Sketch

namespace AnalysisGate

open Json (Sketch)
open Json.Sketch

variable {α β : Type}

/-! ## Records -/

namespace Shape

/-- What is asked for of a field. -/
def asked (parts : List (String × Sketch)) (s : Shape α) (f : Field α) : Sketch :=
  match parts.find? (·.1 == f.name) with
  | some part => part.2
  | none => .ofReader fun m j => f.read m j s.start

/-- What is asked for of each field is what the field reads. -/
def Sketched (s : Shape α) (parts : List (String × Sketch)) : Prop :=
  ∀ f ∈ s.fields, ∀ j a, Answers (f.read .stream j a) ((s.asked parts f).verdict j)

variable {s : Shape α} {parts : List (String × Sketch)}

theorem member_sketch (seen : List String) (k : String) :
    (s.sketch parts).member seen k =
      match s.fields.find? (·.name == k) with
      | some f => if seen.contains k then .error (.repeated k) else .ok (s.asked parts f)
      | none => .ok .passed := by
  simp only [sketch, Sketch.member, List.find?_map, Function.comp_def]
  cases s.fields.find? (·.name == k) <;> rfl

theorem missing?_sketch (seen : List String) :
    (s.sketch parts).missing? seen =
      (s.fields.find? fun f => f.presence == .required && !seen.contains f.name).map fun f =>
        .missing f.name := by
  rw [sketch, Sketch.missing?, List.find?_map, Option.map_map]
  rfl

theorem item?_sketch (i : Nat) :
    (s.sketch parts).item? i = s.fields[i]?.map (s.asked parts) := by
  rw [sketch, Sketch.item?, List.getElem?_map, Option.map_map]
  rfl

/-- The record that members give, if it has all that it needs. -/
def close (s : Shape α) (read : List String × α) : Except DecodeError α :=
  match s.fields.find? fun f => f.presence == .required && !read.1.contains f.name with
  | some f => .error (.missing f.name)
  | none => .ok read.2

theorem ofMembers_eq (s : Shape α) (m : Medium) (l : List (String × Json)) :
    s.ofMembers m l = s.readMembers m [] s.start l >>= s.close := by
  rw [ofMembers]
  cases s.readMembers m [] s.start l <;> rfl

/-- Members are read as the verdict says; of the names that were seen, those of fields count. -/
theorem answers_readMembers (h : s.Sketched parts) {l : List (String × Json)} :
    ∀ {seen seen' : List String} {a : α},
      (∀ f ∈ s.fields, seen.contains f.name = seen'.contains f.name) →
      Answers (s.readMembers .stream seen a l >>= s.close)
        ((s.sketch parts).verdictMembers seen' l) := by
  induction l with
  | nil =>
    intro seen seen' a hseen
    have hfind : (s.fields.find? fun f => f.presence == .required && !seen.contains f.name) =
        s.fields.find? fun f => f.presence == .required && !seen'.contains f.name :=
      List.find?_congr fun f hf => by rw [hseen f hf]
    show Answers (s.close (seen, a)) _
    rw [verdictMembers, missing?_sketch, close, hfind]
    cases s.fields.find? fun f => f.presence == .required && !seen'.contains f.name with
    | some f => exact ⟨_, rfl, rfl⟩
    | none => exact ⟨a, rfl⟩
  | cons e l ih =>
    intro seen seen' a hseen
    obtain ⟨k, j⟩ := e
    rw [verdictMembers, readMembers, member_sketch]
    cases hfind : s.fields.find? (·.name == k) with
    | none =>
      show Answers _ (Sketch.passed.verdict j >>= _)
      rw [verdict_of_lax rfl]
      apply ih
      intro f hf
      have hne : f.name ≠ k := by simpa using List.find?_eq_none.1 hfind f hf
      rw [hseen f hf, List.contains_cons, beq_false_of_ne hne, Bool.false_or]
    | some f =>
      have hf : f ∈ s.fields := List.mem_of_find?_eq_some hfind
      obtain rfl : f.name = k := by simpa using List.find?_some hfind
      simp only [hseen f hf]
      split
      · exact ⟨_, rfl, rfl⟩
      · have hrest (a : α) : Answers (s.readMembers .stream (f.name :: seen) a l >>= s.close)
            ((s.sketch parts).verdictMembers (f.name :: seen') l) := by
          apply ih
          intro g hg
          rw [List.contains_cons, List.contains_cons, hseen g hg]
        have hread := (h f hf j a).bind hrest
        cases hj : f.read .stream j a with
        | error e => rwa [hj] at hread
        | ok a => rwa [hj] at hread

/-! ### Records by position -/

theorem drop_zipIdx (l : List β) (i k : Nat) :
    (l.zipIdx k).drop i = (l.drop i).zipIdx (k + i) := by
  induction l generalizing i k with
  | nil => simp
  | cons b l ih =>
    cases i with
    | zero => rfl
    | succ i =>
      rw [List.zipIdx_cons, List.drop_succ_cons, List.drop_succ_cons, ih, Nat.add_right_comm]
      rfl

theorem shortAt_sketch (i : Nat) :
    (s.sketch parts).shortAt i =
      (((s.fields.drop i).zipIdx i).find? fun f => f.1.presence ≠ .optional).map fun f =>
        .short f.2 s.name s.fields.length := by
  rw [sketch, Sketch.shortAt, drop_zipIdx, ← List.map_drop, List.zipIdx_map, List.find?_map,
    Option.map_map, List.length_map, Nat.zero_add]
  rfl

theorem answers_readItems (h : s.Sketched parts) (length : Nat) {fs : List (Field α)} :
    ∀ {i : Nat} {a : α} {l : List Json}, s.fields.drop i = fs →
      Answers (s.readItems .stream length i fs a l) ((s.sketch parts).verdictItems i l) := by
  induction fs with
  | nil =>
    intro i a l hdrop
    cases l with
    | nil =>
      rw [verdictItems, shortAt_sketch, hdrop]
      exact ⟨a, rfl⟩
    | cons j l =>
      have hitem : (s.sketch parts).item? i = none := by
        rw [item?_sketch, List.getElem?_eq_none (List.drop_eq_nil_iff.1 hdrop)]
        rfl
      rw [verdictItems, hitem]
      exact ⟨.long length, rfl, rfl⟩
  | cons f fs ih =>
    intro i a l hdrop
    have hnext : s.fields.drop (i + 1) = fs := by
      rw [← List.drop_drop, hdrop]
      rfl
    cases l with
    | nil =>
      have hrest := ih (a := a) (l := []) hnext
      rw [verdictItems, shortAt_sketch, hnext] at hrest
      rw [verdictItems, shortAt_sketch, hdrop, List.zipIdx_cons, List.find?_cons, readItems]
      cases f.presence with
      | optional => exact hrest
      | required => exact ⟨_, rfl, rfl⟩
      | named => exact ⟨_, rfl, rfl⟩
    | cons j l =>
      have hget : s.fields[i]? = some f := by
        rw [← List.head?_drop, hdrop]
        rfl
      have hread := (h f (List.mem_of_getElem? hget) j a).bind fun a => ih (a := a) (l := l) hnext
      rw [verdictItems, item?_sketch, hget, readItems]
      cases hj : f.read .stream j a with
      | error e => rwa [hj] at hread
      | ok a => rwa [hj] at hread

theorem asks_sketch (h : s.Sketched parts) : (s.sketch parts).Asks s.reader := by
  intro j
  cases j with
  | object l =>
    rw [verdict, reader, ofMembers_eq]
    exact answers_readMembers h fun f hf => rfl
  | array l =>
    rw [verdict]
    exact answers_readItems h l.length rfl
  | null | bool | number | string =>
    rw [verdict]
    exact ⟨_, rfl, rfl⟩
  | beyond => exact ⟨_, rfl⟩

end Shape

/-- What a field reads is asked for if its reader asks for it. -/
theorem answers_field {part : Sketch} {read : Reader β} (h : part.Asks read) {name : String}
    {set : α → β → α} {presence : Presence} (j : Json) (a : α) :
    Answers ((Shape.field name read set presence).read .stream j a) (part.verdict j) :=
  (h j).map (set a)

theorem answers_plain {read : Reader β} (h : Plain read) {name : String} {set : α → β → α}
    {presence : Presence} (start : α) (j : Json) (a : α) :
    Answers ((Shape.field name read set presence).read .stream j a)
      ((ofReader fun m j => (Shape.field name read set presence).read m j start).verdict j) := by
  have hread : (ofReader fun m j => (Shape.field name read set presence).read m j start) =
      ofReader read := by
    unfold ofReader
    congr 1
    funext j
    simp only [Shape.field]
    cases read .stream j <;> rfl
  rw [hread]
  exact answers_field (asks_ofReader h) j a

/-! ## Manifests -/

namespace ManifestDiagnostic

theorem member_sketch (seen : List String) (k : String) :
    sketch.member seen k =
      if k = "severity" then
        if seen.contains k then .error (.repeated k) else .ok (ofReader Reader.string)
      else .ok .value := by
  rw [sketch, Sketch.member, List.find?_cons]
  by_cases hk : k = "severity"
  · rw [hk]
    rfl
  · rw [beq_false_of_ne (Ne.symm hk), if_neg hk]
    rfl

theorem answers_readMembers {l : List (String × Json)} :
    ∀ {severity : Option String} {extra : SortedMap String Json} {seen : List String},
      seen.contains "severity" = severity.isSome →
      Answers (readMembers .stream severity extra l) (sketch.verdictMembers seen l) := by
  induction l with
  | nil =>
    intro severity extra seen hseen
    exact ⟨_, rfl⟩
  | cons e l ih =>
    intro severity extra seen hseen
    obtain ⟨k, j⟩ := e
    rw [verdictMembers, member_sketch, readMembers.eq_def]
    simp only
    by_cases hk : k = "severity"
    · subst hk
      rw [if_pos rfl, if_pos rfl, hseen]
      cases severity with
      | some t => exact ⟨_, rfl, rfl⟩
      | none =>
        exact (asks_ofReader plain_string j).bind fun t => ih (by simp)
    · rw [if_neg hk, if_neg hk]
      apply (asks_value j).bind
      intro v
      apply ih
      rw [List.contains_cons, beq_false_of_ne (Ne.symm hk), hseen, Bool.false_or]

theorem asks_reader : sketch.Asks reader := by
  intro j
  cases j with
  | object l =>
    rw [verdict]
    exact answers_readMembers rfl
  | null | bool | number | string | array =>
    rw [verdict]
    exact ⟨_, rfl, rfl⟩
  | beyond => exact ⟨_, rfl⟩

end ManifestDiagnostic

theorem FileReport.asks_reader : FileReport.sketch.Asks FileReport.shape.reader := by
  apply Shape.asks_sketch
  intro f hf j a
  simp only [shape, List.mem_cons, List.not_mem_nil, or_false] at hf
  rcases hf with rfl | rfl | rfl | rfl | rfl
  · exact answers_plain plain_string ..
  · exact answers_plain plain_count ..
  · exact answers_plain plain_count ..
  · exact answers_plain plain_count ..
  · exact answers_field (asks_optional (asks_list ManifestDiagnostic.asks_reader)) ..

theorem ManifestRun.asks_reader : ManifestRun.sketch.Asks ManifestRun.reader := by
  apply Shape.asks_sketch
  intro f hf j a
  simp only [shape, List.mem_cons, List.not_mem_nil, or_false] at hf
  rcases hf with rfl | rfl | rfl | rfl
  · exact answers_plain plain_string ..
  · exact answers_plain plain_string ..
  · exact answers_field (asks_list FileReport.asks_reader) ..
  · exact answers_field asks_value ..

namespace Manifest

/-- The reader of manifests and what is asked for of them find the same thing. -/
theorem asks_reader : sketch.Asks shape.reader := by
  apply Shape.asks_sketch
  intro f hf j a
  simp only [shape, List.mem_cons, List.not_mem_nil, or_false] at hf
  subst hf
  exact answers_field (asks_list ManifestRun.asks_reader) ..

end Manifest

/-! ## Texts -/

namespace Json

variable {cs : List Char} {s : Sketch} {j : Json}

namespace Sketch

/-- Nothing is wrong with a whole text. -/
def Fits (s : Sketch) (cs : List Char) : Prop :=
  ∃ rest, s.pass (2 * cs.length + 2) 1 cs = .ok rest ∧ skip rest = []

/-- What is found in a whole text bears out the verdict on the document that it is. -/
theorem exists_bears (h : read? cs = some j) (s : Sketch) :
    ∃ rest, Bears (s.pass (2 * cs.length + 2) 1 cs) rest (s.verdict j) ∧ skip rest = [] := by
  obtain ⟨rest, hread, hrest⟩ := read?_eq_some_iff.1 h
  have hpass := (passes (2 * cs.length + 2)).1 1 s cs
  rw [hread] at hpass
  exact ⟨rest, hpass, hrest⟩

/-- Nothing is wrong with a text exactly if it is a document with which nothing is wrong. -/
theorem fits_iff : s.Fits cs ↔ ∃ j, read? cs = some j ∧ s.verdict j = .ok () := by
  constructor
  · rintro ⟨rest, hok, hrest⟩
    obtain ⟨j, hread, hv⟩ := document_of_pass hok
    exact ⟨j, read?_eq_some_iff.2 ⟨rest, hread, hrest⟩, hv⟩
  · rintro ⟨j, hread, hv⟩
    obtain ⟨rest, hbears, hrest⟩ := exists_bears hread s
    rw [hv] at hbears
    exact ⟨rest, hbears, hrest⟩

theorem fault_eq {f : Fault} (hread : read? cs = some j) (hv : s.verdict j = .error (some f)) :
    s.fault cs = f := by
  obtain ⟨rest, hbears, -⟩ := exists_bears hread s
  rw [hv] at hbears
  replace hbears : s.pass (2 * cs.length + 2) 1 cs = .error f := hbears
  rw [fault, hbears]

theorem told_bind {v v' : Finding} (h : v ≠ .error none) (h' : v' ≠ .error none) :
    (v >>= fun _ => v') ≠ .error none := by
  cases v with
  | ok u => exact h'
  | error o => exact h

theorem told_found (e : Option DecodeError) : found e ≠ .error none := by
  cases e <;> simp [found]

theorem told_items {l : List Json} (h : ∀ j ∈ l, ∀ s : Sketch, s.verdict j ≠ .error none)
    (s : Sketch) (i : Nat) : s.verdictItems i l ≠ .error none := by
  induction l generalizing i with
  | nil => exact told_found (s.shortAt i)
  | cons j l ih =>
    obtain ⟨hj, hl⟩ := List.forall_mem_cons.1 h
    rw [verdictItems]
    cases s.item? i with
    | none => simp
    | some item => exact told_bind (hj item) (ih hl (i + 1))

theorem told_members {l : List (String × Json)}
    (h : ∀ e ∈ l, ∀ s : Sketch, s.verdict e.2 ≠ .error none) (s : Sketch) (seen : List String) :
    s.verdictMembers seen l ≠ .error none := by
  induction l generalizing seen with
  | nil => exact told_found (s.missing? seen)
  | cons e l ih =>
    obtain ⟨he, hl⟩ := List.forall_mem_cons.1 h
    rw [verdictMembers]
    cases s.member seen e.1 with
    | error e => simp
    | ok part => exact told_bind (he part) (ih hl (e.1 :: seen))

/-- On a document of a value the verdict is told in full. -/
theorem told_verdict (h : j.value?.isSome = true) (s : Sketch) : s.verdict j ≠ .error none := by
  induction j using Json.induct generalizing s with
  | array l ih =>
    rw [value?, Option.isSome_map, isSome_valueItems?] at h
    rw [verdict]
    exact told_bind (told_found _) (told_items (fun j hj s => ih j hj (h j hj) s) s.present 0)
  | object l ih =>
    rw [value?, Option.isSome_map, isSome_valueMembers?] at h
    rw [verdict]
    exact told_bind (told_found _) (told_members (fun e he s => ih e he (h e he) s) s.present [])
  | null | bool | number | string =>
    rw [verdict]
    exact told_found _
  | beyond => cases h

end Sketch

/-- A text is refused as a value exactly if something is found to be wrong with it. -/
theorem readValue?_eq_none_iff : readValue? cs = none ↔ ¬ Sketch.value.Fits cs := by
  rw [Sketch.fits_iff, readValue?]
  cases read? cs with
  | none => simp
  | some j =>
    simp only [Option.bind_some, Option.some.injEq, exists_eq_left', Sketch.verdict_value,
      Sketch.valued]
    cases j.value? <;> simp

end Json

namespace Manifest

variable {text : String}

/-- A text is refused exactly if something is wrong with it, and that is told. -/
theorem readText_eq_error_iff {r : Json.Refusal} :
    readText text = .error r ↔ ¬ sketch.Fits text.toList ∧ r = Json.refusal sketch text := by
  rw [fits_iff, readText]
  cases Json.read? text.toList with
  | none => simp [eq_comm]
  | some j =>
    have hreader := asks_reader j
    simp only [Option.some.injEq, exists_eq_left']
    cases hv : sketch.verdict j with
    | ok u =>
      rw [hv] at hreader
      obtain ⟨m, hm⟩ := hreader
      simp [hm]
    | error o =>
      rw [hv] at hreader
      obtain ⟨e, he⟩ := hreader.of_error
      simp [he, eq_comm]

/-- Of a document of a value that is no manifest is said what the reader says. -/
theorem readText_message {j v : Json} {e : DecodeError}
    (hread : Json.read? text.toList = some j) (hvalue : j.value? = some v)
    (he : shape.reader .stream j = .error e) :
    readText text = .error ⟨e.message .stream, true⟩ := by
  have hsome : j.value?.isSome = true := by rw [hvalue]; rfl
  have hrefused : readText text = .error (Json.refusal sketch text) := by
    rw [readText, hread]
    simp only [he]
  have hreader := asks_reader j
  rw [hrefused, Json.refusal, Json.readValue?, hread]
  simp only [Option.bind_some, hsome]
  cases hv : sketch.verdict j with
  | ok u =>
    rw [hv, he] at hreader
    obtain ⟨m, hm⟩ := hreader
    cases hm
  | error o =>
    cases o with
    | none => exact absurd hv (told_verdict hsome sketch)
    | some f =>
      rw [hv] at hreader
      obtain ⟨e', he', hm⟩ := hreader
      rw [he] at he'
      cases he'
      rw [fault_eq hread hv, hm]

example : (Json.refusal sketch "[[1]]").message =
    "invalid type: integer `1`, expected struct ManifestRun" := by
  decide +kernel

end Manifest

end AnalysisGate
