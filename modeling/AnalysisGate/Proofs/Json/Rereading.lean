import AnalysisGate.Proofs.Json.Values
import Mathlib

/-!
Doubles that go through text.

A value that is written and read again is itself but for its doubles: each of them is the one that
its numeral is read as, its echo (`reread_eq_mapDoubles`). So however often a value is written and
read, its outline stays, which has zero in place of every double (`outline_mapDoubles`), and a value
without doubles is told by its outline alone (`eq_of_outline`).
-/
namespace AnalysisGate

namespace Json

/-! ## Other doubles -/

mutual

/-- The document with another double in place of each. -/
def mapDoubles (f : UInt64 → UInt64) : Json → Json
  | .number (.double x) => .number (.double (f x))
  | .array l => .array (mapItems f l)
  | .object l => .object (mapMembers f l)
  | .null => .null
  | .bool b => .bool b
  | .number n => .number n
  | .string s => .string s
  | .beyond => .beyond

def mapItems (f : UInt64 → UInt64) : List Json → List Json
  | [] => []
  | j :: rest => mapDoubles f j :: mapItems f rest

def mapMembers (f : UInt64 → UInt64) : List (String × Json) → List (String × Json)
  | [] => []
  | (k, j) :: rest => (k, mapDoubles f j) :: mapMembers f rest

end

variable {f g : UInt64 → UInt64} {j j' : Json} {D D' : Set UInt64}

theorem mapItems_eq (l : List Json) : mapItems f l = l.map (mapDoubles f) := by
  induction l with
  | nil => rfl
  | cons j l ih => rw [mapItems, ih, List.map_cons]

theorem mapMembers_eq (l : List (String × Json)) :
    mapMembers f l = l.map fun e => (e.1, e.2.mapDoubles f) := by
  induction l with
  | nil => rfl
  | cons e l ih => rw [mapMembers, ih, List.map_cons]

@[simp] theorem mapDoubles_array (l : List Json) :
    (array l).mapDoubles f = .array (l.map (mapDoubles f)) := by rw [mapDoubles, mapItems_eq]

@[simp] theorem mapDoubles_object (l : List (String × Json)) :
    (object l).mapDoubles f = .object (l.map fun e => (e.1, e.2.mapDoubles f)) := by
  rw [mapDoubles, mapMembers_eq]

theorem mapDoubles_mapDoubles (j : Json) :
    (j.mapDoubles f).mapDoubles g = j.mapDoubles (g ∘ f) := by
  induction j using induct with
  | null | bool b | string s | beyond => rfl
  | number n => cases n <;> rfl
  | array l ih =>
    simp only [mapDoubles_array, List.map_map]
    exact congrArg array (List.map_congr_left ih)
  | object l ih =>
    simp only [mapDoubles_object, List.map_map]
    exact congrArg object (List.map_congr_left fun e he => Prod.ext rfl (ih e he))

theorem mapDoubles_eq_self (h : ∀ x ∈ j.doubles, f x = x) : j.mapDoubles f = j := by
  induction j using induct with
  | null | bool b | string s | beyond => rfl
  | number n =>
    cases n with
    | natural | negative => rfl
    | double x => rw [mapDoubles, h x (List.mem_singleton.2 rfl)]
  | array l ih =>
    rw [doubles, doublesItems_eq] at h
    have hitems : l.map (mapDoubles f) = l.map id := List.map_congr_left fun j hj =>
      ih j hj fun x hx => h x (List.mem_flatMap.2 ⟨j, hj, hx⟩)
    rw [mapDoubles_array, hitems, List.map_id]
  | object l ih =>
    rw [doubles, doublesMembers_eq] at h
    have hmembers : (l.map fun e => (e.1, e.2.mapDoubles f)) = l.map id :=
      List.map_congr_left fun e he =>
        Prod.ext rfl (ih e he fun x hx => h x (List.mem_flatMap.2 ⟨e, he, hx⟩))
    rw [mapDoubles_object, hmembers, List.map_id]

theorem mapDoubles_of_hasDouble (h : j.hasDouble = false) : j.mapDoubles f = j :=
  mapDoubles_eq_self fun x hx => absurd hx (by rw [doubles_eq_nil h]; exact List.not_mem_nil)

theorem doubles_mapDoubles (j : Json) : (j.mapDoubles f).doubles = j.doubles.map f := by
  induction j using induct with
  | null | bool b | string s | beyond => rfl
  | number n => cases n <;> rfl
  | array l ih =>
    rw [mapDoubles_array, doubles, doublesItems_eq, doubles, doublesItems_eq, List.flatMap_map,
      List.map_flatMap]
    exact List.flatMap_congr ih
  | object l ih =>
    rw [mapDoubles_object, doubles, doublesMembers_eq, doubles, doublesMembers_eq,
      List.flatMap_map, List.map_flatMap]
    exact List.flatMap_congr ih

theorem Normal.mapDoubles (h : Normal j) : Normal (j.mapDoubles f) := by
  induction j using induct with
  | null | bool b | string s => exact h
  | beyond => exact absurd h not_normal_beyond
  | number n => cases n <;> rfl
  | array l ih =>
    rw [mapDoubles_array, normal_array, List.forall_mem_map]
    exact fun j hj => ih j hj (normal_array.1 h j hj)
  | object l ih =>
    obtain ⟨hascending, hmembers⟩ := normal_object.1 h
    rw [mapDoubles_object, normal_object, List.forall_mem_map, List.pairwise_map]
    exact ⟨hascending, fun e he => ih e he (hmembers e he)⟩

theorem Over.mapDoubles (h : Over D j) (hf : ∀ x ∈ D, f x ∈ D') : Over D' (j.mapDoubles f) where
  normal := h.normal.mapDoubles
  doubles := by
    rw [doubles_mapDoubles, List.forall_mem_map]
    exact fun x hx => hf x (h.doubles x hx)

theorem mapDoubles_eq_null : j.mapDoubles f = .null ↔ j = .null := by
  cases j with
  | null => exact Iff.rfl
  | number n => cases n <;> simp [mapDoubles]
  | bool | string | beyond => simp [mapDoubles]
  | array l => simp
  | object l => simp

/-! ## Outlines -/

/-- The document with zero in place of every double. -/
def outline (j : Json) : Json := j.mapDoubles fun _ => 0

theorem outline_mapDoubles (f : UInt64 → UInt64) (j : Json) :
    (j.mapDoubles f).outline = j.outline := mapDoubles_mapDoubles j

/-- A value without doubles is told by its outline. -/
theorem eq_of_outline (h : j.outline = j'.outline) (hnone : j'.hasDouble = false) : j = j' := by
  have hdoubles : j.doubles = [] := by
    have hmapped := congrArg doubles h
    rw [outline, outline, doubles_mapDoubles, doubles_mapDoubles, doubles_eq_nil hnone] at hmapped
    exact List.map_eq_nil_iff.1 hmapped
  have hself : j.outline = j :=
    mapDoubles_eq_self fun x hx => absurd hx (by rw [hdoubles]; exact List.not_mem_nil)
  rw [← hself, h]
  exact mapDoubles_of_hasDouble hnone

theorem outline_eq_self (h : j.outline.hasDouble = false) : j.outline = j :=
  (eq_of_outline (outline_mapDoubles _ j).symm h).symm

/-! ## Reading back -/

/-- The double that the numeral of a double is read as. -/
def echo (bits : UInt64) : UInt64 :=
  match rereadNumber (.double bits) with
  | .number (.double x) => x
  | _ => bits

theorem rereadNumber_echo {bits : UInt64} (h : bits ∈ finiteDoubles) :
    rereadNumber (.double bits) = .number (.double (echo bits)) := by
  obtain ⟨x, -, hx⟩ := rereadNumber_double h
  rw [echo, hx]

theorem echo_mem {bits : UInt64} (h : bits ∈ finiteDoubles) : echo bits ∈ finiteDoubles := by
  obtain ⟨x, hfinite, hx⟩ := rereadNumber_double h
  rw [echo, hx]
  exact hfinite

/-- **A value that does not nest too deep is read back as itself but for its doubles.** -/
theorem reread_eq_mapDoubles (h : Over finiteDoubles j) :
    ∀ {depth : Nat}, depth + j.height ≤ nestingLimit + 1 → j.reread depth = j.mapDoubles echo := by
  induction j using induct with
  | null | bool b | string s => exact fun _ => rfl
  | beyond => exact absurd h.normal not_normal_beyond
  | number n =>
    intro depth _
    cases n with
    | natural n | negative n => exact rereadNumber_int rfl
    | double x => exact rereadNumber_echo (h.doubles x (List.mem_singleton.2 rfl))
  | array l ih =>
    intro depth hdepth
    rw [height] at hdepth
    have hitems : l.map (reread (depth + 1)) = l.map (mapDoubles echo) := by
      refine List.map_congr_left fun j hj => ih j hj (h.item j hj) ?_
      have hheight := height_le_items hj
      omega
    rw [reread, nested, if_pos (by omega), rereadItems_eq, hitems, mapDoubles_array]
  | object l ih =>
    intro depth hdepth
    rw [height] at hdepth
    have hmembers : (l.map fun e => (e.1, e.2.reread (depth + 1))) =
        l.map fun e => (e.1, e.2.mapDoubles echo) := by
      refine List.map_congr_left fun e he => Prod.ext rfl (ih e he (h.member e he) ?_)
      have hheight := height_le_members he
      omega
    rw [reread, nested, if_pos (by omega), rereadMembers_eq, hmembers, mapDoubles_object]

theorem seen_eq_mapDoubles {m : Medium} (h : Over finiteDoubles j) {depth : Nat}
    (hdepth : depth + j.height ≤ nestingLimit + 1) :
    j.seen m depth = some (j.mapDoubles echo) := by
  have hnormal : (j.mapDoubles echo).value? = some (j.mapDoubles echo) := h.normal.mapDoubles
  rw [seen, reread_eq_mapDoubles h hdepth, hnormal, ite_self]

/-- A value without doubles is read back as itself. -/
theorem reread_eq_self (hn : Normal j) (hd : j.hasDouble = false) {depth : Nat}
    (hdepth : depth + j.height ≤ nestingLimit + 1) : j.reread depth = j := by
  rw [reread_eq_mapDoubles (over_of_hasDouble hn hd) hdepth, mapDoubles_of_hasDouble hd]

theorem finite_eq_self (h : ∀ x ∈ j.doubles, x ∈ finiteDoubles) : Reader.finite j = j := by
  induction j using induct with
  | null | bool b | string s | beyond => rfl
  | number n =>
    cases n with
    | natural | negative => rfl
    | double x => exact if_pos (h x (List.mem_singleton.2 rfl))
  | array l ih =>
    rw [doubles, doublesItems_eq] at h
    have hitems : l.map Reader.finite = l.map id := List.map_congr_left fun j hj =>
      ih j hj fun x hx => h x (List.mem_flatMap.2 ⟨j, hj, hx⟩)
    rw [Reader.finite, finiteItems_eq, hitems, List.map_id]
  | object l ih =>
    rw [doubles, doublesMembers_eq] at h
    have hmembers : (l.map fun e => (e.1, Reader.finite e.2)) = l.map id :=
      List.map_congr_left fun e he =>
        Prod.ext rfl (ih e he fun x hx => h x (List.mem_flatMap.2 ⟨e, he, hx⟩))
    rw [Reader.finite, finiteMembers_eq, hmembers, List.map_id]

end Json

namespace Reader

open Json

theorem recovers_echo {m : Medium} {j : Json} (h : Over finiteDoubles j) {depth : Nat}
    (hdepth : depth + j.height ≤ nestingLimit + 1) :
    Reader.value.Recovers m depth j (j.mapDoubles echo) := by
  have hover : Over finiteDoubles (j.mapDoubles echo) := h.mapDoubles fun _ => echo_mem
  have hnormal : (j.mapDoubles echo).value? = some (j.mapDoubles echo) := hover.normal
  refine ⟨_, seen_eq_mapDoubles h hdepth, ?_⟩
  rw [Reader.value, finite_eq_self hover.doubles, hnormal]

theorem recovers_value {m : Medium} {j : Json} (hn : j.Normal) (hd : j.hasDouble = false)
    {depth : Nat} (hdepth : depth + j.height ≤ nestingLimit + 1) :
    Reader.value.Recovers m depth j j := by
  have h := recovers_echo (m := m) (over_of_hasDouble hn hd) hdepth
  rwa [mapDoubles_of_hasDouble hd] at h

end Reader

end AnalysisGate
