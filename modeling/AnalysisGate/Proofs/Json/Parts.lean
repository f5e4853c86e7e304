import AnalysisGate.Proofs.Json.Recovery
import Mathlib

/-!
Parts of documents.

How deep the containers of a document nest, whether it has doubles, and what the parts of a value
are.
-/
namespace AnalysisGate

namespace Json

/-! ## Heights -/

mutual

/-- How deep the containers of a document nest. -/
def height : Json → Nat
  | .array l => heightItems l + 1
  | .object l => heightMembers l + 1
  | .null | .bool _ | .number _ | .string _ | .beyond => 0

def heightItems : List Json → Nat
  | [] => 0
  | j :: rest => max (height j) (heightItems rest)

def heightMembers : List (String × Json) → Nat
  | [] => 0
  | (_, j) :: rest => max (height j) (heightMembers rest)

end

theorem height_le_items {l : List Json} {j : Json} (h : j ∈ l) : j.height ≤ heightItems l := by
  induction l with
  | nil => cases h
  | cons i l ih =>
    rw [heightItems]
    rcases List.mem_cons.1 h with rfl | h
    · exact le_max_left ..
    · exact (ih h).trans (le_max_right ..)

theorem height_le_members {l : List (String × Json)} {e : String × Json} (h : e ∈ l) :
    e.2.height ≤ heightMembers l := by
  induction l with
  | nil => cases h
  | cons i l ih =>
    rw [heightMembers]
    rcases List.mem_cons.1 h with rfl | h
    · exact le_max_left ..
    · exact (ih h).trans (le_max_right ..)

/-! ## Doubles -/

mutual

/-- Whether a document has a double anywhere. -/
def hasDouble : Json → Bool
  | .number (.double _) => true
  | .array l => hasDoubleItems l
  | .object l => hasDoubleMembers l
  | .number (.natural _) | .number (.negative _) | .null | .bool _ | .string _ | .beyond => false

def hasDoubleItems : List Json → Bool
  | [] => false
  | j :: rest => hasDouble j || hasDoubleItems rest

def hasDoubleMembers : List (String × Json) → Bool
  | [] => false
  | (_, j) :: rest => hasDouble j || hasDoubleMembers rest

end

theorem hasDoubleItems_eq_false {l : List Json} :
    hasDoubleItems l = false ↔ ∀ j ∈ l, j.hasDouble = false := by
  induction l with
  | nil => simp [hasDoubleItems]
  | cons j l ih => simp [hasDoubleItems, ih]

theorem hasDoubleMembers_eq_false {l : List (String × Json)} :
    hasDoubleMembers l = false ↔ ∀ e ∈ l, e.2.hasDouble = false := by
  induction l with
  | nil => simp [hasDoubleMembers]
  | cons e l ih =>
    rw [hasDoubleMembers, Bool.or_eq_false_iff, ih, List.forall_mem_cons]

/-! ## Parts of values -/

theorem normal_item {l : List Json} (h : Normal (.array l)) : ∀ j ∈ l, Normal j := by
  have hl : (valueItems? l).map Json.array = some (.array l) := h
  obtain ⟨vs, hvs, heq⟩ := Option.map_eq_some_iff.1 hl
  cases heq
  have hitems := valueItems?_eq_some.1 hvs
  exact fun j hj => List.forall₂_same.1 hitems j hj

theorem normal_member {l : List (String × Json)} (h : Normal (.object l)) :
    (l.Pairwise fun a b => compare a.1 b.1 = .lt) ∧ ∀ e ∈ l, Normal e.2 := by
  have hl : (valueMembers? l).map (fun l => Json.object (SortedMap.ofList l).entries) =
      some (.object l) := h
  obtain ⟨vs, hvs, heq⟩ := Option.map_eq_some_iff.1 hl
  have hentries : (SortedMap.ofList vs).entries = l := by simpa using heq
  have hmembers := valueMembers?_eq_some.1 hvs
  have hkeys : l.map Prod.fst = vs.map Prod.fst := map_eq_of_forall₂ hmembers fun _ _ _ h => h.1
  have hascending : l.Pairwise fun a b => compare a.1 b.1 = .lt :=
    hentries ▸ (SortedMap.ofList vs).ascending
  have hvascending : vs.Pairwise fun a b => compare a.1 b.1 = .lt := by
    rw [← List.pairwise_map (f := Prod.fst) (R := fun a b => compare a b = .lt), ← hkeys,
      List.pairwise_map]
    exact hascending
  rw [SortedMap.ofList_of_ascending hvascending] at hentries
  obtain rfl : vs = l := hentries
  exact ⟨hascending, fun e he => (List.forall₂_same.1 hmembers e he).2⟩

theorem not_normal_beyond : ¬ Normal .beyond := by
  intro h
  cases h

end Json

end AnalysisGate
