import AnalysisGate.CacheKey
import AnalysisGate.Proofs.Json.Colons
import AnalysisGate.Proofs.Json.Unambiguous
import AnalysisGate.Proofs.MapViews
import Mathlib

/-!
What the flags of a key tell about the options.

A flag is a name and a value with an equality sign between them, and neither is quoted. No name has
an equality sign, so the values of each name are read off the flags in their order
(`values_optionFlags`). The value of an override is a name, a colon and the text of a value, and
these are told apart too (`override_inj`): keys whose options have the same categories are equal
exactly if all their other options are (`withOptions_eq_iff`).
-/
namespace AnalysisGate

namespace CacheKey

/-! ## The flags of one name -/

/-- The value of a flag, if the flag has the name. -/
def valueOf? (name flag : String) : Option String :=
  (Path.dropStart? (name ++ "=").toList flag.toList).map String.ofList

/-- The values of the flags of a name, in order. -/
def values (name : String) (flags : List String) : List String := flags.filterMap (valueOf? name)

theorem values_append (name : String) (flags flags' : List String) :
    values name (flags ++ flags') = values name flags ++ values name flags' :=
  List.filterMap_append

theorem valueOf?_flagText (name value : String) :
    valueOf? name (flagText name value) = some value := by
  have hdrop : Path.dropStart? (name ++ "=").toList (flagText name value).toList =
      some value.toList := by
    rw [Path.dropStart?_eq_some, flagText, String.toList_append]
  rw [valueOf?, hdrop, Option.map_some, String.ofList_toList]

/-- Names that no equality sign ends early. -/
def Distinct (name name' : String) : Prop :=
  name ≠ name' ∧ '=' ∉ name.toList ∧ '=' ∉ name'.toList

instance (name name' : String) : Decidable (Distinct name name') :=
  inferInstanceAs (Decidable (_ ∧ _ ∧ _))

/-- What stands before the first of a character is told apart. -/
theorem append_cons_inj {c : Char} {a b r s : List Char} (ha : c ∉ a) (hb : c ∉ b)
    (h : a ++ c :: r = b ++ c :: s) : a = b := by
  have hlonger {d t u : List Char} (hd : c ∉ d) (h : c :: t = d ++ c :: u) : d = [] := by
    cases d with
    | nil => rfl
    | cons e d => exact absurd (List.mem_cons.2 (.inl (List.cons.inj h).1)) hd
  rcases List.append_eq_append_iff.1 h with ⟨d, rfl, htail⟩ | ⟨d, rfl, htail⟩
  · rw [hlonger (fun hmem => hb (List.mem_append_right a hmem)) htail, List.append_nil]
  · rw [hlonger (fun hmem => ha (List.mem_append_right b hmem)) htail, List.append_nil]

theorem valueOf?_other {name name' : String} (h : Distinct name name') (value : String) :
    valueOf? name (flagText name' value) = none := by
  obtain ⟨hne, hname, hname'⟩ := h
  rw [valueOf?, Option.map_eq_none_iff, Option.eq_none_iff_forall_not_mem]
  intro rest hrest
  rw [Option.mem_def, Path.dropStart?_eq_some] at hrest
  have htext : name'.toList ++ '=' :: value.toList = name.toList ++ '=' :: rest := by
    simpa [flagText] using hrest
  exact hne (String.toList_injective (append_cons_inj hname' hname htext).symm)

theorem values_own {α : Type} (name : String) (f : α → String) (l : List α) :
    values name (l.map fun a => flagText name (f a)) = l.map f := by
  induction l with
  | nil => rfl
  | cons a l ih =>
    rw [List.map_cons, List.map_cons, values, List.filterMap_cons, valueOf?_flagText]
    exact congrArg (f a :: ·) ih

theorem values_other {α : Type} {name name' : String} (h : Distinct name name') (f : α → String)
    (l : List α) : values name (l.map fun a => flagText name' (f a)) = [] := by
  rw [values, List.filterMap_map, List.filterMap_eq_nil_iff]
  intro a _
  exact valueOf?_other h (f a)

/-! ## The flags of all options -/

/-- The value of an override's flag. -/
def overrideText (e : String × Json) : String := e.1 ++ ":" ++ e.2.compactText

/-- The value of a category's flag. -/
def categoryText (e : String × String) : String := e.1 ++ ":" ++ e.2

/-- **The values of every option are read off the flags.** -/
theorem values_optionFlags (o : EngineOptions) :
    values "plugin-arg" (optionFlags o) = o.pluginArgs ∧
      values "profile" (optionFlags o) = o.profile.toList ∧
      values "include" (optionFlags o) = o.included ∧
      values "exclude" (optionFlags o) = o.excluded ∧
      values "override" (optionFlags o) = o.overrides.entries.map overrideText ∧
      values "category" (optionFlags o) = o.categories.entries.map categoryText := by
  have hown (name : String) (l : List String) : values name (l.map (flagText name)) = l := by
    simpa using values_own name id l
  have hother {name name' : String} (h : Distinct name name') (l : List String) :
      values name (l.map (flagText name')) = [] := values_other h id l
  refine ⟨?_, ?_, ?_, ?_, ?_, ?_⟩ <;> simp only [optionFlags, values_append]
  · rw [hown, hother (by decide), hother (by decide), hother (by decide),
      values_other (by decide), values_other (by decide)]
    simp
  · rw [hother (by decide), hown, hother (by decide), hother (by decide),
      values_other (by decide), values_other (by decide)]
    simp
  · rw [hother (by decide), hother (by decide), hown, hother (by decide),
      values_other (by decide), values_other (by decide)]
    simp
  · rw [hother (by decide), hother (by decide), hother (by decide), hown,
      values_other (by decide), values_other (by decide)]
    simp
  · rw [hother (by decide), hother (by decide), hother (by decide), hother (by decide),
      values_own, values_other (by decide)]
    simp [overrideText]
  · rw [hother (by decide), hother (by decide), hother (by decide), hother (by decide),
      values_other (by decide), values_own]
    simp [categoryText]

/-! ## Overrides and categories -/

/-- A map keeps lists apart whose members it keeps apart. -/
theorem map_injOn {α β : Type} {f : α → β} {s : Set α} (hf : s.InjOn f) {l l' : List α}
    (hl : ∀ a ∈ l, a ∈ s) (hl' : ∀ a ∈ l', a ∈ s) (h : l.map f = l'.map f) : l = l' := by
  induction l generalizing l' with
  | nil => exact (List.map_eq_nil_iff.1 h.symm).symm
  | cons a l ih =>
    cases l' with
    | nil => cases h
    | cons a' l' =>
      rw [List.forall_mem_cons] at hl hl'
      rw [List.map_cons, List.map_cons] at h
      obtain ⟨hhead, htail⟩ := List.cons.inj h
      rw [hf hl.1 hl'.1 hhead, ih hl.2 hl'.2 htail]

/-- A name and a value are told apart wherever the colon between them stands. -/
theorem override_inj {D : Set UInt64} (hprint : D.InjOn Json.doubleText) {name name' : String}
    {j j' : Json} (hj : Json.Over D j) (hj' : Json.Over D j')
    (h : overrideText (name, j) = overrideText (name', j')) : name = name' ∧ j = j' := by
  have htext : name.toList ++ ':' :: Json.compact j = name'.toList ++ ':' :: Json.compact j' := by
    simpa [overrideText, Json.compactText] using congrArg String.toList h
  obtain ⟨hname, hcompact⟩ := Json.named_append_inj htext
  exact ⟨String.toList_injective hname,
    Json.compactText_inj hprint hj hj' (congrArg String.ofList hcompact)⟩

/-- A category and a severity are told apart if no category has a colon. -/
theorem category_inj : {e : String × String | ':' ∉ e.1.toList}.InjOn categoryText := by
  intro e he e' he' h
  have htext : e.1.toList ++ ':' :: e.2.toList = e'.1.toList ++ ':' :: e'.2.toList := by
    simpa [categoryText] using congrArg String.toList h
  have hname := append_cons_inj he he' htext
  rw [hname, List.append_cancel_left_eq] at htext
  exact Prod.ext (String.toList_injective hname)
    (String.toList_injective (List.cons.inj htext).2)

theorem withFlags_inj {k : CacheKey} {flags flags' : List String} :
    k.withFlags flags = k.withFlags flags' ↔ flags = flags' := by
  constructor
  · intro h
    exact List.append_cancel_left (congrArg CacheKey.flags h)
  · intro h
    rw [h]

/-- **Keys of options with the same categories are equal exactly if the options are, up to the
file that they come from**, and no name of an override brings two overrides to one text. -/
theorem withOptions_eq_iff (k : CacheKey) {D : Set UInt64} (hprint : D.InjOn Json.doubleText)
    {o o' : EngineOptions} (ho : ∀ e ∈ o.overrides.entries, Json.Over D e.2)
    (ho' : ∀ e ∈ o'.overrides.entries, Json.Over D e.2)
    (hcategories : o.categories = o'.categories) :
    (k.withOptions o = k.withOptions o' ↔
      o.profile = o'.profile ∧ o.pluginArgs = o'.pluginArgs ∧ o.included = o'.included ∧
        o.excluded = o'.excluded ∧ o.overrides = o'.overrides) ∧
    ∀ (name name' : String) (j j' : Json), Json.Over D j → Json.Over D j' →
      (name ++ ":" ++ j.compactText = name' ++ ":" ++ j'.compactText ↔ name = name' ∧ j = j') := by
  refine ⟨⟨fun h => ?_, fun h => ?_⟩, fun name name' j j' hj hj' => ⟨fun h => ?_, fun h => ?_⟩⟩
  · rw [withOptions, withOptions, withFlags_inj] at h
    obtain ⟨hargs, hprofile, hincluded, hexcluded, hoverrides, -⟩ := values_optionFlags o
    obtain ⟨hargs', hprofile', hincluded', hexcluded', hoverrides', -⟩ := values_optionFlags o'
    -- the flags are the same, so each option has the values that are read off them
    rw [h] at hargs hprofile hincluded hexcluded hoverrides
    have hinj : {e : String × Json | Json.Over D e.2}.InjOn overrideText := by
      intro e he e' he' htext
      obtain ⟨hname, hvalue⟩ := override_inj hprint he he' htext
      exact Prod.ext hname hvalue
    refine ⟨?_, hargs.symm.trans hargs', hincluded.symm.trans hincluded',
      hexcluded.symm.trans hexcluded', ?_⟩
    · simpa using congrArg List.head? (hprofile.symm.trans hprofile')
    · exact SortedMap.entries_inj (map_injOn hinj ho ho' (hoverrides.symm.trans hoverrides'))
  · obtain ⟨hprofile, hargs, hincluded, hexcluded, hoverrides⟩ := h
    rw [withOptions, withOptions, optionFlags, optionFlags, hprofile, hargs, hincluded, hexcluded,
      hoverrides, hcategories]
  · exact override_inj hprint hj hj' h
  · rw [h.1, h.2]

/-- The doubles 1.5 and 2.5, under names of which one goes on like the text of the other. -/
theorem withOptions_eq_iff_doubles :
    (ofPaths "tsc" "check" ["src"]).withOptions
        { EngineOptions.empty with
          overrides := .ofList [("w:1.5", .number (.double 0x4004000000000000))] } ≠
      (ofPaths "tsc" "check" ["src"]).withOptions
        { EngineOptions.empty with
          overrides := .ofList [("w", .number (.double 0x3FF8000000000000))] } := by
  have hprint : ({0x3FF8000000000000, 0x4004000000000000} : Set UInt64).InjOn Json.doubleText := by
    intro x hx y hy h
    rcases hx with rfl | rfl <;> rcases hy with rfl | rfl
    · rfl
    · exact absurd h (by decide +kernel)
    · exact absurd h (by decide +kernel)
    · rfl
  intro h
  have hover {name : String} {bits : UInt64}
      (hbits : bits ∈ ({0x3FF8000000000000, 0x4004000000000000} : Set UInt64)) :
      ∀ e ∈ (SortedMap.ofList [(name, Json.number (.double bits))]).entries,
        Json.Over {0x3FF8000000000000, 0x4004000000000000} e.2 := by
    intro e he
    obtain rfl : e = (name, Json.number (.double bits)) := List.mem_singleton.1 he
    exact ⟨rfl, fun x hx => List.mem_singleton.1 hx ▸ hbits⟩
  have hsame := (withOptions_eq_iff _ hprint (by exact hover (.inr rfl)) (by exact hover (.inl rfl))
    (by rfl)).1.1 h
  exact absurd hsame.2.2.2.2 (by decide)

end CacheKey

end AnalysisGate
