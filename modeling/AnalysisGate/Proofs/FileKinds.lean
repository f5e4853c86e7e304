import AnalysisGate.Budget
import AnalysisGate.Config
import AnalysisGate.Proofs.Json.Equivalence
import AnalysisGate.Proofs.Json.Records
import AnalysisGate.Proofs.Json.Steps
import Mathlib

/-!
Files that are of one kind only.

The text of a budget is that of an object, so it is no TOML text (`Toml.read?_eq_none`), and a file
cannot be the configuration and the budget of a project. It can be the manifest and the budget, but
such a budget has no runs (`Budget.runs_of_manifest`), and an update has nothing to tighten.
-/
namespace AnalysisGate

/-! ## Texts of objects -/

namespace Json

variable {fuel depth : Nat} {cs rest : List Char} {j : Json}

theorem kind_nested (l : List Json) : (nested depth (.array l)).kind ≠ .object := by
  rw [nested]
  split <;> simp [kind]

theorem kind_scalar (h : scalarPart? cs = some (j, rest)) : j.kind ≠ .object := by
  rcases scalarPart?_cases h with rfl | ⟨b, rfl⟩ | ⟨n, rfl⟩ | ⟨t, rfl⟩ | rfl <;> simp [kind]

/-- The text of an object opens with a brace. -/
theorem opens_of_document (h : document? fuel depth cs = some (j, rest))
    (hkind : j.kind = .object) :
    ∃ r, skip cs = '\x7b' :: r := by
  cases fuel with
  | zero => cases h
  | succ fuel =>
    rw [document?_succ] at h
    split at h
    · obtain ⟨⟨l, rest'⟩, -, heq⟩ := Option.map_eq_some_iff.1 h
      cases heq
      exact absurd hkind (kind_nested l)
    · next r hopen => exact ⟨r, hopen⟩
    · exact absurd hkind (kind_scalar h)

theorem opens_of_object {l : List (String × Json)} (h : readValue? cs = some (.object l)) :
    ∃ r, skip cs = '\x7b' :: r := by
  obtain ⟨j, hj, hvalue⟩ := Option.bind_eq_some_iff.1 h
  have hkind : j.kind = .object := (kind_value? hvalue).symm
  obtain ⟨rest, hdocument, -⟩ := read?_eq_some_iff.1 hj
  exact opens_of_document hdocument hkind

end Json

namespace Toml

/-- A line that opens with a brace gives no key a value. -/
theorem assignment?_brace (d : Draft) (cs : List Char) : assignment? d ('\x7b' :: cs) = none := by
  have hkey : key? ('\x7b' :: cs) = none := by
    have hskip : skipSpaces ('\x7b' :: cs) = '\x7b' :: cs := by simp [skipSpaces, isSpace]
    have hpart : keyPart? ('\x7b' :: cs) = none := by
      have hbare : isBare '\x7b' = false := by decide
      simp [keyPart?, hbare]
    rw [key?, List.length_cons, keyParts, hskip, hpart]
    rfl
  rw [assignment?, hkey]
  rfl

theorem skip_skipSpaces (cs : List Char) : Json.skip (skipSpaces cs) = Json.skip cs := by
  induction cs with
  | nil => rfl
  | cons c cs ih =>
    cases hc : isSpace c with
    | false => rw [skipSpaces, List.dropWhile_cons, hc]; rfl
    | true =>
      have hblank : Json.isSpace c = true := by
        rw [isSpace, Bool.or_eq_true] at hc
        rcases hc with hc | hc <;> simp [Json.isSpace, hc]
      rw [skipSpaces, List.dropWhile_cons, if_pos hc, Json.skip, Json.skip,
        List.dropWhile_cons, if_pos hblank]
      exact ih

/-- Lines that lead to a brace are refused. -/
theorem lines?_eq_none {fuel : Nat} : ∀ {d : Draft} {cs rest : List Char},
    Json.skip cs = '\x7b' :: rest → lines? fuel d cs = none := by
  induction fuel with
  | zero =>
    intros
    rfl
  | succ fuel ih =>
    intro d cs rest hopen
    rw [← skip_skipSpaces] at hopen
    -- past the spaces stands the brace itself or a blank of another kind
    have hhead : ∀ c ∈ (skipSpaces cs).head?, isSpace c = false := by
      intro c hc
      have hnot := List.head?_dropWhile_not isSpace cs
      rw [skipSpaces] at hc
      rw [hc] at hnot
      exact hnot
    rw [lines?]
    generalize skipSpaces cs = cs at hopen hhead
    split
    · cases hopen
    · cases hopen
    · next c r _ =>
      have hspace : isSpace c = false := hhead c rfl
      have hline : skipSpaces (c :: r) = c :: r := by
        rw [skipSpaces, List.dropWhile_cons, hspace]
        rfl
      by_cases hblank : Json.isSpace c = true
      · -- a blank that is no space ends a line
        have hrest : Json.skip r = '\x7b' :: rest := by
          rwa [Json.skip, List.dropWhile_cons, if_pos hblank, ← Json.skip] at hopen
        have hend : c = '\n' ∨ c = '\r' := by
          simp only [Json.isSpace, isSpace, Bool.or_eq_true, Bool.or_eq_false_iff, beq_iff_eq,
            beq_eq_false_iff_ne] at hblank hspace
          tauto
        rw [if_pos (.inr hend), restOfLine?, hline]
        rcases hend with rfl | rfl
        · exact ih hrest
        · cases r with
          | nil => rfl
          | cons c' r =>
            by_cases hnewline : c' = '\n'
            · subst hnewline
              exact ih hrest
            · simp [skipComment, lineEnd?, hnewline]
      · rw [Json.skip, List.dropWhile_cons, if_neg hblank] at hopen
        obtain ⟨rfl, rfl⟩ := List.cons.inj hopen
        simp [assignment?_brace]

/-- **The text of an object is no TOML text.** -/
theorem read?_eq_none {text : String} {l : List (String × Json)}
    (h : Json.readValue? text.toList = some (.object l)) : read? text = none := by
  obtain ⟨rest, hopen⟩ := Json.opens_of_object h
  have hmark : dropMark text.toList = text.toList := by
    rw [dropMark.eq_def]
    split
    · next r htext =>
      rw [htext] at hopen
      cases hopen
    · rfl
  rw [read?, hmark]
  simp only [lines?_eq_none hopen]
  rfl

end Toml

/-! ## Members of records -/

/-- Each member of a record that is read has been read into its field. -/
theorem Shape.read_of_readMembers {α : Type} {s : Shape α} {m : Medium}
    {l : List (String × Json)} : ∀ {seen seen' : List String} {a a' : α},
      s.readMembers m seen a l = .ok (seen', a') → ∀ e ∈ l, ∀ f,
        s.fields.find? (·.name == e.1) = some f → ∃ a₁ a₂, f.read m e.2 a₁ = .ok a₂ := by
  induction l with
  | nil =>
    intro _ _ _ _ _ e he
    cases he
  | cons e l ih =>
    intro seen seen' a a' h e' he' f hf
    rw [readMembers] at h
    split at h
    · next hnone =>
      rcases List.mem_cons.1 he' with rfl | he'
      · cases hnone.symm.trans hf
      · exact ih h e' he' f hf
    · next f' hf' =>
      split at h
      · cases h
      · split at h
        · next a₁ ha₁ =>
          rcases List.mem_cons.1 he' with rfl | he'
          · cases hf'.symm.trans hf
            exact ⟨a, a₁, ha₁⟩
          · exact ih h e' he' f hf
        · cases h

theorem Shape.readMembers_of_ofMembers {α : Type} {s : Shape α} {m : Medium}
    {l : List (String × Json)} {a : α} (h : s.ofMembers m l = .ok a) :
    ∃ seen, s.readMembers m [] s.start l = .ok (seen, a) := by
  rw [ofMembers] at h
  split at h
  · cases h
  · next seen a' hread =>
    split at h
    · cases h
    · cases h
      exact ⟨seen, hread⟩

/-! ## Budgets, configurations and manifests -/

namespace Budget

variable {text : String} {p origin : Path} {b : Budget} {m : Manifest}

theorem exists_object_of_parse (h : parse text p = .ok b) :
    ∃ l, Json.readValue? text.toList = some (.object l) ∧ shape.ofMembers .tree l = .ok b := by
  rw [parse] at h
  split at h
  · cases h
  · next j hj =>
    split at h
    · cases h
    · next hschema =>
      cases j with
      | object l =>
        refine ⟨l, hj, ?_⟩
        change (shape.ofMembers .tree l).mapError _ = .ok b at h
        cases hread : shape.ofMembers .tree l with
        | error e =>
          rw [hread] at h
          cases h
        | ok b' =>
          rw [hread] at h
          exact congrArg Except.ok (Except.ok.inj h)
      | null | bool | number | string | array | beyond => cases hschema

/-- **The text of a budget is no configuration.** -/
theorem readToml_of_parse {α : Type} (h : parse text p = .ok b) (read : Reader α) :
    ProjectConfig.readToml read text = .error none := by
  obtain ⟨l, hl, -⟩ := exists_object_of_parse h
  rw [ProjectConfig.readToml, Toml.read?_eq_none hl]

/-- **A text that is a manifest and a budget has no runs to allow anything in**: a manifest lists
its runs, and a budget names them. -/
theorem runs_of_manifest (h : parse text p = .ok b) (hm : Manifest.parse text origin = .ok m) :
    b.runs = .empty := by
  obtain ⟨l, hl, hb⟩ := exists_object_of_parse h
  obtain ⟨seen, hb⟩ := Shape.readMembers_of_ofMembers hb
  obtain ⟨j, hj, hvalue⟩ := Option.bind_eq_some_iff.1 hl
  obtain ⟨l', rfl⟩ : ∃ l', j = .object l' := by
    have hkind := Json.kind_value? hvalue
    cases j with
    | object l' => exact ⟨l', rfl⟩
    | null | bool | number | string | array | beyond => cases hkind
  have hmanifest : ∃ m', Manifest.shape.ofMembers .stream l' = .ok m' := by
    unfold Manifest.parse at hm
    split at hm
    · cases hm
    · next m' hm' =>
      rw [Manifest.readText, hj] at hm'
      simp only at hm'
      split at hm'
      · next m'' hread => exact ⟨m'', hread⟩
      · cases hm'
  obtain ⟨m', hmanifest⟩ := hmanifest
  obtain ⟨seen', hmanifest⟩ := Shape.readMembers_of_ofMembers hmanifest
  have hruns : "runs" ∉ l.map Prod.fst := by
    intro hmem
    obtain ⟨⟨k, i₀⟩, hi₀, rfl⟩ := List.mem_map.1 hmem
    obtain ⟨i, hi⟩ : ∃ i, Json.get? (.object l) "runs" = some i := by
      rw [Json.get?, ← Option.isSome_iff_exists, Option.isSome_map, List.find?_isSome]
      exact ⟨_, List.mem_reverse.2 hi₀, by simp⟩
    -- the budget has read an object there, and the manifest a list
    obtain ⟨_, _, hread⟩ := Shape.read_of_readMembers hb _ (Json.mem_of_get? hi) _ rfl
    obtain ⟨runs, hread, -⟩ := Shape.field_eq_ok.1 hread
    obtain ⟨l'', heq, hmembers⟩ := Json.value?_object hvalue
    cases heq
    obtain ⟨i', hi', hvalue'⟩ : ∃ i', Json.get? (.object l') "runs" = some i' ∧
        i'.value? = some i := by
      have hsame := hmembers "runs"
      rw [hi] at hsame
      exact Option.map_eq_some_iff.1 hsame
    obtain ⟨_, _, hlist⟩ := Shape.read_of_readMembers hmanifest _ (Json.mem_of_get? hi') _ rfl
    obtain ⟨items, hlist, -⟩ := Shape.field_eq_ok.1 hlist
    have hkind := Json.kind_value? hvalue'
    cases i' with
    | array =>
      cases i with
      | object => cases hkind
      | null | bool | number | string | array | beyond => cases hread
    | null | bool | number | string | object | beyond => cases hlist
  have hframe : ∀ f ∈ shape.fields, f.name ≠ "runs" → f.Keeps Budget.runs := by simp [shape]
  exact Shape.readMembers_frame hframe hruns hb

end Budget

end AnalysisGate
