import AnalysisGate.Proofs.Components
import Mathlib

/-!
Keys of paths.

A key is the text of the components of a path below a root, single dots left out (`Path.key_eq`),
and such a text has just these components. So two paths have one key exactly if they have the same
components below the root, a key is the key of itself, and a path that is joined to a root has a key
that does not depend on it (`Path.key_canonical`).
-/
namespace AnalysisGate.Path

variable {c : Component} {cs : List Component} {p q root : Path} {key : List Char}

/-! ## Components below a root -/

/-- The components of a path below a root, without single dots: those after the components of the
root if it starts with them, or else all of them. -/
def below (root p : Path) : List Component :=
  (if root.components <+: p.components then p.components.drop root.components.length
    else p.components).filter (· ≠ .here)

theorem below_of_append {rest : List Component} (h : p.components = root.components ++ rest) :
    below root p = rest.filter (· ≠ .here) := by
  rw [below, h, if_pos (List.prefix_append _ _), List.drop_left]

theorem below_of_outside (h : ¬ root.components <+: p.components) :
    below root p = p.components.filter (· ≠ .here) := by
  rw [below, if_neg h]

theorem keyed_components (p : Path) : Keyed (p.components.filter (· ≠ .here)) := by
  have hinner : ∀ c ∈ inner p.text.toList, Inner c := fun c => inner_of_mem
  rw [components_eq, List.filter_append, filter_inner hinner]
  rcases leading_cases p with ⟨h, -⟩ | ⟨h | h, -⟩ <;> rw [h]
  · exact .absolute hinner
  · exact .relative hinner
  · exact .relative hinner

theorem keyed_below (root p : Path) : Keyed (below root p) := by
  by_cases h : root.components <+: p.components
  · obtain ⟨rest, hrest⟩ := h
    rw [below_of_append hrest.symm]
    by_cases hroot : root.components = []
    · rw [hroot, List.nil_append] at hrest
      exact hrest ▸ keyed_components p
    · have hinner : ∀ c ∈ rest, Inner c := fun c hc =>
        inner_of_mem ((suffix_inner hrest.symm hroot).subset hc)
      rw [filter_inner hinner]
      exact .relative hinner
  · rw [below_of_outside h]
    exact keyed_components p

/-! ## Building a key -/

theorem extendKey_inner (h : Inner c) (key : List Char) :
    extendKey key c = extendKey.separated key ++ spelling c := by
  cases c with
  | root => exact absurd rfl h.notEmpty
  | here => exact absurd rfl h.notHere
  | up | name => rfl

/-- A slash follows a component before the next one. -/
theorem separated_append (h : Inner c) (key : List Char) :
    extendKey.separated (key ++ spelling c) = key ++ spelling c ++ ['/'] := by
  have hlast : (key ++ spelling c).getLast? ≠ some '/' := by
    rw [List.getLast?_append_of_ne_nil _ h.notEmpty]
    exact fun hmem => h.plain (List.mem_of_mem_getLast? hmem)
  have hne : (key ++ spelling c).isEmpty = false := by simp [h.notEmpty]
  rw [extendKey.separated, hne, if_neg]
  simpa only [Bool.false_or, beq_iff_eq] using hlast

/-- After a first component, the others follow with a slash before each. -/
theorem foldl_inner (key : List Char) (hc : Inner c) (hcs : ∀ c ∈ cs, Inner c) :
    cs.foldl extendKey (key ++ spelling c) =
      key ++ ['/'].intercalate ((c :: cs).map spelling) := by
  -- the text so far always ends in a component, the last one that is written
  induction cs generalizing key c with
  | nil => simp [List.intercalate]
  | cons d cs ih =>
    rw [List.forall_mem_cons] at hcs
    rw [List.foldl_cons, extendKey_inner hcs.1, separated_append hc, ih _ hcs.1 hcs.2]
    simp only [List.map_cons, List.intercalate_cons_cons, List.append_assoc]

theorem foldl_extendKey (h : Keyed cs) : cs.foldl extendKey [] = (ofComponents cs).text.toList := by
  cases h with
  | relative h =>
    rw [text_relative h]
    cases cs with
    | nil => rfl
    | cons c cs =>
      rw [List.forall_mem_cons] at h
      rw [List.foldl_cons, extendKey_inner h.1]
      exact foldl_inner [] h.1 h.2
  | @absolute cs h =>
    rw [text_absolute]
    cases cs with
    | nil => rfl
    | cons c cs =>
      rw [List.forall_mem_cons] at h
      rw [List.foldl_cons, List.foldl_cons, extendKey_inner h.1]
      exact foldl_inner ['/'] h.1 h.2

theorem foldl_filter (cs : List Component) (key : List Char) :
    (cs.filter (· ≠ .here)).foldl extendKey key = cs.foldl extendKey key := by
  induction cs generalizing key with
  | nil => rfl
  | cons c cs ih =>
    by_cases hc : c = .here
    · subst hc
      exact ih key
    · rw [List.filter_cons_of_pos (by simpa using hc), List.foldl_cons, List.foldl_cons, ih]

theorem key_below {rest : List Component} (h : p.components = root.components ++ rest) :
    (root.key p).toList = rest.foldl extendKey [] := by
  have hdrop : dropStart? root.components p.components = some rest := dropStart?_eq_some.2 h
  simp only [key, hdrop, Option.getD_some, String.toList_ofList]

theorem key_outside (h : ¬ root.components <+: p.components) :
    (root.key p).toList = p.components.foldl extendKey [] := by
  have hdrop : dropStart? root.components p.components = none := by
    rw [← Option.not_isSome_iff_eq_none, isSome_dropStart?]
    exact h
  simp only [key, hdrop, Option.getD_none, String.toList_ofList]

/-- **A key is the text of the components below the root.** -/
theorem key_eq (root p : Path) : root.key p = (ofComponents (below root p)).text := by
  apply String.toList_injective
  rw [← foldl_extendKey (keyed_below root p)]
  by_cases h : root.components <+: p.components
  · obtain ⟨rest, hrest⟩ := h
    rw [key_below hrest.symm, below_of_append hrest.symm, foldl_filter]
  · rw [key_outside h, below_of_outside h, foldl_filter]

/-! ## What a key tells -/

/-- Components of a key tell its text. -/
theorem ofComponents_inj {cs cs' : List Component} (h : Keyed cs) (h' : Keyed cs')
    (htext : (ofComponents cs).text = (ofComponents cs').text) : cs = cs' := by
  rw [← components_ofComponents h, ← components_ofComponents h', components, components, isAbsolute,
    isAbsolute, htext]

theorem key_eq_iff : root.key p = root.key q ↔ below root p = below root q := by
  rw [key_eq, key_eq]
  constructor
  · exact ofComponents_inj (keyed_below root p) (keyed_below root q)
  · intro h
    rw [h]

theorem filter_keyed (h : Keyed cs) : cs.filter (· ≠ .here) = cs := by
  cases h with
  | relative h => exact filter_inner h
  | absolute h => rw [List.filter_cons_of_pos (by decide), filter_inner h]

/-- What stands below no root are all components. -/
theorem below_empty (p : Path) : below ⟨""⟩ p = p.components.filter (· ≠ .here) := by
  have hempty : (Path.mk "").components = [] := rfl
  exact below_of_append (by rw [hempty, List.nil_append])

/-- A key is its own key. -/
theorem key_key (root p : Path) : Path.key ⟨""⟩ ⟨root.key p⟩ = root.key p := by
  have hkeyed := keyed_below root p
  have hcomponents : below ⟨""⟩ ⟨root.key p⟩ = below root p := by
    rw [below_empty, key_eq, components_ofComponents hkeyed, filter_keyed hkeyed]
  rw [key_eq, hcomponents, key_eq]

/-- What is joined to a root has its own components below it. -/
theorem below_join (root : Path) (h : q.isAbsolute = false) :
    below root (root.join q) = q.components.filter (· ≠ .here) := by
  obtain ⟨rest, hrest, hsame⟩ := exists_components_join root h
  rw [below_of_append hrest]
  rcases hsame with rfl | rfl
  · rfl
  · rw [components_eq, List.filter_append]
    rcases leading_cases q with ⟨-, habsolute⟩ | ⟨hq | hq, -⟩
    · rw [h] at habsolute
      cases habsolute
    · rw [hq]
      rfl
    · rw [hq]
      rfl

/-! ## How a key is written -/

/-- A key without the slash that an absolute one starts with. -/
def unrooted : List Char → List Char
  | '/' :: key => key
  | key => key

/-- But for a first slash, a text has no empty part, no single dot between slashes and no slash at
its end. -/
structure Tidy (key : List Char) : Prop where
  parts : unrooted key ≠ [] → ∀ s ∈ pieces (unrooted key), s ≠ [] ∧ s ≠ ['.']
  last : (unrooted key).getLast? ≠ some '/'

theorem unrooted_of_head? (h : key.head? ≠ some '/') : unrooted key = key := by
  cases key with
  | nil => rfl
  | cons c key =>
    rw [unrooted]
    intro rest hkey
    exact h (by rw [hkey]; rfl)

/-- An empty part stands after a last slash. -/
theorem last_of_pieces {text : List Char} (h : text ≠ [] → ∀ s ∈ pieces text, s ≠ []) :
    text.getLast? ≠ some '/' := by
  intro hlast
  obtain ⟨front, rfl⟩ := List.getLast?_eq_some_iff.1 hlast
  refine h (by simp) [] ?_ rfl
  rw [pieces_append]
  exact List.mem_append_right _ (List.mem_singleton.2 rfl)

theorem tidy_of_unrooted (h : ∀ c ∈ cs, Inner c)
    (hkey : unrooted key = ['/'].intercalate (cs.map spelling)) : Tidy key := by
  have hparts : unrooted key ≠ [] → ∀ s ∈ pieces (unrooted key), s ≠ [] ∧ s ≠ ['.'] := by
    rw [hkey]
    intro hne
    have hcs : cs ≠ [] := by
      rintro rfl
      exact hne rfl
    rw [pieces_text hcs h, List.forall_mem_map]
    exact fun c hc => ⟨(h c hc).notEmpty, (h c hc).notHere⟩
  exact ⟨hparts, last_of_pieces fun hne s hs => (hparts hne s hs).1⟩

theorem tidy_text (h : Keyed cs) : Tidy (ofComponents cs).text.toList := by
  cases h with
  | relative h =>
    have hhead : (ofComponents cs).text.toList.head? ≠ some '/' := by
      simpa [isAbsolute] using isAbsolute_relative h
    exact tidy_of_unrooted h (by rw [unrooted_of_head? hhead, text_relative h])
  | absolute h => exact tidy_of_unrooted h (by rw [text_absolute]; rfl)

/-- A key is absolute if the root is among the components that it tells. -/
theorem head?_key_eq_iff (root p : Path) :
    (root.key p).toList.head? = some '/' ↔ .root ∈ below root p := by
  rw [← components_ofComponents (keyed_below root p), mem_root_iff, key_eq, isAbsolute, beq_iff_eq]

/-- **Keys do not depend on the root and tell the components below it**: what is joined to a root
has one key below every root, two paths have one key exactly if they have the same components below
the root, and a key has no more to it than its components, so it is its own key. -/
theorem key_canonical (root root' p p' : Path) :
    (∀ q : Path, q.isAbsolute = false →
      root.key (root.join q) = root'.key (root'.join q)) ∧
    (root.key p = root.key p' ↔ below root p = below root p') ∧
    ((root.key p).toList.head? = some '/' ↔ .root ∈ below root p) ∧
    Tidy (root.key p).toList ∧ Path.key ⟨""⟩ ⟨root.key p⟩ = root.key p := by
  refine ⟨fun q hq => ?_, key_eq_iff, head?_key_eq_iff root p, ?_, key_key root p⟩
  · rw [key_eq, key_eq, below_join root hq, below_join root' hq]
  · rw [key_eq]
    exact tidy_text (keyed_below root p)

/-- A path with single dots, a step up and slashes too many, below a root of one dot and below an
absolute one that ends in a slash. -/
theorem key_canonical_dots :
    let q : Path := ⟨"./a//b/../c/."⟩
    let root : Path := ⟨"."⟩
    let root' : Path := ⟨"/repo//x/"⟩
    q.isAbsolute = false ∧ root.key (root.join q) = root'.key (root'.join q) ∧
      root.key (root.join q) = "a/b/../c" := by
  intro q root root'
  have hq : q.isAbsolute = false := by decide
  exact ⟨hq, (key_canonical root root' q q).1 q hq, by decide +kernel⟩

end AnalysisGate.Path
