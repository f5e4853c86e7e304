import AnalysisGate.Proofs.Workspace.Temporary
import Mathlib

/-!
Components of paths.

What a path has between its slashes are steps up and names, and before them it has the root, or one
single dot, or nothing. What is joined to a path comes after its components
(`Path.exists_components_join`), and components that are written with a slash between them are read
again (`Path.components_ofComponents`).
-/
namespace AnalysisGate.Path

variable {c : Component} {cs : List Component} {p q : Path}

/-! ## Between slashes -/

/-- The components of the pieces of a text. -/
def inner (cs : List Char) : List Component := (pieces cs).filterMap component?

theorem inner_append (a b : List Char) : inner (a ++ '/' :: b) = inner a ++ inner b := by
  rw [inner, pieces_append, List.filterMap_append]
  rfl

/-- How a component is spelled between slashes. -/
def spelling (c : Component) : List Char := (ofComponents.name c).toList

/-- A component that can stand between slashes: its spelling is read as the component. -/
structure Inner (c : Component) : Prop where
  read : component? (spelling c) = some c
  plain : '/' ∉ spelling c

theorem Inner.notEmpty (h : Inner c) : spelling c ≠ [] := by
  intro hnil
  have hread := h.read
  rw [hnil] at hread
  cases hread

theorem Inner.notHere (h : Inner c) : spelling c ≠ ['.'] := by
  intro hhere
  have hread := h.read
  rw [hhere] at hread
  cases hread

theorem Inner.ne_root (h : Inner c) : c ≠ .root := by
  rintro rfl
  exact h.notEmpty rfl

theorem Inner.ne_here (h : Inner c) : c ≠ .here := by
  rintro rfl
  exact h.notHere rfl

/-- What is read of a piece is spelled as the piece. -/
theorem spelling_of_component? {s : List Char} (h : component? s = some c) : spelling c = s := by
  rw [component?] at h
  split at h
  · cases h
  · split at h
    · next hup =>
      cases h
      exact hup.symm
    · cases h
      exact String.toList_ofList

theorem inner_of_mem {text : List Char} (h : c ∈ inner text) : Inner c := by
  obtain ⟨s, hs, hc⟩ := List.mem_filterMap.1 h
  have hspelling := spelling_of_component? hc
  exact ⟨by rwa [hspelling], hspelling ▸ plain_of_mem_pieces s hs⟩

/-- Components between slashes are read of their spellings. -/
theorem filterMap_spelling (h : ∀ c ∈ cs, Inner c) :
    (cs.map spelling).filterMap component? = cs := by
  induction cs with
  | nil => rfl
  | cons c cs ih =>
    rw [List.forall_mem_cons] at h
    rw [List.map_cons, List.filterMap_cons_some h.1.read, ih h.2]

theorem not_mem_root_of_inner (h : ∀ c ∈ cs, Inner c) : Component.root ∉ cs :=
  fun hmem => (h _ hmem).ne_root rfl

theorem filter_inner (h : ∀ c ∈ cs, Inner c) : cs.filter (· ≠ .here) = cs := by
  rw [List.filter_eq_self]
  intro c hc
  exact decide_eq_true (h c hc).ne_here

/-! ## Before the first slash -/

/-- The components of a text that are no steps. -/
def leading (p : Path) : List Component :=
  if p.isAbsolute then [.root]
  else if (pieces p.text.toList).head? = some ['.'] then [.here] else []

theorem components_eq (p : Path) : p.components = leading p ++ inner p.text.toList := rfl

theorem leading_cases (p : Path) : leading p = [.root] ∧ p.isAbsolute = true ∨
    (leading p = [.here] ∨ leading p = []) ∧ p.isAbsolute = false := by
  rw [leading]
  cases p.isAbsolute with
  | true => exact .inl ⟨rfl, rfl⟩
  | false =>
    rw [if_neg Bool.false_ne_true]
    by_cases hhere : (pieces p.text.toList).head? = some ['.']
    · exact .inr ⟨.inl (if_pos hhere), rfl⟩
    · exact .inr ⟨.inr (if_neg hhere), rfl⟩

/-- What follows a slash has no part in the start of a path. -/
theorem leading_append (a b : List Char) (ha : a ≠ []) :
    leading ⟨String.ofList (a ++ '/' :: b)⟩ = leading ⟨String.ofList a⟩ := by
  obtain ⟨c, a, rfl⟩ := List.exists_cons_of_ne_nil ha
  have habsolute : (Path.mk (String.ofList (c :: a ++ '/' :: b))).isAbsolute =
      (Path.mk (String.ofList (c :: a))).isAbsolute := by
    simp [isAbsolute]
  have hhead : (pieces (c :: a ++ '/' :: b)).head? = (pieces (c :: a)).head? := by
    rw [pieces_append, List.head?_append_of_ne_nil _ (pieces_ne_nil _)]
  rw [leading, leading, habsolute]
  simp only [String.toList_ofList, hhead]

/-- A path is absolute if the root is among its components. -/
theorem mem_root_iff (p : Path) : .root ∈ p.components ↔ p.isAbsolute = true := by
  rw [components_eq, List.mem_append, or_iff_left (not_mem_root_of_inner fun c => inner_of_mem)]
  rcases leading_cases p with ⟨h, habsolute⟩ | ⟨h | h, habsolute⟩ <;> simp [h, habsolute]

/-- What comes after a first component stands between slashes. -/
theorem suffix_inner {rest : List Component} (h : p.components = cs ++ rest) (hcs : cs ≠ []) :
    rest <:+ inner p.text.toList := by
  obtain ⟨c, cs, rfl⟩ := List.exists_cons_of_ne_nil hcs
  rw [components_eq] at h
  rcases leading_cases p with ⟨hp, -⟩ | ⟨hp | hp, -⟩
  · rw [hp] at h
    exact ⟨cs, (List.cons.inj h).2.symm⟩
  · rw [hp] at h
    exact ⟨cs, (List.cons.inj h).2.symm⟩
  · rw [hp] at h
    exact ⟨c :: cs, h.symm⟩

/-- The root is the first component or none. -/
theorem root_not_mem {rest : List Component} (h : p.components = cs ++ rest) (hcs : cs ≠ []) :
    .root ∉ rest :=
  not_mem_root_of_inner fun _ hc => inner_of_mem ((suffix_inner h hcs).subset hc)

theorem components_of_absolute (h : p.isAbsolute = true) :
    p.components = .root :: inner p.text.toList := by
  rw [components_eq, leading, if_pos h]
  rfl

/-! ## Joined paths -/

theorem components_slash {a : List Char} (ha : a ≠ []) (b : List Char) :
    (Path.mk (String.ofList (a ++ '/' :: b))).components =
      (Path.mk (String.ofList a)).components ++ inner b := by
  rw [components_eq, components_eq, leading_append a b ha]
  simp only [String.toList_ofList, inner_append, List.append_assoc]

/-- What follows a last slash is added to the components. -/
theorem components_slash_append (a b : List Char) :
    (Path.mk (String.ofList (a ++ '/' :: b))).components =
      (Path.mk (String.ofList (a ++ ['/']))).components ++ inner b := by
  by_cases ha : a = []
  · subst ha
    have habsolute (b : List Char) : (Path.mk (String.ofList ('/' :: b))).isAbsolute = true := by
      simp [isAbsolute]
    rw [List.nil_append, List.nil_append, components_of_absolute (habsolute b),
      components_of_absolute (habsolute [])]
    simp only [String.toList_ofList, List.cons_append]
    exact congrArg (Component.root :: ·) (inner_append [] b)
  · rw [components_slash ha, components_slash ha, List.append_assoc]
    rfl

/-- What is joined to a path comes after it, unless it is absolute, up to a single dot that it
starts with. -/
theorem exists_components_join (base : Path) (h : q.isAbsolute = false) :
    ∃ rest, (base.join q).components = base.components ++ rest ∧
      (rest = q.components ∨ rest = inner q.text.toList) := by
  rw [join, if_neg (by simp [h])]
  split
  · next hend =>
    rcases List.eq_nil_or_concat base.text.toList with hnil | ⟨a, c, ha⟩
    · have hempty : base.components = [] := by
        rw [components, isAbsolute, hnil]
        rfl
      have htext : base.text ++ q.text = q.text := by
        rw [String.toList_eq_nil_iff.1 hnil, String.empty_append]
      exact ⟨q.components, by rw [htext, hempty]; rfl, .inl rfl⟩
    · -- the slash is there already
      obtain rfl : c = '/' := by
        simpa [ha, ← String.toList_eq_nil_iff] using hend
      have hbase : base = ⟨String.ofList (a ++ ['/'])⟩ := by
        rw [← List.concat_eq_append, ← ha, String.ofList_toList]
      have htext : base.text ++ q.text = String.ofList (a ++ '/' :: q.text.toList) := by
        apply String.toList_inj.1
        rw [String.toList_append, ha, String.toList_ofList, List.concat_eq_append,
          List.append_assoc]
        rfl
      exact ⟨_, by rw [htext, components_slash_append, ← hbase], .inr rfl⟩
  · next hend =>
    have hne : base.text.toList ≠ [] := by
      intro hnil
      simp [String.toList_eq_nil_iff.1 hnil] at hend
    have htext : base.text ++ "/" ++ q.text =
        String.ofList (base.text.toList ++ '/' :: q.text.toList) := by
      apply String.toList_inj.1
      simp
    exact ⟨_, by rw [htext, components_slash hne, String.ofList_toList], .inr rfl⟩

/-- What is joined to a path starts with it, unless it is absolute. -/
theorem components_prefix_join (base : Path) (h : q.isAbsolute = false) :
    base.components <+: (base.join q).components := by
  obtain ⟨rest, hrest, -⟩ := exists_components_join base h
  exact hrest ▸ List.prefix_append _ _

/-! ## Written components -/

/-- Components without single dots: the root is the first or none. -/
inductive Keyed : List Component → Prop
  | relative {cs : List Component} (h : ∀ c ∈ cs, Inner c) : Keyed cs
  | absolute {cs : List Component} (h : ∀ c ∈ cs, Inner c) : Keyed (.root :: cs)

theorem text_relative (h : ∀ c ∈ cs, Inner c) :
    (ofComponents cs).text.toList = ['/'].intercalate (cs.map spelling) := by
  rw [ofComponents_of_relative (not_mem_root_of_inner h), String.toList_intercalate, List.map_map]
  rfl

theorem isAbsolute_relative (h : ∀ c ∈ cs, Inner c) : (ofComponents cs).isAbsolute = false := by
  have hsteps : ∀ s ∈ cs.map ofComponents.name, IsStep s := by
    rw [List.forall_mem_map]
    exact fun c hc => ⟨(h c hc).notEmpty, (h c hc).plain⟩
  exact (relative_of_steps (not_mem_root_of_inner h) hsteps).1

theorem text_absolute (cs : List Component) :
    (ofComponents (.root :: cs)).text.toList = '/' :: ['/'].intercalate (cs.map spelling) := by
  rw [ofComponents, String.toList_append, String.toList_intercalate, List.map_map]
  rfl

/-- The pieces of a text of components are their spellings, if there is one. -/
theorem pieces_text (hcs : cs ≠ []) (h : ∀ c ∈ cs, Inner c) :
    pieces (['/'].intercalate (cs.map spelling)) = cs.map spelling := by
  refine pieces_intercalate (by simpa using hcs) ?_
  rw [List.forall_mem_map]
  exact fun c hc => (h c hc).plain

theorem inner_text (h : ∀ c ∈ cs, Inner c) :
    inner (['/'].intercalate (cs.map spelling)) = cs := by
  by_cases hcs : cs = []
  · rw [hcs]
    rfl
  · rw [inner, pieces_text hcs h, filterMap_spelling h]

/-- **The components of a key are read of its text.** -/
theorem components_ofComponents (h : Keyed cs) : (ofComponents cs).components = cs := by
  cases h with
  | @absolute cs h =>
    have habsolute : (ofComponents (.root :: cs)).isAbsolute = true := by
      rw [isAbsolute, text_absolute]
      rfl
    rw [components_of_absolute habsolute, text_absolute]
    -- nothing stands before the slash of the root
    exact congrArg (Component.root :: ·) ((inner_append [] _).trans (inner_text h))
  | relative h =>
    cases cs with
    | nil => rfl
    | cons c rest =>
      have hc := h c List.mem_cons_self
      have hpieces := pieces_text (List.cons_ne_nil c rest) h
      rw [← text_relative h] at hpieces
      have hleading : leading (ofComponents (c :: rest)) = [] := by
        rw [leading, isAbsolute_relative h, hpieces]
        simpa using hc.notHere
      rw [components_eq, hleading, text_relative h, inner_text h]
      rfl

end AnalysisGate.Path
