import AnalysisGate.Proofs.PathKeys
import AnalysisGate.Proofs.Workspace.Directories
import Mathlib

/-!
Spellings of one path.

Paths that are spelled differently can have the same names: slashes are repeated, or single dots
are put between the names. A key tells the names of a path below its root, and whether it is
absolute (`spelled_of_key`), so of the paths below a root, and of those that are absolute, those
with one key lead to one place wherever they lead (`Respelled.placeOf_unique`). One of them may
still lead nowhere while the other does: a last dot or slash asks for a directory, and a text can be
too long. Without either they are looked at alike (`Respelled.locate_eq`).
-/
namespace AnalysisGate

namespace Path

variable {p p' root : Path} {cs cs' rest : List Component}

/-! ## Names -/

/-- The names among components, a step up included. -/
def names (cs : List Component) : List String :=
  (cs.filter fun c => c ≠ .root ∧ c ≠ .here).map ofComponents.name

theorem names_append : names (cs ++ cs') = names cs ++ names cs' := by
  rw [names, names, names, List.filter_append, List.map_append]

theorem names_filter (cs : List Component) : names (cs.filter (· ≠ .here)) = names cs := by
  rw [names, names, List.filter_filter]
  simp

/-- The parts of a text between its slashes. -/
def parts (cs : List Char) : List String := ((pieces cs).filter (· ≠ [])).map String.ofList

theorem filter_steps (text : String) : (Workspace.steps text).filter (· ≠ ".") =
    (parts text.toList).filter (· ≠ ".") := by
  rw [Workspace.steps, parts]
  split
  · rw [List.filter_append]
    simp
  · rfl

/-- The steps that lead anywhere are the names. -/
theorem names_components (p : Path) :
    names p.components = (Workspace.steps p.text).filter (· ≠ ".") := by
  have hinner : names (inner p.text.toList) = (parts p.text.toList).filter (· ≠ ".") := by
    have hall : (inner p.text.toList).filter (fun c => c ≠ .root ∧ c ≠ .here) =
        inner p.text.toList := by
      rw [List.filter_eq_self]
      intro c hc
      have hc := inner_of_mem hc
      exact decide_eq_true ⟨hc.ne_root, hc.ne_here⟩
    rw [names, hall]
    exact map_name_components _
  rw [components_eq, names_append, hinner, filter_steps]
  rcases leading_cases p with ⟨h, -⟩ | ⟨h | h, -⟩ <;> rw [h] <;> rfl

/-! ## Paths that a root is joined to -/

/-- A path as a root is joined to it: it is absolute, or it starts with the root. -/
def Anchored (root p : Path) : Prop := p.isAbsolute = true ∨ root.components <+: p.components

theorem Anchored.refl (root : Path) : Anchored root root := .inr List.prefix_rfl

theorem Anchored.join (h : Anchored root p) (q : Path) : Anchored root (p.join q) := by
  cases hq : q.isAbsolute with
  | true =>
    left
    rw [Path.join, if_pos hq]
    exact hq
  | false =>
    have hstarts := components_prefix_join p hq
    rcases h with h | h
    · exact .inl ((mem_root_iff _).1 (hstarts.subset ((mem_root_iff p).2 h)))
    · exact .inr (h.trans hstarts)

theorem mem_root_filter (cs : List Component) :
    .root ∈ cs.filter (· ≠ .here) ↔ .root ∈ cs := by simp

/-- A path that does not start with the root is absolute, and what is below the root is not. -/
theorem below_ne (hp' : Anchored root p') (hstart : root.components <+: p.components)
    (hout : ¬ root.components <+: p'.components) : below root p ≠ below root p' := by
  obtain ⟨rest, hrest⟩ := hstart
  have hroot : root.components ≠ [] := fun hnil => hout (hnil ▸ List.nil_prefix)
  rw [below_of_append hrest.symm, below_of_outside hout]
  intro h
  have hmem := (mem_root_iff p').2 (hp'.resolve_right hout)
  rw [← mem_root_filter, ← h, mem_root_filter] at hmem
  exact root_not_mem hrest.symm hroot hmem

/-- **A key tells the names of a path and whether it is absolute**, of the paths that a root is
joined to. -/
theorem spelled_of_key (hp : Anchored root p) (hp' : Anchored root p')
    (h : root.key p = root.key p') :
    names p.components = names p'.components ∧ p.isAbsolute = p'.isAbsolute := by
  have hbelow := key_eq_iff.1 h
  by_cases hstart : root.components <+: p.components
  · by_cases hstart' : root.components <+: p'.components
    · obtain ⟨rest, hrest⟩ := hstart
      obtain ⟨rest', hrest'⟩ := hstart'
      rw [below_of_append hrest.symm, below_of_append hrest'.symm] at hbelow
      have hnames : names rest = names rest' := by rw [← names_filter, hbelow, names_filter]
      have hroot : .root ∈ rest ↔ .root ∈ rest' := by
        rw [← mem_root_filter, hbelow, mem_root_filter]
      rw [Bool.eq_iff_iff, ← mem_root_iff, ← mem_root_iff, ← hrest, ← hrest', names_append,
        names_append, List.mem_append, List.mem_append, hnames, hroot]
      exact ⟨rfl, Iff.rfl⟩
    · exact absurd hbelow (below_ne hp' hstart hstart')
  · by_cases hstart' : root.components <+: p'.components
    · exact absurd hbelow.symm (below_ne hp hstart' hstart)
    · rw [below_of_outside hstart, below_of_outside hstart'] at hbelow
      refine ⟨?_, (hp.resolve_right hstart).trans (hp'.resolve_right hstart').symm⟩
      rw [← names_filter, hbelow, names_filter]

end Path

namespace Workspace

variable {w : Workspace} {follow : Bool} {links : Nat} {place x x' : Place}
  {before steps rest : List String} {p p' : Path}

/-! ## Places -/

/-- Two spellings have the same names, from the same place. -/
structure Respelled (p p' : Path) : Prop where
  names : Path.names p.components = Path.names p'.components
  absolute : p.isAbsolute = p'.isAbsolute

/-- Of the paths that a root is joined to, those with one key are spellings of one. -/
theorem Respelled.of_key {root : Path} (hp : Path.Anchored root p) (hp' : Path.Anchored root p')
    (h : root.key p = root.key p') : Respelled p p' :=
  have hspelled := Path.spelled_of_key hp hp' h
  ⟨hspelled.1, hspelled.2⟩

theorem Respelled.start (h : Respelled p p') (w : Workspace) : w.start p = w.start p' := by
  rw [Workspace.start, Workspace.start, h.absolute]

/-- **Two spellings lead to one place, wherever they lead.** -/
theorem Respelled.placeOf_unique (h : Respelled p p') (hx : w.placeOf p = .ok x)
    (hx' : w.placeOf p' = .ok x') : x = x' := by
  obtain ⟨-, n, -, hway⟩ := locate_eq_ok.1 (placeOf_eq_ok.1 hx)
  obtain ⟨-, n', -, hway'⟩ := locate_eq_ok.1 (placeOf_eq_ok.1 hx')
  have hnames := hway.without_here
  have hnames' := hway'.without_here
  rw [← Path.names_components, h.names, h.start] at hnames
  rw [← Path.names_components] at hnames'
  exact Target.found.inj (hnames.unique hnames').2

/-! ## Plain spellings -/

theorem walk_of_leaf (hdir : w.isDirectoryAt place = false) (hsteps : steps ≠ []) :
    w.walk follow links place steps = .error .notDirectory := by
  obtain ⟨step, steps, rfl⟩ := List.exists_cons_of_ne_nil hsteps
  rw [walk]
  simp [hdir]

theorem walk_here (hdir : w.isDirectoryAt place = true) :
    w.walk follow links place ("." :: rest) = w.walk follow links place rest := by
  rw [walk]
  simp [hdir]

/-- Steps that lead to the same from everywhere do so after one more step. -/
theorem walk_cons_congr {step : String} {a b : List String} (hempty : a.isEmpty = b.isEmpty)
    (hwalk : ∀ place, w.walk follow links place a = w.walk follow links place b)
    (hlink : ∀ links', links = links' + 1 → ∀ place target,
      w.walk follow links' place (Workspace.steps target ++ a) =
        w.walk follow links' place (Workspace.steps target ++ b)) :
    w.walk follow links place (step :: a) = w.walk follow links place (step :: b) := by
  cases links with
  | zero =>
    rw [walk, walk]
    simp only [hwalk, hempty]
  | succ links =>
    rw [walk, walk]
    simp only [hwalk, hempty, hlink links rfl]

/-- A step that leads nowhere changes nothing before another one. -/
theorem walk_without_here (hrest : rest ≠ []) :
    w.walk follow links place (before ++ "." :: rest) =
      w.walk follow links place (before ++ rest) := by
  -- a link costs one of the links, and puts its own steps before the others
  induction links using Nat.strong_induction_on generalizing place before with
  | _ links ihlinks =>
    induction before generalizing place with
    | nil =>
      cases hdir : w.isDirectoryAt place with
      | false => rw [walk_of_leaf hdir (by simp), walk_of_leaf hdir (by simpa using hrest)]
      | true => exact walk_here hdir
    | cons step before ih =>
      rw [List.cons_append, List.cons_append]
      apply walk_cons_congr
      · rw [Bool.eq_iff_iff]
        simp [hrest]
      · intro place
        exact ih
      · rintro links' rfl place target
        rw [← List.append_assoc, ← List.append_assoc]
        exact ihlinks links' (Nat.lt_succ_self _)

/-- Only a last step that leads nowhere asks for a directory. -/
theorem walk_filter (before : List String) (hlast : steps.getLast? ≠ some ".") :
    w.walk follow links place (before ++ steps) =
      w.walk follow links place (before ++ steps.filter (· ≠ ".")) := by
  induction steps generalizing before with
  | nil => rfl
  | cons step steps ih =>
    by_cases hsteps : steps = []
    · subst hsteps
      have hstep : step ≠ "." := by simpa using hlast
      simp [hstep]
    · have hlast' : steps.getLast? ≠ some "." := by
        rwa [List.getLast?_cons_of_ne_nil hsteps] at hlast
      by_cases hstep : step = "."
      · subst hstep
        rw [walk_without_here hsteps, ih before hlast']
        simp
      · have hfilter : (step :: steps).filter (· ≠ ".") = step :: steps.filter (· ≠ ".") := by
          simp [hstep]
        have hnext := ih (before ++ [step]) hlast'
        rw [hfilter]
        simpa using hnext

/-- A path that is spelled plainly: its last step is a name or a step up, and it is not too long. -/
structure Plain (p : Path) : Prop where
  last : (Workspace.steps p.text).getLast? ≠ some "."
  short : p.text.utf8ByteSize < pathLimit

theorem mem_iff_pieces {cs : List Char} {c : Char} (hc : c ≠ '/') :
    c ∈ cs ↔ ∃ s ∈ Path.pieces cs, c ∈ s := by
  induction cs with
  | nil => simp [Path.pieces]
  | cons a cs ih =>
    rw [Path.pieces]
    split
    · next ha =>
      subst ha
      simp [hc, ih]
    · obtain ⟨s, ss, hs⟩ := List.exists_cons_of_ne_nil (Path.pieces_ne_nil cs)
      rw [hs] at ih ⊢
      simp [ih, or_assoc]

/-- A character that can only be in a name is in a text exactly if it is in one of its names. -/
theorem mem_text_iff {c : Char} (hslash : c ≠ '/') (hdot : c ≠ '.') :
    c ∈ p.text.toList ↔ ∃ s ∈ Path.names p.components, c ∈ s.toList := by
  rw [mem_iff_pieces hslash, Path.names_components, Path.filter_steps]
  constructor
  · rintro ⟨s, hs, hc⟩
    have hne : s ≠ [] := List.ne_nil_of_mem hc
    have hhere : String.ofList s ≠ "." := by
      intro heq
      obtain rfl : s = ['.'] := String.ofList_injective heq
      exact hdot (List.mem_singleton.1 hc)
    have hpart : String.ofList s ∈ Path.parts p.text.toList :=
      List.mem_map_of_mem (List.mem_filter.2 ⟨hs, by simpa using hne⟩)
    exact ⟨String.ofList s, List.mem_filter.2 ⟨hpart, by simpa using hhere⟩,
      by rwa [String.toList_ofList]⟩
  · rintro ⟨name, hname, hc⟩
    obtain ⟨s, hs, rfl⟩ := List.mem_map.1 (List.mem_filter.1 hname).1
    exact ⟨s, (List.mem_filter.1 hs).1, by rwa [String.toList_ofList] at hc⟩

theorem checkText_eq (h : Respelled p p') (hp : Plain p) (hp' : Plain p') :
    checkText p.text = checkText p'.text := by
  have hempty {p : Path} (hp : Plain p) : p.text.isEmpty = false := by
    rw [String.isEmpty_eq_false_iff]
    intro hnil
    exact hp.last (by rw [hnil]; decide)
  have hnul : p.text.toList.contains '\x00' = p'.text.toList.contains '\x00' := by
    rw [Bool.eq_iff_iff, List.contains_iff_mem, List.contains_iff_mem,
      mem_text_iff (by decide) (by decide), mem_text_iff (by decide) (by decide), h.names]
  rw [checkText, checkText, hnul, hempty hp, hempty hp', if_neg (Nat.not_le.2 hp.short),
    if_neg (Nat.not_le.2 hp'.short)]

/-- **Plain spellings are looked at alike.** -/
theorem Respelled.locate_eq (h : Respelled p p') (hp : Plain p) (hp' : Plain p') :
    w.locate follow p = w.locate follow p' := by
  have hwalk {p : Path} (hp : Plain p) (links : Nat) (place : Place) :
      w.walk follow links place (Workspace.steps p.text) =
        w.walk follow links place (Path.names p.components) := by
    rw [Path.names_components]
    exact walk_filter [] hp.last
  rw [locate, locate, locateSteps, locateSteps, checkText_eq h hp hp', hwalk hp, hwalk hp',
    h.names, h.absolute]

end Workspace

end AnalysisGate
