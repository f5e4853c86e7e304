import AnalysisGate.Proofs.Workspace.Reading
import Mathlib

/-!
Directories that are there.

Making a directory makes it be there (`made_of_makeDirectories`), and one that is there
already is made by leaving the tree as it is (`Made.makeDirectories`). No directory gets
lost when entries are added or replaced, nor when a file replaces its sibling (`Made.rename`).
-/
namespace AnalysisGate.Workspace

variable {w w' : Workspace} {place directory x y z : Place} {names rest : List String}
  {dirs : List String} {name a b : String} {n k : Nat} {p q directoryPath : Path} {t : Target}

/-! ## Steps with and without a last `.` -/

theorem steps_eq (p : Path) :
    steps p.text = plainSteps p ∨ steps p.text = plainSteps p ++ ["."] := by
  rw [steps, plainSteps]
  split
  · exact .inr rfl
  · exact .inl rfl

/-- Steps that lead nowhere else can be left out. -/
theorem Leads.without_here {names : List String} : ∀ {place : Place} {n : Nat},
    w.Leads place names n (.found x) → w.Leads place (names.filter (· ≠ ".")) n (.found x) := by
  induction names with
  | nil => exact id
  | cons name rest ih =>
    intro place n hway
    have hjoined : w.Leads place ([name] ++ rest) n (.found x) := hway
    by_cases hrest : rest = []
    · subst hrest
      by_cases hname : name = "."
      · subst hname
        cases hway with
        | here _ _ hend => simpa using hend
        | up _ hstep => exact absurd hstep (by decide)
        | enter _ hname | follow _ hname => exact absurd rfl hname.notHere
      · simpa [hname] using hway
    · obtain ⟨q, m, k, hfirst, hlast, rfl⟩ := hjoined.split hrest
      by_cases hname : name = "."
      · subst hname
        cases hfirst with
        | here _ _ hend =>
          cases hend
          simpa using ih hlast
        | up _ hstep => exact absurd hstep (by decide)
        | enter _ hname | follow _ hname => exact absurd rfl hname.notHere
      · simpa [hname] using hfirst.append (ih hlast)

/-- Whether a path is a directory depends on its names only. -/
theorem isDirectory_iff : w.isDirectory p = true ↔
    checkText p.text = .ok () ∧ ∃ n ≤ linkLimit, ∃ x,
      w.Leads (w.start p) (plainSteps p) n (.found x) ∧ w.isDirectoryAt x = true := by
  rw [isDirectory_iff_placeOf]
  constructor
  · rintro ⟨x, hx, hdir⟩
    obtain ⟨htext, n, hn, hway⟩ := locate_eq_ok.1 (placeOf_eq_ok.1 hx)
    refine ⟨htext, n, hn, x, ?_, hdir⟩
    rcases steps_eq p with hsteps | hsteps
    · rwa [hsteps] at hway
    · rw [hsteps] at hway
      obtain ⟨y, m, k, hfirst, hlast, rfl⟩ := hway.split (List.cons_ne_nil _ _)
      cases hlast with
      | here _ _ hend =>
        cases hend
        exact hfirst
      | up _ hstep => exact absurd hstep (by decide)
      | enter _ hname | follow _ hname => exact absurd rfl hname.notHere
  · rintro ⟨htext, n, hn, x, hway, hdir⟩
    refine ⟨x, placeOf_eq_ok.2 (locate_eq_ok.2 ⟨htext, n, hn, ?_⟩), hdir⟩
    rcases steps_eq p with hsteps | hsteps
    · rwa [hsteps]
    · rw [hsteps]
      exact hway.append (.here hdir rfl (.done x))

/-! ## Making a directory -/

/-- What is free to a walk that does not follow a last link is free to one that does. -/
theorem walk_free_follow {links : Nat}
    (h : w.walk false links place names = .ok (.free directory name)) :
    w.walk true links place names = .ok (.free directory name) := by
  fun_induction walk w false links place names with
  | case1 | case2 | case5 | case7 | case9 | case10 => cases h
  | case8 => cases h
  | case3 links place rest hdir ih =>
    rw [walk]
    simpa [hdir] using ih h
  | case4 links place rest hdir _ ih =>
    rw [walk]
    simpa [hdir] using ih h
  | case6 links place name rest hdir hhere hup hshort hfree hrest =>
    rw [walk_cons w true links place (by simpa using hdir) ⟨hhere, hup, Nat.not_lt.1 hshort⟩, hfree]
    simpa [hrest] using h
  | case11 place name rest hdir hhere hup hshort target he hrest links htarget ih =>
    rw [walk_cons w true _ place (by simpa using hdir) ⟨hhere, hup, Nat.not_lt.1 hshort⟩, he]
    simpa [htarget, linkBase] using ih h
  | case12 links place name rest hdir hhere hup hshort e hlink he ih =>
    rw [walk_cons w true _ place (by simpa using hdir) ⟨hhere, hup, Nat.not_lt.1 hshort⟩, he]
    cases e with
    | link target => exact absurd rfl (hlink target)
    | file | directory | pipe | device => exact ih h

/-- What a walk finds through all links, one that stops at a last link finds too. -/
theorem Leads.exists_found (h : w.Leads place names n (.found x)) :
    ∀ {links : Nat}, n ≤ links → ∃ y, w.walk false links place names = .ok (.found y) := by
  generalize ht : Target.found x = t at h
  induction h with
  | done place =>
    intro links _
    exact ⟨place, by rw [walk]⟩
  | here hdir hstep _ ih =>
    subst hstep
    intro links hn
    obtain ⟨y, hy⟩ := ih ht hn
    exact ⟨y, by rw [walk]; simpa [hdir] using hy⟩
  | up hdir hstep _ ih =>
    subst hstep
    intro links hn
    obtain ⟨y, hy⟩ := ih ht hn
    exact ⟨y, by rw [walk]; simpa [hdir] using hy⟩
  | free => cases ht
  | @enter place name rest n t hdir hname e he hlink _ ih =>
    intro links hn
    obtain ⟨y, hy⟩ := ih ht hn
    refine ⟨y, ?_⟩
    rw [walk_cons w false links _ hdir hname, he]
    cases e with
    | link target => exact absurd rfl (hlink target)
    | file | directory | pipe | device => exact hy
  | @follow place name rest n t hdir hname target he htarget _ ih =>
    intro links hn
    rw [walk_cons w false links _ hdir hname, he]
    cases rest with
    | nil => exact ⟨place ++ [name], rfl⟩
    | cons step rest =>
      obtain ⟨links, rfl⟩ : ∃ m, links = m + 1 := ⟨links - 1, by omega⟩
      obtain ⟨y, hy⟩ := ih ht (Nat.le_of_succ_le_succ hn)
      exact ⟨y, by simpa [htarget] using hy⟩

/-- A directory that is made is there. -/
theorem isDirectory_of_makeDirectory (h : w.makeDirectory p = .ok w') :
    w'.isDirectory p = true := by
  obtain ⟨above, name, htext, hwalk, rfl⟩ := makeDirectory_eq_ok h
  obtain ⟨n, hn, hway⟩ := walk_eq_ok.1 (walk_free_follow hwalk)
  have hmade := hway.put_free (e := .directory) (by simp)
  exact isDirectory_iff.2 ⟨htext, n, hn, _, hmade, by simp [isDirectoryAt, get?_put]⟩

/-- A directory that is there is not made again. -/
theorem makeDirectory_of_isDirectory (h : w.isDirectory p = true) :
    w.makeDirectory p = .error .alreadyExists := by
  obtain ⟨htext, n, hn, x, hway, -⟩ := isDirectory_iff.1 h
  obtain ⟨y, hy⟩ := hway.exists_found hn
  rw [makeDirectory, add]
  split
  · rfl
  · rw [start] at hy
    rw [locateSteps, htext]
    simp only [bind, Except.bind]
    rw [hy]

/-- Where something is found already, no directory is made. -/
theorem left_makeAfter {above : Except (FileError × Workspace) Workspace}
    (hway : w.Leads (w.start p) (plainSteps p) n (.found x)) (hn : n ≤ linkLimit)
    (htext : p.text.isEmpty = false) : left (w.makeAfter p above) = w := by
  have hmake : ∃ e, w.makeDirectory p = .error e ∧ e ≠ .notFound := by
    obtain ⟨y, hy⟩ := hway.exists_found hn
    rw [makeDirectory, add]
    split
    · exact ⟨_, rfl, by simp⟩
    · rw [locateSteps]
      rw [start] at hy
      cases hcheck : checkText p.text with
      | error e =>
        refine ⟨e, rfl, ?_⟩
        rintro rfl
        simp only [checkText, htext, Bool.false_eq_true, if_false] at hcheck
        split at hcheck
        · cases hcheck
        · split at hcheck <;> cases hcheck
      | ok u =>
        simp only [bind, Except.bind, hy]
        exact ⟨_, rfl, by simp⟩
  obtain ⟨e, he, hne⟩ := hmake
  rw [makeAfter, he]
  cases e with
  | notFound => exact absurd rfl hne
  | _ =>
    simp only
    split <;> rfl

theorem isDirectory_of_makeAfter {above : Except (FileError × Workspace) Workspace}
    (h : w.makeAfter p above = .ok w') : w'.isDirectory p = true := by
  rw [makeAfter] at h
  split at h
  · next hmake =>
    cases h
    exact isDirectory_of_makeDirectory hmake
  · cases hup : above with
    | error e => simp [hup, bind, Except.bind] at h
    | ok w₁ =>
      simp only [hup, bind, Except.bind] at h
      split at h
      · next hmake =>
        cases h
        exact isDirectory_of_makeDirectory hmake
      · split at h
        · next hdir =>
          cases h
          exact hdir
        · cases h
  · split at h
    · next hdir =>
      cases h
      exact hdir
    · cases h

/-! ## Directories that need no making -/

/-- A path without components, or to a directory. -/
def Made (w : Workspace) (p : Path) : Prop := p.components = [] ∨ w.isDirectory p = true

theorem made_of_makeDirectories (h : w.makeDirectories p = .ok w') : w'.Made p := by
  rw [makeDirectories_eq_ok, makeAll] at h
  split at h
  · next hnone => exact .inl (by simpa using hnone)
  · exact .inr (isDirectory_of_makeAfter h)

/-- **A directory that is there is made by leaving it as it is.** -/
theorem Made.makeDirectories (h : w.Made p) : w.makeDirectories p = .ok w := by
  rw [makeDirectories_eq_ok, makeAll]
  split
  · rfl
  · next hcomponents =>
    rcases h with hnone | hdir
    · simp [hnone] at hcomponents
    · rw [makeAfter, makeDirectory_of_isDirectory hdir]
      simp [hdir]

theorem Extends.isDirectory (h : w.Extends w') (hdir : w.isDirectory p = true) :
    w'.isDirectory p = true := by
  obtain ⟨htext, n, hn, x, hway, hx⟩ := isDirectory_iff.1 hdir
  rw [start, ← h.here] at hway
  exact isDirectory_iff.2 ⟨htext, n, hn, x, h.leads hway, h.isDirectoryAt hx⟩

theorem Extends.made (h : w.Extends w') (hmade : w.Made p) : w'.Made p :=
  hmade.imp id h.isDirectory

theorem Made.rename (hmade : w.Made directoryPath) (hs : Siblings p q dirs a b) (hb : Named b)
    (hab : a ≠ b) (hx : w.placeOf p = .ok x) (hleaf : w.isDirectoryAt x = false)
    (hq : w.Replaceable q) (h : w.rename p q = .ok w') : w'.Made directoryPath := by
  obtain ⟨directory, m, k, e, hdirs, -, hmovable, -, rfl⟩ := rename_movable hs hb hab hx hleaf h
  refine hmade.imp id fun hmade => ?_
  obtain ⟨htext, n, hn, y, hway, hy⟩ := isDirectory_iff.1 hmade
  exact isDirectory_iff.2 ⟨htext, n, hn, y, hmovable.way_kept (hq.other hs hdirs) hway hy,
    hmovable.isDirectoryAt_after hy⟩

end AnalysisGate.Workspace
