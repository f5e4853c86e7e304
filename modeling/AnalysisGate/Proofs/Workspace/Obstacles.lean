import AnalysisGate.Proofs.Workspace.Standing
import AnalysisGate.Proofs.Workspace.Temporary
import Mathlib

/-!
What does not stand in the way.

A path that can be opened for writing can be written to, and it can be opened still after files
were put elsewhere, or by the very same name (`Puts.openForWriting`). An entry can be moved to the
name of a sibling unless a directory has that name (`exists_rename`).
-/
namespace AnalysisGate.Workspace

variable {w w' w'' : Workspace} {directory x y : Place} {dirs : List String} {name a b : String}
  {n : Nat} {p q : Path} {bytes : ByteArray}

/-! ## Opening -/

/-- What is opened for writing stands in a directory, or is free there. -/
theorem exists_way_of_open (h : w.openForWriting q = .ok y) (hsteps : steps q.text = dirs ++ [a]) :
    ∃ directory n, w.Leads (w.start q) dirs n (.found directory) ∧ n ≤ linkLimit ∧
      w.isDirectoryAt directory = true := by
  have hway : ∃ t, ∃ n ≤ linkLimit, w.Leads (w.start q) (steps q.text) n t := by
    rcases openForWriting_eq_ok h with ⟨hplace, -⟩ | ⟨directory, name, hlocate, -⟩
    · exact ⟨_, (locate_eq_ok.1 (placeOf_eq_ok.1 hplace)).2⟩
    · exact ⟨_, (locate_eq_ok.1 hlocate).2⟩
  obtain ⟨t, n, hn, hway⟩ := hway
  rw [hsteps] at hway
  obtain ⟨directory, m, k, hdirs, hlast, rfl⟩ := hway.split (List.cons_ne_nil _ _)
  refine ⟨directory, m, hdirs, by omega, ?_⟩
  by_contra hdir
  cases (hlast.of_leaf (by simpa using hdir)).1

theorem exists_create (h : w.openForWriting q = .ok y) : ∃ w', w.create q = .ok w' := by
  rw [create, h]
  simp only [bind, Except.bind, pure, Except.pure]
  split <;> exact ⟨_, rfl⟩

theorem exists_write (h : w.openForWriting q = .ok y) (bytes : ByteArray) :
    ∃ w', w.write q bytes = .ok w' := by
  rw [write, h]
  simp only [bind, Except.bind, pure, Except.pure]
  split <;> exact ⟨_, rfl⟩

namespace Puts

/-- No directory is new where a file is put. -/
theorem leaf (h : w.Puts w' q) (hx : w.isDirectoryAt x = false) : w'.isDirectoryAt x = false := by
  rcases h with rfl | ⟨y, bytes, modified, rfl, -, hne, -⟩
  · exact hx
  · by_cases hxy : x = y
    · simp [isDirectoryAt, get?_put, hxy, hne]
    · rwa [isDirectoryAt, get?_put, if_neg hxy, ← isDirectoryAt]

/-- **What can be opened for writing can be after a file is put.** -/
theorem openForWriting (h : w.Puts w' q) (hp : w.openForWriting p = .ok x) :
    w'.openForWriting p = .ok x := by
  obtain ⟨hname, hslash⟩ := endsInName_of_open hp
  have hextends := h.extended
  rcases openForWriting_eq_ok hp with ⟨hplace, hstat⟩ | ⟨directory, name, hlocate, rfl⟩
  · exact openForWriting_found hname hslash (hextends.placeOf hplace)
      (h.leaf (isDirectoryAt_of_stat hstat))
  · obtain ⟨htext, n, hn, hway⟩ := locate_eq_ok.1 hlocate
    rcases h with rfl | ⟨y, bytes, modified, rfl, -, -, -⟩
    · exact hp
    -- the free place is free still, unless it is where the file is put
    by_cases hy : directory ++ [name] = y
    · subst hy
      have hput := hway.put_free (e := .file bytes modified) (by simp)
      refine openForWriting_found hname hslash
        (placeOf_eq_ok.2 (locate_eq_ok.2 ⟨htext, n, hn, hput⟩)) ?_
      simp [isDirectoryAt, get?_put]
    · have hfree := hway.free_entry
      have hway' := hextends.leads_to (fun _ heq => by cases heq)
        (fun d step heq hdir hstep => by
          cases heq
          exact Leads.free hdir hstep (by rw [get?_put, if_neg hy, hfree])) hway
      exact openForWriting_free hname hslash (locate_eq_ok.2 ⟨htext, n, hn, hway'⟩)

end Puts

/-! ## Moving -/

/-- A path without a last step that leads nowhere else ends in no slash. -/
theorem endsInSlash_of_steps (h : steps p.text = plainSteps p) : endsInSlash p = false := by
  by_contra hslash
  rw [Bool.not_eq_false, endsInSlash, beq_iff_eq] at hslash
  obtain ⟨front, hfront⟩ := List.getLast?_eq_some_iff.1 hslash
  have hpieces : (Path.pieces p.text.toList).getLast? = some [] := by
    rw [hfront, Path.pieces_append]
    simp [Path.pieces]
  rw [steps, if_pos hpieces] at h
  have hlength := congrArg List.length h
  simp [plainSteps] at hlength

/-- A path whose last step is not followed leads to the entry of that name, or to a free place. -/
theorem locate_last (hsteps : steps p.text = dirs ++ [name]) (hname : Named name)
    (htext : checkText p.text = .ok ()) (hdirs : w.Leads (w.start p) dirs n (.found directory))
    (hn : n ≤ linkLimit) (hdir : w.isDirectoryAt directory = true) :
    w.locate false p = .ok (match w.entries.get? (directory ++ [name]) with
      | none => .free directory name
      | some _ => .found (directory ++ [name])) := by
  rw [locate, locateSteps, htext, hsteps]
  exact walk_last hdirs hdir hname hn

/-- **An entry is moved to the name of a sibling**, unless a directory has that name. -/
theorem exists_rename {e : Entry} (hs : Siblings p q dirs a b) (ha : Named a) (hb : Named b)
    (htext : checkText p.text = .ok ()) (htext' : checkText q.text = .ok ())
    (hdirs : w.Leads (w.start p) dirs n (.found directory)) (hn : n ≤ linkLimit)
    (hdir : w.isDirectoryAt directory = true) (he : w.entries.get? (directory ++ [a]) = some e)
    (hleaf : w.isDirectoryAt (directory ++ [b]) = false) : ∃ w', w.rename p q = .ok w' := by
  have hsource := locate_last hs.source ha htext hdirs hn hdir
  rw [he] at hsource
  have hstart : w.start p = w.start q := by rw [start, start, hs.absolute]
  have htarget := locate_last hs.target hb htext' (hstart ▸ hdirs) hn hdir
  rw [locate, hs.target, ← hs.plain] at htarget
  have hends : endsInName (plainSteps q) = true := by
    rw [hs.plain]
    simpa [endsInName] using endsInName_singleton hb
  have hslash : endsInSlash q = false := endsInSlash_of_steps (hs.target.trans hs.plain.symm)
  have hmove : ∃ w', rename.move w (directory ++ [a]) (directory ++ [b]) = .ok w' := by
    rw [rename.move, he]
    simp only
    split <;> exact ⟨_, rfl⟩
  rw [rename, hsource]
  simp only [bind, Except.bind, hends, Bool.not_true, Bool.false_eq_true, if_false, htarget]
  cases w.entries.get? (directory ++ [b]) with
  | none => simpa [hslash] using hmove
  | some e' => simpa [hslash, hleaf] using hmove

end AnalysisGate.Workspace
