import AnalysisGate.Proofs.Workspace.Replacement
import Mathlib

/-!
What can be read after a change.

A change brings to light only bytes of its own: whatever path is read after bytes are written
(`read_of_write`), it reads those or what it read before; and after an entry has replaced a sibling
(`read_of_rename`), it reads nothing, what the moved path read, or what it read before. A file that
the replaced path then leads to is the moved one (`file_of_rename`), so bytes that are written and
then moved are read there (`read_of_replacement`). This holds wherever the links of the tree lead,
the two paths themselves included.
-/
namespace AnalysisGate.Workspace

variable {w w' : Workspace} {place directory x y z : Place} {names rest dirs : List String}
  {a b : String} {n k : Nat} {p q : Path} {bytes c : ByteArray} {modified : Int} {t : Target}

/-! ## Bytes that are put -/

/-- Ways to other entries than the one that is put were there before. -/
theorem Leads.before_put (hkeep : ∀ z, z ≠ y → w'.entries.get? z = w.entries.get? z)
    (hput : w'.entries.get? y = some (.file bytes modified))
    (h : w'.Leads place names n (.found x)) : x = y ∨ w.Leads place names n (.found x) := by
  have hdirectory (z : Place) (hz : w'.isDirectoryAt z = true) : w.isDirectoryAt z = true := by
    by_cases hzy : z = y
    · have hroot : z = [] := by simpa [isDirectoryAt, hzy, hput] using hz
      rw [hroot]
      rfl
    · rwa [isDirectoryAt, ← hkeep z hzy]
  generalize ht : Target.found x = t at h
  induction h with
  | done place =>
    cases ht
    exact .inr (.done x)
  | here hdir hstep _ ih => exact (ih ht).imp id fun h => .here (hdirectory _ hdir) hstep h
  | up hdir hstep _ ih => exact (ih ht).imp id fun h => .up (hdirectory _ hdir) hstep h
  | free => cases ht
  | @enter place name rest n t hdir hname e he hlink h ih =>
    by_cases hmet : place ++ [name] = y
    · -- nothing leads on from a file
      have hleaf : w'.isDirectoryAt (place ++ [name]) = false := by
        rw [isDirectoryAt, hmet, hput]
        simpa using hmet ▸ List.append_ne_nil_of_right_ne_nil place (List.cons_ne_nil name [])
      obtain ⟨-, rfl⟩ := h.of_leaf hleaf
      cases ht
      exact .inl hmet
    · exact (ih ht).imp id fun h =>
        .enter (hdirectory _ hdir) hname e ((hkeep _ hmet).symm.trans he) hlink h
  | @follow place name rest n t hdir hname target he htarget h ih =>
    have hmet : place ++ [name] ≠ y := by
      rintro rfl
      cases he.symm.trans hput
    exact (ih ht).imp id fun h =>
      .follow (hdirectory _ hdir) hname target ((hkeep _ hmet).symm.trans he) htarget h

theorem read_of_put (h : (w.put y (.file bytes modified)).read q = .ok c) :
    c = bytes ∨ w.read q = .ok c := by
  have hput : (w.put y (.file bytes modified)).entries.get? y = some (.file bytes modified) := by
    rw [get?_put, if_pos rfl]
  have hkeep (z : Place) (hz : z ≠ y) :
      (w.put y (.file bytes modified)).entries.get? z = w.entries.get? z := by
    rw [get?_put, if_neg hz]
  obtain ⟨x, hx, hc⟩ := read_eq_ok.1 h
  by_cases hxy : x = y
  · subst hxy
    rw [bytesAt, hput] at hc
    split at hc
    · cases hc
    · exact .inl (Except.ok.inj hc).symm
  · obtain ⟨htext, n, hn, hway⟩ := locate_eq_ok.1 (placeOf_eq_ok.1 hx)
    have hway' := (hway.before_put hkeep hput).resolve_left hxy
    refine .inr (read_eq_ok.2 ⟨x, placeOf_eq_ok.2 (locate_eq_ok.2 ⟨htext, n, hn, hway'⟩), ?_⟩)
    rwa [bytesAt, ← hkeep x hxy]

/-- **After bytes are written a path reads them or what it read before.** -/
theorem read_of_write (h : w.write p bytes = .ok w') (hread : w'.read q = .ok c) :
    c = bytes ∨ w.read q = .ok c := by
  obtain ⟨x, -, ⟨-, rfl⟩ | ⟨e, -, -, rfl⟩⟩ := write_eq_ok h
  · exact read_of_put hread
  · exact .inr hread

/-- A file that is made is empty. -/
theorem read_of_create (h : w.create p = .ok w') (hread : w'.read q = .ok c) :
    c = .empty ∨ w.read q = .ok c := by
  obtain ⟨x, -, ⟨-, rfl⟩ | rfl⟩ := create_eq_ok h
  · exact read_of_put hread
  · exact .inr hread

/-! ## Entries that are moved -/

/-- A way has no fewer links than its first step. -/
theorem Leads.first_le {name : String} (h : w.Leads place [name] n (.found x))
    (hway : w.Leads place (name :: rest) k t) : n ≤ k := by
  cases rest with
  | nil => exact (h.unique hway).1.le
  | cons step rest =>
    have hjoined : w.Leads place ([name] ++ step :: rest) k t := hway
    obtain ⟨q, m, j, hfirst, -, rfl⟩ := hjoined.split (List.cons_ne_nil _ _)
    obtain ⟨rfl, -⟩ := h.unique hfirst
    omega

theorem eq_empty_of_bytesAt (h : w.bytesAt x = .ok c)
    (hnot : ∀ bytes modified, w.entries.get? x ≠ some (.file bytes modified)) : c = .empty := by
  rw [bytesAt] at h
  split at h
  · cases h
  · split at h
    · next he => exact absurd he (hnot _ _)
    · cases h
    · exact (Except.ok.inj h).symm

/-- What is no file gives no bytes. -/
theorem read_of_not_regular (h : w.isRegular p = false) (hread : w.read p = .ok c) :
    c = .empty := by
  obtain ⟨x, hx, hbytes⟩ := read_eq_ok.1 hread
  have hne : x ≠ [] := by
    rintro rfl
    cases hbytes
  apply eq_empty_of_bytesAt hbytes
  intro bytes modified he
  have hregular : w.isRegular p = true := isRegular_iff.2 ⟨x, bytes, modified, hx, hne, he⟩
  cases h.symm.trans hregular

namespace Movable

variable {e : Entry}

theorem isDirectoryAt_target (h : w.Movable directory a b e k x) :
    (w.replace directory a b e).isDirectoryAt (directory ++ [b]) = false := by
  have hsource := h.way.entry_leaf h.source h.leaf
  rw [isDirectoryAt, h.entry] at hsource
  rw [isDirectoryAt, get?_target]
  simpa using hsource

/-- No directory is new. -/
theorem isDirectoryAt_before (h : w.Movable directory a b e k x)
    (hz : (w.replace directory a b e).isDirectoryAt z = true) : w.isDirectoryAt z = true := by
  have hza : z ≠ directory ++ [a] := by
    rintro rfl
    simp [isDirectoryAt, h.get?_source] at hz
  have hzb : z ≠ directory ++ [b] := by
    rintro rfl
    simp [h.isDirectoryAt_target] at hz
  rwa [isDirectoryAt, get?_other w e hza hzb, ← isDirectoryAt]

/-- No way leads over the entry that is gone, so a way that is new leads over the moved one. -/
theorem new_way (h : w.Movable directory a b e k x)
    (hway : (w.replace directory a b e).Leads place names n (.found z)) :
    w.Leads place names n (.found z) ∨ ∃ rest j, j ≤ n ∧
      (w.replace directory a b e).Leads directory (b :: rest) j (.found z) := by
  rcases hway.avoid (fun _ hz => get?_other w e (not_or.1 hz).1 (not_or.1 hz).2)
    fun _ => h.isDirectoryAt_before with
    hold | ⟨d, name, rest, j, hend | hend, hj, hmeet⟩
  · exact .inl hold
  · obtain ⟨rfl, rfl⟩ := List.append_singleton_inj.1 hend
    cases hmeet with
    | here _ hstep => exact absurd hstep h.source.notHere
    | up _ hstep => exact absurd hstep h.source.notUp
    | enter _ _ _ he => simp [h.get?_source] at he
    | follow _ _ _ he => simp [h.get?_source] at he
  · obtain ⟨rfl, rfl⟩ := List.append_singleton_inj.1 hend
    exact .inr ⟨rest, j, hj, hmeet⟩

/-- The moved entry has the bytes that it led to, unless it is a link. -/
theorem bytesAt_target (h : w.Movable directory a b e k x)
    (hc : (w.replace directory a b e).bytesAt (directory ++ [b]) = .ok c) :
    c = .empty ∨ w.bytesAt x = .ok c := by
  cases h.way with
  | here _ hstep => exact absurd hstep h.source.notHere
  | up _ hstep => exact absurd hstep h.source.notUp
  | enter _ _ _ _ _ hend =>
    cases hend
    right
    simpa [bytesAt, get?_target, h.entry] using hc
  | follow _ _ target he =>
    obtain rfl : e = .link target := Option.some.inj (h.entry.symm.trans he)
    exact .inl (eq_empty_of_bytesAt hc (by simp [get?_target]))

/-- A link that is moved leads where it led: its way does not lead over itself. -/
theorem way_of_link {target : String} (h : w.Movable directory a b (.link target) k x)
    (hway : (w.replace directory a b (.link target)).Leads directory [b] n (.found z)) :
    z = x := by
  have hbget := get?_target w directory a b (.link target)
  cases hway with
  | here _ hstep => exact absurd hstep h.target.notHere
  | up _ hstep => exact absurd hstep h.target.notUp
  | enter _ _ e' he' hlink => exact absurd (Option.some.inj (he'.symm.trans hbget)) (hlink _)
  | follow hdir _ target' he' htarget hfollow =>
    cases he'.symm.trans hbget
    rcases h.new_way hfollow with hold | ⟨rest, j, hj, hagain⟩
    · cases h.way with
      | here _ hstep => exact absurd hstep h.source.notHere
      | up _ hstep => exact absurd hstep h.source.notUp
      | enter _ _ e' he' hlink => exact absurd (Option.some.inj (he'.symm.trans h.entry)) (hlink _)
      | follow _ _ target' he' _ hfollow' =>
        cases he'.symm.trans h.entry
        obtain ⟨-, heq⟩ := hold.unique hfollow'
        exact Target.found.inj heq
    · -- the way from the link would come by the link again with fewer links to go
      have hle := (Leads.follow hdir h.target target hbget htarget hfollow).first_le hagain
      omega

/-- The moved entry is where its name leads, unless it is a link. -/
theorem way_of_entry (h : w.Movable directory a b e k x) (hlink : ∀ target, e ≠ .link target) :
    (w.replace directory a b e).Leads directory [b] 0 (.found (directory ++ [b])) :=
  .enter (h.isDirectoryAt_after h.above) h.target e (get?_target w directory a b e) hlink
    (.done _)

/-- What leads over the moved entry ends where that leads, which is no directory. -/
theorem ends (h : w.Movable directory a b e k x)
    (hmeet : (w.replace directory a b e).Leads directory (b :: rest) n (.found z)) :
    (w.replace directory a b e).Leads directory [b] n (.found z) ∧
      (w.replace directory a b e).isDirectoryAt z = false := by
  obtain ⟨z₀, n₀, hfirst⟩ := hmeet.exists_first
  have hleaf : (w.replace directory a b e).isDirectoryAt z₀ = false := by
    by_cases hlink : ∃ target, e = .link target
    · obtain ⟨target, rfl⟩ := hlink
      rw [h.way_of_link hfirst, ← Bool.not_eq_true]
      intro hx
      exact absurd (h.isDirectoryAt_before hx) (by simp [h.leaf])
    · obtain ⟨-, heq⟩ :=
        (h.way_of_entry fun target heq => hlink ⟨target, heq⟩).unique hfirst
      rw [← Target.found.inj heq]
      exact h.isDirectoryAt_target
  obtain ⟨rfl, heq⟩ := hfirst.ends_at_leaf hleaf hmeet
  obtain rfl := Target.found.inj heq
  exact ⟨hfirst, hleaf⟩

/-- What leads over the moved entry reads nothing or what the entry led to. -/
theorem bytesAt_over (h : w.Movable directory a b e k x)
    (hmeet : (w.replace directory a b e).Leads directory (b :: rest) n (.found z))
    (hc : (w.replace directory a b e).bytesAt z = .ok c) :
    c = .empty ∨ w.bytesAt x = .ok c := by
  obtain ⟨hfirst, -⟩ := h.ends hmeet
  by_cases hlink : ∃ target, e = .link target
  · obtain ⟨target, rfl⟩ := hlink
    rw [h.way_of_link hfirst] at hc
    by_cases hxa : x = directory ++ [a]
    · exact .inl (eq_empty_of_bytesAt hc (by simp [hxa, h.get?_source]))
    · by_cases hxb : x = directory ++ [b]
      · exact h.bytesAt_target (hxb ▸ hc)
      · right
        rwa [bytesAt, get?_other w (.link target) hxa hxb]
  · obtain ⟨-, heq⟩ := (h.way_of_entry fun target heq => hlink ⟨target, heq⟩).unique hfirst
    rw [← Target.found.inj heq] at hc
    exact h.bytesAt_target hc

/-- A file that the moved entry leads to is the one that it led to. -/
theorem file_over (h : w.Movable directory a b e k x)
    (hway : (w.replace directory a b e).Leads directory [b] n (.found z))
    (hfile : (w.replace directory a b e).entries.get? z = some (.file bytes modified)) :
    w.entries.get? x = some (.file bytes modified) := by
  by_cases hlink : ∃ target, e = .link target
  · obtain ⟨target, rfl⟩ := hlink
    rw [h.way_of_link hway] at hfile
    have hxa : x ≠ directory ++ [a] := by
      rintro rfl
      cases h.get?_source.symm.trans hfile
    have hxb : x ≠ directory ++ [b] := by
      rintro rfl
      cases (get?_target w directory a b (.link target)).symm.trans hfile
    rwa [get?_other w (.link target) hxa hxb]
  · obtain ⟨-, heq⟩ := (h.way_of_entry fun target heq => hlink ⟨target, heq⟩).unique hway
    rw [← Target.found.inj heq, get?_target] at hfile
    cases h.way with
    | here _ hstep => exact absurd hstep h.source.notHere
    | up _ hstep => exact absurd hstep h.source.notUp
    | enter _ _ _ _ _ hend =>
      cases hend
      rw [h.entry, hfile]
    | follow _ _ target he =>
      exact absurd ⟨target, Option.some.inj (h.entry.symm.trans he)⟩ hlink

/-- Directories are reached as before. -/
theorem way_of_directory (h : w.Movable directory a b e k x)
    (hway : (w.replace directory a b e).Leads place names n (.found z))
    (hdir : (w.replace directory a b e).isDirectoryAt z = true) :
    w.Leads place names n (.found z) := by
  rcases h.new_way hway with hold | ⟨rest, j, -, hmeet⟩
  · exact hold
  · rw [(h.ends hmeet).2] at hdir
    cases hdir

/-- What a replaced path leads to is reached from the directory by its last step. -/
theorem exists_way_target {m : Nat} (h : w.Movable directory a b e k x)
    (hs : Siblings p q dirs a b) (hdirs : w.Leads (w.start p) dirs m (.found directory))
    (hz : (w.replace directory a b e).placeOf q = .ok z) :
    ∃ j, (w.replace directory a b e).Leads directory [b] j (.found z) := by
  obtain ⟨directory', m', j, hdirs', hlast', -, hdir', -⟩ :=
    exists_directory hs.target ⟨h.target.notHere, h.target.notUp⟩ hz
  have hstart : (w.replace directory a b e).start q = w.start p := by
    rw [start, start, hs.absolute]
    rfl
  rw [hstart] at hdirs'
  obtain ⟨-, heq⟩ := hdirs.unique (h.way_of_directory hdirs' hdir')
  exact ⟨j, Target.found.inj heq ▸ hlast'⟩

end Movable

/-- **After a replacement a path reads nothing, what the moved path read, or what it read before.**
-/
theorem read_of_rename {r : Path} (hs : Siblings p q dirs a b) (hb : Named b) (hab : a ≠ b)
    (hx : w.placeOf p = .ok x) (hleaf : w.isDirectoryAt x = false) (h : w.rename p q = .ok w')
    (hread : w'.read r = .ok c) : c = .empty ∨ w.read p = .ok c ∨ w.read r = .ok c := by
  obtain ⟨directory, m, k, e, -, -, hmovable, -, rfl⟩ := rename_movable hs hb hab hx hleaf h
  have hmoved (hsame : c = .empty ∨ w.bytesAt x = .ok c) :
      c = .empty ∨ w.read p = .ok c ∨ w.read r = .ok c :=
    hsame.imp id fun hsame => .inl ((read_eq hx).trans hsame)
  obtain ⟨z, hz, hc⟩ := read_eq_ok.1 hread
  obtain ⟨htext, n, hn, hway⟩ := locate_eq_ok.1 (placeOf_eq_ok.1 hz)
  -- either the way is as before, and only its end may have changed, or it meets the moved entry
  rcases hmovable.new_way hway with hold | ⟨rest, j, -, hmeet⟩
  · by_cases hza : z = directory ++ [a]
    · exact .inl (eq_empty_of_bytesAt hc (by simp [hza, hmovable.get?_source]))
    · by_cases hzb : z = directory ++ [b]
      · exact hmoved (hmovable.bytesAt_target (hzb ▸ hc))
      · right
        right
        refine read_eq_ok.2 ⟨z, placeOf_eq_ok.2 (locate_eq_ok.2 ⟨htext, n, hn, hold⟩), ?_⟩
        rwa [bytesAt, Movable.get?_other w e hza hzb]
  · exact hmoved (hmovable.bytesAt_over hmeet hc)

/-- **A file that a replaced path leads to is the file of its sibling.** -/
theorem file_of_rename (hs : Siblings p q dirs a b) (hb : Named b) (hab : a ≠ b)
    (hx : w.placeOf p = .ok x) (hleaf : w.isDirectoryAt x = false) (h : w.rename p q = .ok w')
    (hz : w'.placeOf q = .ok z) (hfile : w'.entries.get? z = some (.file bytes modified)) :
    w.entries.get? x = some (.file bytes modified) := by
  obtain ⟨directory, m, k, e, hdirs, -, hmovable, -, rfl⟩ := rename_movable hs hb hab hx hleaf h
  obtain ⟨j, hlast'⟩ := hmovable.exists_way_target hs hdirs hz
  exact hmovable.file_over hlast' hfile

/-- **A file that is found where written bytes were moved to has these bytes.** -/
theorem read_of_replacement {w₁ : Workspace} (hs : Siblings p q dirs a b) (hb : Named b)
    (hab : a ≠ b) (hwrite : w.write p bytes = .ok w₁) (hrename : w₁.rename p q = .ok w')
    (hregular : w'.isRegular q = true) : w'.read q = .ok bytes := by
  obtain ⟨x, hwritten⟩ := write_spec hwrite
  obtain ⟨z, found, modified, hz, hne, hfile⟩ := isRegular_iff.1 hregular
  have hsource : w₁.entries.get? x = some (.file found modified) :=
    file_of_rename hs hb hab hwritten.place hwritten.leaf hrename hz hfile
  rcases hwritten.kept with hkept | ⟨hnot, -⟩
  · cases hkept.symm.trans hsource
    rw [read_eq hz, bytesAt, if_neg (by simpa using hne), hfile]
  · exact absurd hsource (hnot found modified)

end AnalysisGate.Workspace
