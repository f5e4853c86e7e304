import AnalysisGate.Proofs.Workspace.Frames
import Mathlib

/-!
Replacing an entry by a sibling.

A temporary file and the file that it replaces stand in one directory. After the replacement the
second path reads what the first one read (`rename_spec`), even where links stand in their places:
the way of a link cannot meet the link itself again, so it is not cut by moving it.
-/
namespace AnalysisGate.Workspace

variable {w w' : Workspace} {place directory x y : Place} {names rest dirs : List String}
  {name a b : String} {n k : Nat} {p q : Path} {t : Target}

/-! ## Ways past changed entries -/

/-- A way that meets none of the changed entries goes on as it did. -/
theorem Leads.avoid {changed : Place → Prop}
    (hkeep : ∀ y, ¬ changed y → w'.entries.get? y = w.entries.get? y)
    (hdir : ∀ y, w.isDirectoryAt y = true → w'.isDirectoryAt y = true)
    (h : w.Leads place names n (.found x)) :
    w'.Leads place names n (.found x) ∨ ∃ directory name rest k, changed (directory ++ [name]) ∧
      k ≤ n ∧ w.Leads directory (name :: rest) k (.found x) := by
  generalize ht : Target.found x = t at h
  induction h with
  | done place => exact .inl (.done place)
  | here hd hstep _ ih =>
    subst ht
    exact (ih rfl).imp (.here (hdir _ hd) hstep) id
  | up hd hstep _ ih =>
    subst ht
    exact (ih rfl).imp (.up (hdir _ hd) hstep) id
  | free => cases ht
  | @enter place name rest n t hd hname e he hlink h ih =>
    subst ht
    by_cases hc : changed (place ++ [name])
    · exact .inr ⟨place, name, rest, n, hc, le_refl n, .enter hd hname e he hlink h⟩
    · exact (ih rfl).imp (.enter (hdir _ hd) hname e ((hkeep _ hc).trans he) hlink) id
  | @follow place name rest n t hd hname target he htarget h ih =>
    subst ht
    by_cases hc : changed (place ++ [name])
    · exact .inr ⟨place, name, rest, n + 1, hc, le_refl _, .follow hd hname target he htarget h⟩
    · rcases ih rfl with h' | ⟨directory, step, rest', k, hstep, hk, h'⟩
      · exact .inl (.follow (hdir _ hd) hname target ((hkeep _ hc).trans he) htarget h')
      · exact .inr ⟨directory, step, rest', k, hstep, Nat.le_succ_of_le hk, h'⟩

/-- A way that comes to a step which leads to no directory ends there. -/
theorem Leads.ends_at_leaf (h : w.Leads directory [name] n (.found x))
    (hleaf : w.isDirectoryAt x = false) (h' : w.Leads directory (name :: rest) k t) :
    k = n ∧ t = .found x := by
  cases rest with
  | nil =>
    obtain ⟨rfl, rfl⟩ := h.unique h'
    exact ⟨rfl, rfl⟩
  | cons step rest =>
    have hjoined : w.Leads directory ([name] ++ step :: rest) k t := h'
    obtain ⟨z, m, k', hz, hrest, -⟩ := hjoined.split (List.cons_ne_nil _ _)
    obtain ⟨-, heq⟩ := h.unique hz
    cases heq
    cases (hrest.of_leaf hleaf).1

/-- A way by one or more steps leads somewhere by the first. -/
theorem Leads.exists_first {name : String} (hway : w.Leads place (name :: rest) k (.found x)) :
    ∃ z n, w.Leads place [name] n (.found z) := by
  cases rest with
  | nil => exact ⟨x, k, hway⟩
  | cons step rest =>
    have hjoined : w.Leads place ([name] ++ step :: rest) k (.found x) := hway
    obtain ⟨z, m, j, hfirst, -, -⟩ := hjoined.split (List.cons_ne_nil _ _)
    exact ⟨z, m, hfirst⟩

/-- What comes over a step that leads to no directory ends there. -/
theorem Leads.ends_over (hleaf : ∀ n y, w.Leads directory [name] n (.found y) →
      w.isDirectoryAt y = false) (h : w.Leads directory (name :: rest) k (.found x)) :
    w.Leads directory [name] k (.found x) := by
  obtain ⟨y, n, hfirst⟩ := h.exists_first
  obtain ⟨rfl, heq⟩ := hfirst.ends_at_leaf (hleaf n y hfirst) h
  exact heq ▸ hfirst

/-- The entry of a path that leads to no directory is none itself. -/
theorem Leads.entry_leaf (h : w.Leads directory [a] k (.found x)) (ha : Named a)
    (hleaf : w.isDirectoryAt x = false) : w.isDirectoryAt (directory ++ [a]) = false := by
  cases h with
  | here _ hstep => exact absurd hstep ha.notHere
  | up _ hstep => exact absurd hstep ha.notUp
  | enter _ _ e he hlink h =>
    cases h
    exact hleaf
  | follow _ _ target he => simp [isDirectoryAt, he]

/-! ## Siblings -/

/-- Two paths name different entries of one directory. -/
structure Siblings (p q : Path) (dirs : List String) (a b : String) : Prop where
  source : steps p.text = dirs ++ [a]
  target : steps q.text = dirs ++ [b]
  plain : plainSteps q = dirs ++ [b]
  absolute : p.isAbsolute = q.isAbsolute
  notHere : a ≠ "."
  notUp : a ≠ ".."

/-- The directory of a path that leads to an entry, and the way on from there. -/
theorem exists_directory (hsteps : steps p.text = dirs ++ [a]) (ha : a ≠ "." ∧ a ≠ "..")
    (hx : w.placeOf p = .ok x) :
    ∃ directory m k, w.Leads (w.start p) dirs m (.found directory) ∧
      w.Leads directory [a] k (.found x) ∧ m + k ≤ linkLimit ∧
      w.isDirectoryAt directory = true ∧ Named a ∧
      ∃ e, w.entries.get? (directory ++ [a]) = some e := by
  obtain ⟨-, n, hn, hway⟩ := locate_eq_ok.1 (placeOf_eq_ok.1 hx)
  rw [hsteps] at hway
  obtain ⟨directory, m, k, hdirs, hlast, rfl⟩ := hway.split (List.cons_ne_nil _ _)
  refine ⟨directory, m, k, hdirs, hlast, hn, ?_⟩
  cases hlast with
  | here _ hstep => exact absurd hstep ha.1
  | up _ hstep => exact absurd hstep ha.2
  | enter hdir hname e he => exact ⟨hdir, hname, e, he⟩
  | follow hdir hname target he => exact ⟨hdir, hname, _, he⟩

/-- An entry is moved to the place of a sibling. -/
def replace (w : Workspace) (directory : Place) (a b : String) (e : Entry) : Workspace :=
  { w with entries := (w.entries.erase (directory ++ [a])).insert (directory ++ [b]) e }

theorem get?_replace (w : Workspace) (directory : Place) (a b : String) (e : Entry) (y : Place) :
    (w.replace directory a b e).entries.get? y =
      if y = directory ++ [b] then some e
      else if y = directory ++ [a] then none
      else w.entries.get? y := by
  rw [replace, SortedMap.get?_insert, SortedMap.get?_erase]

/-- An entry that leads to what is no directory can be moved to the place of a sibling that is no
directory. -/
structure Movable (w : Workspace) (directory : Place) (a b : String) (e : Entry) (k : Nat)
    (x : Place) : Prop where
  source : Named a
  target : Named b
  apart : a ≠ b
  above : w.isDirectoryAt directory = true
  entry : w.entries.get? (directory ++ [a]) = some e
  way : w.Leads directory [a] k (.found x)
  leaf : w.isDirectoryAt x = false
  other : w.isDirectoryAt (directory ++ [b]) = false

namespace Movable

variable {e : Entry} {z : Place}

theorem get?_source (h : w.Movable directory a b e k x) :
    (w.replace directory a b e).entries.get? (directory ++ [a]) = none := by
  rw [get?_replace, if_neg (by simpa using h.apart), if_pos rfl]

theorem get?_target (w : Workspace) (directory : Place) (a b : String) (e : Entry) :
    (w.replace directory a b e).entries.get? (directory ++ [b]) = some e := by
  rw [get?_replace, if_pos rfl]

theorem get?_other (w : Workspace) (e : Entry) (ha : z ≠ directory ++ [a])
    (hb : z ≠ directory ++ [b]) :
    w.entries.get? z = (w.replace directory a b e).entries.get? z := by
  rw [get?_replace, if_neg hb, if_neg ha]

/-- No directory is lost. -/
theorem isDirectoryAt_after (h : w.Movable directory a b e k x)
    (hy : w.isDirectoryAt y = true) : (w.replace directory a b e).isDirectoryAt y = true := by
  have hya : y ≠ directory ++ [a] := by
    rintro rfl
    simp [h.way.entry_leaf h.source h.leaf] at hy
  have hyb : y ≠ directory ++ [b] := by
    rintro rfl
    simp [h.other] at hy
  rwa [isDirectoryAt, ← get?_other w e hya hyb, ← isDirectoryAt]

/-- A way stays unless it leads over one of the two entries. -/
theorem old_way (h : w.Movable directory a b e k x) (hway : w.Leads place names n (.found z)) :
    (w.replace directory a b e).Leads place names n (.found z) ∨
      ∃ rest j, j ≤ n ∧ (w.Leads directory (a :: rest) j (.found z) ∨
        w.Leads directory (b :: rest) j (.found z)) := by
  rcases hway.avoid (fun y hy => (get?_other w e (not_or.1 hy).1 (not_or.1 hy).2).symm)
    (fun _ => h.isDirectoryAt_after) with hkept | ⟨d, step, rest, j, hend | hend, hj, hmeet⟩
  · exact .inl hkept
  · obtain ⟨rfl, rfl⟩ := List.append_singleton_inj.1 hend
    exact .inr ⟨rest, j, hj, .inl hmeet⟩
  · obtain ⟨rfl, rfl⟩ := List.append_singleton_inj.1 hend
    exact .inr ⟨rest, j, hj, .inr hmeet⟩

/-- Ways to directories stay if the sibling leads to none. -/
theorem way_kept (h : w.Movable directory a b e k x)
    (hother : ∀ n y, w.Leads directory [b] n (.found y) → w.isDirectoryAt y = false)
    (hway : w.Leads place names n (.found z)) (hdir : w.isDirectoryAt z = true) :
    (w.replace directory a b e).Leads place names n (.found z) := by
  rcases h.old_way hway with hkept | ⟨rest, j, -, hmeet | hmeet⟩
  · exact hkept
  · obtain ⟨-, heq⟩ := h.way.ends_at_leaf h.leaf hmeet
    cases heq
    exact absurd hdir (by simp [h.leaf])
  · exact absurd hdir (by simp [hother j z (hmeet.ends_over hother)])

end Movable

theorem checkText_of_locate {follow : Bool} (h : w.locate follow p = .ok t) :
    checkText p.text = .ok () := by
  rw [locate, locateSteps] at h
  obtain ⟨u, htext, -⟩ := bind_eq_ok.1 h
  exact htext

theorem rename_eq_ok (hs : Siblings p q dirs a b) (hb : Named b) (hx : w.placeOf p = .ok x)
    (h : w.rename p q = .ok w') :
    ∃ directory m k e, w.Leads (w.start p) dirs m (.found directory) ∧
      w.Leads directory [a] k (.found x) ∧ m + k ≤ linkLimit ∧
      w.isDirectoryAt directory = true ∧ Named a ∧
      w.entries.get? (directory ++ [a]) = some e ∧
      w.isDirectoryAt (directory ++ [b]) = false ∧ checkText q.text = .ok () ∧
      (a ≠ b → w' = w.replace directory a b e) := by
  obtain ⟨directory, m, k, hdirs, hlast, hlinks, hdir, ha, e, he⟩ :=
    exists_directory hs.source ⟨hs.notHere, hs.notUp⟩ hx
  refine ⟨directory, m, k, e, hdirs, hlast, hlinks, hdir, ha, he, ?_⟩
  have hlocate : w.locate false p = .ok (.found (directory ++ [a])) := by
    have htext := checkText_of_locate (placeOf_eq_ok.1 hx)
    have hwalk := walk_last hdirs hdir ha (show m ≤ linkLimit by omega)
    rw [he] at hwalk
    rw [locate, locateSteps, htext, hs.source]
    exact hwalk
  rw [rename, hlocate] at h
  obtain ⟨_, ⟨⟩, h⟩ := bind_eq_ok.1 h
  simp only at h
  split at h
  · obtain ⟨t, -, h⟩ := bind_eq_ok.1 h
    cases h
  have hmove (h : rename.move w (directory ++ [a]) (directory ++ [b]) = .ok w') (hab : a ≠ b) :
      w' = w.replace directory a b e := by
    have hne : directory ++ [a] ≠ directory ++ [b] := by simpa using hab
    rw [rename.move, he] at h
    simp only [if_neg hne] at h
    exact (Except.ok.inj h).symm
  -- the second path is looked up as far as its last name, so no link there is followed
  obtain ⟨t, htarget, h⟩ := bind_eq_ok.1 h
  rw [locateSteps] at htarget
  obtain ⟨u, htext, htarget⟩ := bind_eq_ok.1 htarget
  rw [hs.plain, ← hs.absolute, ← start,
    walk_last hdirs hdir hb (show m ≤ linkLimit by omega)] at htarget
  cases hother : w.entries.get? (directory ++ [b]) with
  | none =>
    rw [hother] at htarget
    cases htarget
    simp only at h
    split at h
    · cases h
    · exact ⟨by simp [isDirectoryAt, hother], htext, hmove h⟩
  | some e' =>
    rw [hother] at htarget
    cases htarget
    simp only at h
    split at h
    · cases h
    · split at h
      · cases h
      · next hleaf => exact ⟨by simpa using hleaf, htext, hmove h⟩

/-- A path that leads to no directory is renamed by moving its last entry. -/
theorem rename_movable (hs : Siblings p q dirs a b) (hb : Named b) (hab : a ≠ b)
    (hx : w.placeOf p = .ok x) (hleaf : w.isDirectoryAt x = false) (h : w.rename p q = .ok w') :
    ∃ directory m k e, w.Leads (w.start p) dirs m (.found directory) ∧ m + k ≤ linkLimit ∧
      w.Movable directory a b e k x ∧ checkText q.text = .ok () ∧
      w' = w.replace directory a b e := by
  obtain ⟨directory, m, k, e, hdirs, hlast, hlinks, hdir, ha, he, hbleaf, htext, hreplace⟩ :=
    rename_eq_ok hs hb hx h
  exact ⟨directory, m, k, e, hdirs, hlinks, ⟨ha, hb, hab, hdir, he, hlast, hleaf, hbleaf⟩, htext,
    hreplace hab⟩

/-- An entry of the root is moved to a place there that no directory has. -/
theorem InRoot.rename_leaf {e : Entry} (hp : InRoot p a) (hq : InRoot q b)
    (hplain : plainSteps q = [b]) (hslash : endsInSlash q = false) (hab : a ≠ b)
    (he : w.entries.get? [a] = some e) (hleaf : w.isDirectoryAt [b] = false) :
    w.rename p q = .ok (w.replace [] a b e) := by
  have hwalk := walk_last (.done []) (show w.isDirectoryAt [] = true from rfl) hq.named
    (Nat.zero_le linkLimit)
  have htarget : w.locateSteps false q [b] = w.walk false linkLimit [] ([] ++ [b]) := by
    rw [locateSteps, hq.text, hq.absolute]
    rfl
  have hends : endsInName [b] = true := endsInName_singleton hq.named
  have hmove : rename.move w [a] [b] = .ok (w.replace [] a b e) := by
    rw [rename.move, he]
    simp only
    rw [if_neg (by simpa using hab)]
    rfl
  rw [rename, hp.locate_entry he, hplain]
  simp only [bind, Except.bind, hends, Bool.not_true, Bool.false_eq_true, if_false, htarget, hwalk]
  simp only [List.nil_append]
  cases w.entries.get? [b] with
  | none => simpa [hslash] using hmove
  | some e' => simpa [hslash, hleaf] using hmove

/-- An entry of the root is moved to a free place there. -/
theorem InRoot.rename_free {e : Entry} (hp : InRoot p a) (hq : InRoot q b)
    (hplain : plainSteps q = [b]) (hslash : endsInSlash q = false) (hab : a ≠ b)
    (he : w.entries.get? [a] = some e) (hfree : w.entries.get? [b] = none) :
    w.rename p q = .ok (w.replace [] a b e) :=
  hp.rename_leaf hq hplain hslash hab he (by simp [isDirectoryAt, hfree])

/-- A path leads to no directory, over however many links. -/
def Replaceable (w : Workspace) (q : Path) : Prop :=
  ∀ n y, w.Leads (w.start q) (steps q.text) n (.found y) → w.isDirectoryAt y = false

theorem replaceable_of_leaf (hx : w.placeOf q = .ok x) (hleaf : w.isDirectoryAt x = false) :
    w.Replaceable q := by
  intro n y hway
  obtain ⟨-, k, -, hway'⟩ := locate_eq_ok.1 (placeOf_eq_ok.1 hx)
  obtain ⟨-, heq⟩ := hway'.unique hway
  cases heq
  exact hleaf

theorem bytesAt_eq_empty (hne : x ≠ []) (hleaf : w.isDirectoryAt x = false)
    (hnot : ∀ bytes modified, w.entries.get? x ≠ some (.file bytes modified)) :
    w.bytesAt x = .ok .empty := by
  rw [bytesAt, if_neg (by simpa using hne)]
  split
  · next bytes modified he => exact absurd he (hnot bytes modified)
  · next he => simp [isDirectoryAt, he] at hleaf
  · rfl

/-- What can be read is no directory. -/
theorem leaf_of_bytesAt {bytes : ByteArray} (h : w.bytesAt x = .ok bytes) :
    w.isDirectoryAt x = false := by
  rw [bytesAt] at h
  split at h
  · cases h
  · next hne =>
    split at h
    · next he => simpa [isDirectoryAt, he] using hne
    · cases h
    · next hdir =>
      rw [isDirectoryAt, Bool.or_eq_false_iff]
      refine ⟨by simpa using hne, ?_⟩
      split
      · next he => exact absurd he hdir
      · rfl

/-- The name of a replaceable sibling leads to no directory. -/
theorem Replaceable.other {m : Nat} (hq : w.Replaceable q) (hs : Siblings p q dirs a b)
    (hdirs : w.Leads (w.start p) dirs m (.found directory)) (n : Nat) (y : Place)
    (hway : w.Leads directory [b] n (.found y)) : w.isDirectoryAt y = false := by
  refine hq (m + n) y ?_
  rw [hs.target, start, ← hs.absolute]
  exact hdirs.append hway

/-- The sibling of a path leads to what its name leads to from their directory. -/
theorem Siblings.placeOf_target {m : Nat} (hs : Siblings p q dirs a b)
    (htext : checkText q.text = .ok ()) (hdirs : w.Leads (w.start p) dirs m (.found directory))
    (hway : w.Leads directory [b] k (.found y)) (hlinks : m + k ≤ linkLimit) :
    w.placeOf q = .ok y := by
  refine placeOf_eq_ok.2 (locate_eq_ok.2 ⟨htext, m + k, hlinks, ?_⟩)
  rw [hs.target, start, ← hs.absolute]
  exact hdirs.append hway

namespace Movable

variable {e : Entry}

/-- A link that is moved still leads to what it led to, unless that is what its sibling leads to. -/
theorem link_way {target : String} (h : w.Movable directory a b (.link target) k x)
    (hother : ∀ n y, w.Leads directory [b] n (.found y) → w.isDirectoryAt y = false)
    (hapart : ∀ j ≤ k, ¬ w.Leads directory [b] j (.found x)) :
    (w.replace directory a b (.link target)).Leads directory [b] k (.found x) := by
  have hfollow := h.way
  cases hfollow with
  | here _ hstep => exact absurd hstep h.source.notHere
  | up _ hstep => exact absurd hstep h.source.notUp
  | enter _ _ e' he' hlink => exact absurd (Option.some.inj (he'.symm.trans h.entry)) (hlink _)
  | @follow _ _ _ n _ _ _ target' he' htarget hway =>
    cases he'.symm.trans h.entry
    refine .follow (h.isDirectoryAt_after h.above) h.target target (get?_target ..) htarget ?_
    -- the way of the link meets neither entry: not its own, as it would start all over again
    rcases h.old_way hway with hkept | ⟨rest, j, hj, hmeet | hmeet⟩
    · exact hkept
    · obtain ⟨heq, -⟩ := h.way.ends_at_leaf h.leaf hmeet
      omega
    · exact absurd (hmeet.ends_over hother) (hapart j (by omega))

/-- **What the name of the sibling leads to is read as what the moved entry led to.** -/
theorem exists_target (h : w.Movable directory a b e k x)
    (hother : ∀ n y, w.Leads directory [b] n (.found y) → w.isDirectoryAt y = false)
    (hapart : ∀ j ≤ k, ¬ w.Leads directory [b] j (.found x)) :
    ∃ y, (w.replace directory a b e).Leads directory [b] k (.found y) ∧
      (w.replace directory a b e).bytesAt y = w.bytesAt x ∧
      ∀ bytes modified, w.entries.get? x = some (.file bytes modified) →
        (w.replace directory a b e).entries.get? y = some (.file bytes modified) := by
  have hbget := get?_target w directory a b e
  have hway := h.way
  cases hway with
  | here _ hstep => exact absurd hstep h.source.notHere
  | up _ hstep => exact absurd hstep h.source.notUp
  | enter _ _ e' he' hlink hend =>
    cases hend
    obtain rfl : e = e' := Option.some.inj (h.entry.symm.trans he')
    refine ⟨directory ++ [b], .enter (h.isDirectoryAt_after h.above) h.target e hbget hlink
      (.done _), ?_, fun bytes modified hfile => ?_⟩
    · simp [bytesAt, hbget, h.entry]
    · rw [hbget, ← hfile, h.entry]
  | follow _ _ target he' htarget hfollow =>
    obtain rfl : e = .link target := Option.some.inj (h.entry.symm.trans he')
    refine ⟨x, h.link_way hother hapart, ?_⟩
    -- only where a way ends in a link that no step has led to can it end at either entry
    by_cases hxa : x = directory ++ [a]
    · subst hxa
      refine ⟨?_, fun bytes modified hfile => by cases h.entry.symm.trans hfile⟩
      rw [bytesAt_eq_empty (by simp) h.leaf (by simp [h.entry]), bytesAt_eq_empty (by simp)
        (by simp [isDirectoryAt, h.get?_source]) (by simp [h.get?_source])]
    · by_cases hxb : x = directory ++ [b]
      · subst hxb
        have hnot (bytes : ByteArray) (modified : Int) :
            w.entries.get? (directory ++ [b]) ≠ some (.file bytes modified) := fun hfile =>
          hapart 0 (Nat.zero_le _) (.enter h.above h.target _ hfile (by simp) (.done _))
        refine ⟨?_, fun bytes modified hfile => absurd hfile (hnot bytes modified)⟩
        rw [bytesAt_eq_empty (by simp) h.other hnot,
          bytesAt_eq_empty (by simp) (by simp [isDirectoryAt, hbget]) (by simp [hbget])]
      · have hsame := (get?_other w (.link target) hxa hxb).symm
        exact ⟨by rw [bytesAt, bytesAt, hsame], fun _ _ hfile => hsame.trans hfile⟩

end Movable

/-- **After a replacement the path reads what its sibling read.** -/
theorem rename_spec (hs : Siblings p q dirs a b) (hb : Named b) (hx : w.placeOf p = .ok x)
    (hleaf : w.isDirectoryAt x = false) (halias : ¬ w.Aliases p q) (hq : w.Replaceable q)
    (h : w.rename p q = .ok w') :
    ∃ y, w'.placeOf q = .ok y ∧ w'.bytesAt y = w.bytesAt x ∧
      ∀ bytes modified, w.entries.get? x = some (.file bytes modified) →
        w'.entries.get? y = some (.file bytes modified) := by
  have hab : a ≠ b := by
    rintro rfl
    obtain ⟨directory, m, k, e, hdirs, hlast, hlinks, -, -, -, -, htext, -⟩ :=
      rename_eq_ok hs hb hx h
    exact halias ⟨x, hx, hs.placeOf_target htext hdirs hlast hlinks⟩
  obtain ⟨directory, m, k, e, hdirs, hlinks, hmovable, htext, rfl⟩ :=
    rename_movable hs hb hab hx hleaf h
  have hother := hq.other hs hdirs
  have hapart (j : Nat) (hj : j ≤ k) : ¬ w.Leads directory [b] j (.found x) := fun hway =>
    halias ⟨x, hx, hs.placeOf_target htext hdirs hway (by omega)⟩
  obtain ⟨y, hway, hspec⟩ := hmovable.exists_target hother hapart
  have hdirs' := hmovable.way_kept hother hdirs hmovable.above
  exact ⟨y, hs.placeOf_target htext hdirs' hway hlinks, hspec⟩

end AnalysisGate.Workspace
