import AnalysisGate.Proofs.Failing
import AnalysisGate.Proofs.Workspace.Retiming
import Mathlib

/-!
Files beside a budget.

A save over a budget touches no other file but the temporary one: it makes no directories
(`Budget.housed_eq`), and a path that leads neither to the temporary file nor to the budget reads
what it read before (`Budget.read_beside_save`). A path that led nowhere leads nowhere
(`Budget.absent_beside_save`), unless it is one to the new budget: a path over too many links to be
followed may have one less of them afterwards.
-/
namespace AnalysisGate

namespace Workspace

variable {w w' : Workspace} {x y z : Place} {p q r : Path} {dirs : List String} {a b : String}
  {c : ByteArray}

/-- The entry of a path is moved to the name of a sibling. -/
structure Replaces (w w' : Workspace) (p q : Path) (dirs : List String) (a b : String)
    (x : Place) : Prop where
  siblings : Siblings p q dirs a b
  named : Named b
  apart : a ≠ b
  source : w.placeOf p = .ok x
  leaf : w.isDirectoryAt x = false
  renamed : w.rename p q = .ok w'

namespace Replaces

/-- **A path that leads neither to the file that is moved nor to the one that is replaced reads the
same after the replacement.** One that reads nothing may lead to a link; it must not lead to the new
file either. -/
theorem read (h : w.Replaces w' p q dirs a b x) (hz : w.placeOf q = .ok z)
    (hzleaf : w.isDirectoryAt z = false) (hread : w.read r = .ok c) (hp : ¬ w.Aliases p r)
    (hq : ¬ w.Aliases q r) (hq' : c = .empty → ¬ w'.Aliases q r) : w'.read r = .ok c := by
  obtain ⟨hs, hb, hab, hx, hleaf, h⟩ := h
  obtain ⟨y, hy, hc⟩ := read_eq_ok.1 hread
  obtain ⟨directory, m, k, e, hdirs, hlinks, hmovable, htext, rfl⟩ :=
    rename_movable hs hb hab hx hleaf h
  have hstart : w.start q = w.start p := by rw [start, start, hs.absolute]
  -- the last steps of both paths, taken from their directory
  have htarget : ∃ j, w.Leads directory [b] j (.found z) := by
    obtain ⟨directory', m', j, hdirs', hlast', -⟩ :=
      exists_directory hs.target ⟨hb.notHere, hb.notUp⟩ hz
    rw [hstart] at hdirs'
    obtain ⟨-, heq⟩ := hdirs.unique hdirs'
    exact ⟨j, Target.found.inj heq ▸ hlast'⟩
  obtain ⟨j, hlast'⟩ := htarget
  have hother : ∀ n y, w.Leads directory [b] n (.found y) → w.isDirectoryAt y = false := by
    intro n y hway
    obtain ⟨-, heq⟩ := hlast'.unique hway
    rwa [← Target.found.inj heq]
  have hway : (w.replace directory a b e).placeOf r = .ok y := by
    obtain ⟨hcheck, n, hn, hway⟩ := locate_eq_ok.1 (placeOf_eq_ok.1 hy)
    refine placeOf_eq_ok.2 (locate_eq_ok.2 ⟨hcheck, n, hn, ?_⟩)
    rcases hmovable.old_way hway with hkept | ⟨rest, i, -, hmeet | hmeet⟩
    · exact hkept
    · obtain ⟨-, heq⟩ := hmovable.way.ends_at_leaf hleaf hmeet
      exact absurd ⟨x, hx, Target.found.inj heq ▸ hy⟩ hp
    · obtain ⟨-, heq⟩ := hlast'.ends_at_leaf hzleaf hmeet
      exact absurd ⟨z, hz, Target.found.inj heq ▸ hy⟩ hq
  refine read_eq_ok.2 ⟨y, hway, ?_⟩
  -- a file at one of the two entries would be what one of the two paths leads to
  by_cases hyb : y = directory ++ [b]
  · subst hyb
    have hempty : c = .empty := by
      refine eq_empty_of_bytesAt hc fun bytes modified hfile => hq ⟨_, ?_, hy⟩
      obtain ⟨-, heq⟩ := hlast'.unique (.enter hmovable.above hb _ hfile (by simp) (.done _))
      rw [hz, Target.found.inj heq]
    by_cases hlink : ∃ target, e = .link target
    · obtain ⟨target, rfl⟩ := hlink
      rw [hempty, bytesAt, Movable.get?_target]
      simp
    · refine absurd ⟨_, ?_, hway⟩ (hq' hempty)
      have hend := hmovable.way_of_entry fun target heq => hlink ⟨target, heq⟩
      have hfirst := hmovable.way_kept hother hdirs hmovable.above
      exact hs.placeOf_target htext hfirst hend (by omega)
  · by_cases hya : y = directory ++ [a]
    · subst hya
      have hempty : c = .empty := by
        refine eq_empty_of_bytesAt hc fun bytes modified hfile => hp ⟨_, ?_, hy⟩
        obtain ⟨-, heq⟩ := hmovable.way.unique
          (.enter hmovable.above hmovable.source _ hfile (by simp) (.done _))
        rw [hx, Target.found.inj heq]
      rw [hempty, bytesAt, hmovable.get?_source]
      simp
    · rwa [bytesAt, ← Movable.get?_other w e hya hyb]

/-- **A path that led nowhere leads nowhere after a replacement**, unless it leads to the new
file. -/
theorem absent (h : w.Replaces w' p q dirs a b x) (hz : w'.placeOf q = .ok z)
    (hnone : w.pathExists r = false) (hq' : ¬ w'.Aliases q r) : w'.pathExists r = false := by
  obtain ⟨hs, hb, hab, hx, hleaf, h⟩ := h
  obtain ⟨directory, m, k, e, hdirs, -, hmovable, -, rfl⟩ := rename_movable hs hb hab hx hleaf h
  rw [← Bool.not_eq_true, pathExists_iff] at hnone ⊢
  rintro ⟨y, hy⟩
  obtain ⟨htext, n, hn, hway⟩ := locate_eq_ok.1 (placeOf_eq_ok.1 hy)
  rcases hmovable.new_way hway with hold | ⟨rest, i, -, hmeet⟩
  · exact hnone ⟨y, placeOf_eq_ok.2 (locate_eq_ok.2 ⟨htext, n, hn, hold⟩)⟩
  · obtain ⟨hfirst, -⟩ := hmovable.ends hmeet
    obtain ⟨j, hlast'⟩ := hmovable.exists_way_target hs hdirs hz
    obtain ⟨-, heq⟩ := hlast'.unique hfirst
    exact hq' ⟨z, hz, Target.found.inj heq ▸ hy⟩

end Replaces

end Workspace

namespace Budget

open Workspace

variable {w w' : Workspace} {p r : Path} {x : Place} {b b₀ : Budget} {c : ByteArray}

/-- **Nothing is made above an entry that is there.** -/
theorem housed_eq {w : Workspace} {p : Path} {x : Place} (hx : w.placeOf p = .ok x)
    (hname : endsInName (plainSteps p) = true)
    (hslash : endsInSlash p = false) : housed w p = w := by
  obtain ⟨before, last, hparted, hlast⟩ := Path.exists_parted_of_endsInName hname hslash
  obtain ⟨d, hparent, habsolute, hsteps⟩ := hparted.exists_parent hlast
  obtain ⟨directory, m, k, hdirs, -, hlinks, -⟩ :=
    exists_directory (hparted.steps hlast.nonempty) hlast.ofList hx
  have hstart : w.start d = w.start p := by rw [start, start, habsolute]
  have hway : w.Leads (w.start d) (plainSteps d) m (.found directory) := by
    rw [hstart]
    rcases hsteps with hsteps | ⟨hsteps, hhead⟩
    · exact hsteps ▸ hdirs.without_here
    · -- a leading step to the start itself is kept
      obtain ⟨rest, hrest⟩ := List.head?_eq_some_iff.1 hhead
      have hwithout := hdirs.without_here
      rw [hrest] at hdirs
      cases hdirs with
      | here hdir => exact hsteps ▸ .here hdir rfl hwithout
      | up _ hstep => exact absurd hstep (by decide)
      | enter _ hname | follow _ hname => exact absurd rfl hname.notHere
  rw [housed, hparent]
  simp only
  split
  · rfl
  · next hempty =>
    rw [making, makeAll]
    split
    · rfl
    · exact left_makeAfter hway (by omega) (by simpa using hempty)

/-- The temporary file of a budget, once it is written, is not what a path leads to. -/
def TemporaryApart (w : Workspace) (p r : Path) : Prop :=
  ∀ bytes w₁, w.write (temporaryPath p) bytes = .ok w₁ → ¬ w₁.Aliases (temporaryPath p) r

/-- A budget that is loaded is in an entry that can be read. -/
theorem place_of_load (h : load w p = .ok b) :
    ∃ z, w.placeOf p = .ok z ∧ w.isDirectoryAt z = false := by
  obtain ⟨bytes, text, hread, -, -⟩ := load_eq_ok.1 h
  obtain ⟨z, hz, hbytes⟩ := read_eq_ok.1 hread
  exact ⟨z, hz, leaf_of_bytesAt hbytes⟩

/-- A save over a budget writes the temporary file and puts it in place of the budget. -/
theorem exists_replaces (hb : load w p = .ok b₀) (hsave : (b.save p).exec w = (.ok (), w')) :
    ∃ w₁, w.write (temporaryPath p) b.fileText.toUTF8 = .ok w₁ ∧
      ∃ dirs name name' x, w₁.Replaces w' (temporaryPath p) p dirs name name' x := by
  obtain ⟨z, hz, -⟩ := place_of_load hb
  obtain ⟨w₁, hwrite, hrename⟩ := save_eq_ok hsave
  obtain ⟨hname, hslash⟩ := endsInName_of_rename hrename
  rw [housed_eq hz hname hslash] at hwrite
  obtain ⟨dirs, name, name', hsiblings, hnamed, hapart⟩ := siblings_of_rename hrename hz
  obtain ⟨-, x, e, hx, -, hleaf, -⟩ := write_cases hwrite
  exact ⟨w₁, hwrite, dirs, name, name', x, hsiblings, hnamed, hapart, hx, hleaf, hrename⟩

/-- **A path beside a budget reads the same after the budget is saved.** -/
theorem read_beside_save (hb : load w p = .ok b₀) (hsave : (b.save p).exec w = (.ok (), w'))
    (hp : TemporaryApart w p p) (hr : TemporaryApart w p r) (hread : w.read r = .ok c)
    (hapart : ¬ w.Aliases p r) (hquiet : c = .empty → ¬ w'.Aliases p r) : w'.read r = .ok c := by
  obtain ⟨w₁, hwrite, dirs, name, name', x, hreplaces⟩ := exists_replaces hb hsave
  obtain ⟨hputs, -⟩ := write_cases hwrite
  have hstands := hputs.stands (hr _ w₁ hwrite)
  have hbudget := hputs.stands (hp _ w₁ hwrite)
  obtain ⟨z, hz, hzleaf⟩ := place_of_load hb
  have hzleaf₁ : w₁.isDirectoryAt z = false := by
    rwa [isDirectoryAt, hbudget.entry z hz, ← isDirectoryAt]
  refine hreplaces.read ((hbudget.place z).2 hz) hzleaf₁ (hstands.read_eq_ok.2 hread)
    (hr _ w₁ hwrite) ?_ hquiet
  rintro ⟨y, hy, hy'⟩
  exact hapart ⟨y, (hbudget.place y).1 hy, (hstands.place y).1 hy'⟩

/-- **A path that led nowhere leads nowhere after a budget is saved**, or to the budget. -/
theorem absent_beside_save (hb : load w p = .ok b₀) (hsave : (b.save p).exec w = (.ok (), w'))
    (hregular : w'.isRegular p = true) (hr : TemporaryApart w p r)
    (hnone : w.pathExists r = false) (hapart : ¬ w'.Aliases p r) : w'.pathExists r = false := by
  obtain ⟨w₁, hwrite, dirs, name, name', x, hreplaces⟩ := exists_replaces hb hsave
  obtain ⟨hputs, -⟩ := write_cases hwrite
  obtain ⟨z, bytes, modified, hz, -, -⟩ := isRegular_iff.1 hregular
  exact hreplaces.absent hz ((hputs.stands (hr _ w₁ hwrite)).pathExists_eq.trans hnone) hapart

end Budget

end AnalysisGate
