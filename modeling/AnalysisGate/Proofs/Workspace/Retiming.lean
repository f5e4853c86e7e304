import AnalysisGate.Proofs.Workspace.Standing
import Mathlib

/-!
Trees that differ in times only.

Bytes that are written where they stand already change nothing but the time of their file
(`Bears.write`). Paths lead to the same entries in trees that differ in times only, and read the
same (`Retimed.keeps`).
-/
namespace AnalysisGate

/-- An entry as of time zero. -/
def Entry.untimed : Entry → Entry
  | .file bytes _ => .file bytes 0
  | e => e

namespace Workspace

variable {w w' w'' : Workspace} {x : Place} {p q : Path} {bytes : ByteArray}

/-! ## Paths that read the same -/

/-- A path that could be read reads the same bytes, and one that led nowhere leads nowhere. -/
structure Keeps (w w' : Workspace) (p : Path) : Prop where
  absent : w.pathExists p = false → w'.pathExists p = false
  read : ∀ bytes, w.read p = .ok bytes → w'.read p = .ok bytes

namespace Keeps

theorem refl (w : Workspace) (p : Path) : w.Keeps w p := ⟨id, fun _ => id⟩

theorem trans (h : w.Keeps w' p) (h' : w'.Keeps w'' p) : w.Keeps w'' p :=
  ⟨h'.absent ∘ h.absent, fun bytes => h'.read bytes ∘ h.read bytes⟩

end Keeps

theorem Stands.keeps (h : w.Stands w' p) : w.Keeps w' p :=
  ⟨fun hnone => h.pathExists_eq.trans hnone, fun _ => h.read_eq_ok.2⟩

/-- A path exists if it leads to a place. -/
theorem pathExists_iff : w.pathExists p = true ↔ ∃ x, w.placeOf p = .ok x := by
  rw [pathExists, stat]
  cases w.placeOf p <;> simp [Except.map, Except.isOk, Except.toBool]

/-! ## Times -/

/-- Trees of the same entries, up to the times of their files. -/
structure Retimed (w w' : Workspace) : Prop where
  here : w'.here = w.here
  entries : ∀ x, (w'.entries.get? x).map Entry.untimed = (w.entries.get? x).map Entry.untimed

namespace Retimed

theorem refl (w : Workspace) : w.Retimed w := ⟨rfl, fun _ => rfl⟩

theorem symm (h : w.Retimed w') : w'.Retimed w := ⟨h.here.symm, fun x => (h.entries x).symm⟩

theorem trans (h : w.Retimed w') (h' : w'.Retimed w'') : w.Retimed w'' :=
  ⟨h'.here.trans h.here, fun x => (h'.entries x).trans (h.entries x)⟩

/-- An entry has one of another time in its place. -/
theorem get?_of_get? (h : w.Retimed w') {e : Entry} (he : w.entries.get? x = some e) :
    ∃ e', w'.entries.get? x = some e' ∧ e'.untimed = e.untimed := by
  have hentry := h.entries x
  rw [he, Option.map_some] at hentry
  exact Option.map_eq_some_iff.1 hentry

theorem extended (h : w.Retimed w') : w.Extends w' where
  here := h.here
  routes {x e} he := by
    obtain ⟨e', he', huntimed⟩ := h.get?_of_get? he
    refine ⟨e', he', ?_⟩
    cases e <;> cases e' <;> cases huntimed <;> rfl

theorem placeOf_iff (h : w.Retimed w') : w'.placeOf p = .ok x ↔ w.placeOf p = .ok x :=
  ⟨h.symm.extended.placeOf, h.extended.placeOf⟩

theorem bytesAt_eq (h : w.Retimed w') (x : Place) : w'.bytesAt x = w.bytesAt x := by
  have hentry := h.entries x
  rw [bytesAt, bytesAt]
  cases he : w.entries.get? x with
  | none =>
    rw [he, Option.map_none, Option.map_eq_none_iff] at hentry
    rw [hentry]
  | some e =>
    obtain ⟨e', he', huntimed⟩ := h.get?_of_get? he
    rw [he']
    cases e <;> cases e' <;> cases huntimed <;> rfl

/-- **Paths read the same in trees that differ in times only.** -/
theorem keeps (h : w.Retimed w') (p : Path) : w.Keeps w' p where
  absent hnone := by
    rw [← Bool.not_eq_true, pathExists_iff] at hnone ⊢
    exact fun ⟨x, hx⟩ => hnone ⟨x, h.placeOf_iff.1 hx⟩
  read bytes hread := by
    obtain ⟨x, hx, hbytes⟩ := read_eq_ok.1 hread
    exact read_eq_ok.2 ⟨x, h.placeOf_iff.2 hx, (h.bytesAt_eq x).trans hbytes⟩

theorem aliases_iff (h : w.Retimed w') : w'.Aliases p q ↔ w.Aliases p q :=
  exists_congr fun _ => and_congr h.placeOf_iff h.placeOf_iff

theorem bears (h : w.Retimed w') (hp : w.Bears p bytes) : w'.Bears p bytes := by
  obtain ⟨x, e, hx, he, hleaf, hbytes⟩ := hp
  obtain ⟨e', he', huntimed⟩ := h.get?_of_get? he
  refine ⟨x, e', h.placeOf_iff.2 hx, he', ?_, ?_⟩
  · rw [← Bool.not_eq_true] at hleaf ⊢
    exact fun hdir => hleaf (h.symm.extended.isDirectoryAt hdir)
  · rintro b modified rfl
    cases e with
    | file b' modified' =>
      obtain ⟨rfl, -⟩ := Entry.file.inj huntimed
      exact hbytes _ _ rfl
    | directory | link | pipe | device => cases huntimed

end Retimed

/-! ## Bytes that are written again -/

theorem endsInName_of_write (h : w.write q bytes = .ok w') :
    endsInName (plainSteps q) = true ∧ endsInSlash q = false := by
  obtain ⟨x, hopen, -⟩ := write_eq_ok h
  exact endsInName_of_open hopen

/-- **Bytes that stand at a path can be written there again**, which changes no more than a time. -/
theorem Bears.write (h : w.Bears q bytes) (hname : endsInName (plainSteps q) = true)
    (hslash : endsInSlash q = false) :
    ∃ w', w.write q bytes = .ok w' ∧ w.Retimed w' := by
  obtain ⟨x, e, hx, he, hleaf, hbytes⟩ := h
  rw [Workspace.write, openForWriting_found hname hslash hx hleaf]
  simp only [bind, Except.bind, he, pure, Except.pure]
  cases e with
  | file b modified =>
    obtain rfl := hbytes b modified rfl
    refine ⟨_, rfl, rfl, fun y => ?_⟩
    rw [get?_put]
    split
    · next hy =>
      rw [hy, he]
      rfl
    · rfl
  | directory | link | pipe | device => exact ⟨w, rfl, .refl w⟩

end Workspace

end AnalysisGate
