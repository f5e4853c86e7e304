import AnalysisGate.Proofs.BudgetFile
import AnalysisGate.Proofs.Workspace.Actions
import AnalysisGate.Proofs.Workspace.Temporary
import Mathlib

/-!
Saving a budget over another one.

Wherever a save stops, the path of the budget still reads what it read before, or else it reads
the text of the new budget (`Budget.read_save`): the bytes are written to a sibling, and only the
last step, which happens as a whole or not at all, touches the path itself.
-/
namespace AnalysisGate

theorem Utf8.decode?_toUTF8 (s : String) : Utf8.decode? s.toUTF8 = some s := by
  rw [decode?, String.fromUTF8?]
  split
  · rfl
  · next hinvalid => exact absurd s.isValidUTF8 hinvalid

namespace Workspace

variable {w : Workspace} {p : Path} {text : String}

theorem readText_eq_ok : w.readText p = .ok text ↔
    ∃ bytes, w.read p = .ok bytes ∧ Utf8.decode? bytes = some text := by
  rw [readText, bind_eq_ok]
  refine exists_congr fun bytes => and_congr_right fun _ => ?_
  cases Utf8.decode? bytes <;> simp [pure, Except.pure]

theorem readText_of_read (h : w.read p = .ok text.toUTF8) : w.readText p = .ok text :=
  readText_eq_ok.2 ⟨text.toUTF8, h, Utf8.decode?_toUTF8 text⟩

end Workspace

namespace Budget

open Workspace

variable {w : Workspace} {p : Path} {b : Budget}

/-- The file that a budget is written to before it replaces the one at its path. -/
def temporaryPath (p : Path) : Path := p.withExtension "json.tmp"

/-- The tree in which a budget is written: with the directory of its file, or with as much of it as
can be made. -/
def housed (w : Workspace) (p : Path) : Workspace :=
  match p.parent? with
  | none => w
  | some directory => if directory.text.isEmpty then w else w.making directory

theorem housed_grows (w : Workspace) (p : Path) : w.Grows (housed w p) := by
  rw [housed]
  split
  · exact .refl w
  · next directory _ =>
    split
    · exact .refl w
    · exact making_grows w directory

/-- The first step of a save. -/
def house (p : Path) : FileAction RatchetError Unit :=
  match p.parent? with
  | some directory =>
    if directory.text.isEmpty then pure ()
    else FileAction.makeDirectories directory (.file p)
  | none => pure ()

theorem exec_house (w : Workspace) (p : Path) : ((house p).exec w).2 = housed w p := by
  rw [house, housed]
  split
  · next directory hparent =>
    rw [hparent]
    simp only
    split
    · rfl
    · exact FileAction.exec_makeDirectories_snd directory _ w
  · next hparent =>
    rw [hparent]
    rfl

theorem save_eq (b : Budget) (p : Path) : b.save p = (house p >>= fun _ => do
    FileAction.change fun w => (w.write (temporaryPath p) b.fileText.toUTF8).mapError (.file p)
    FileAction.change fun w => (w.rename (temporaryPath p) p).mapError (.file p)) := by
  rw [save, house]
  cases p.parent? with
  | none => rfl
  | some directory => cases hempty : directory.text.isEmpty <;> simp [hempty, temporaryPath]

/-- Where a save can stop: before the temporary file is written, before it replaces the file, or
after that. -/
theorem exec_save (b : Budget) (w : Workspace) (p : Path) :
    ((b.save p).exec w).2 = housed w p ∨
      ∃ w', (housed w p).write (temporaryPath p) b.fileText.toUTF8 = .ok w' ∧
        (((b.save p).exec w).2 = w' ∨
          w'.rename (temporaryPath p) p = .ok ((b.save p).exec w).2) := by
  have hhouse := exec_house w p
  rw [save_eq, FileAction.exec_bind]
  rcases hstep : (house p).exec w with ⟨_ | ⟨⟩, w₁⟩
  · rw [hstep] at hhouse
    exact .inl hhouse
  · rw [hstep] at hhouse
    obtain rfl : w₁ = housed w p := hhouse
    simp only [FileAction.exec_bind, FileAction.exec_change]
    cases hwrite : (housed w p).write (temporaryPath p) b.fileText.toUTF8 with
    | error e => exact .inl rfl
    | ok w' =>
      refine .inr ⟨w', rfl, ?_⟩
      simp only [Except.mapError]
      cases hrename : w'.rename (temporaryPath p) p with
      | error e => exact .inl rfl
      | ok w'' => exact .inr rfl

/-- A save that succeeds has written the temporary file and put it in place of the file. -/
theorem save_eq_ok {w' : Workspace} (h : (b.save p).exec w = (.ok (), w')) :
    ∃ w₁, (housed w p).write (temporaryPath p) b.fileText.toUTF8 = .ok w₁ ∧
      w₁.rename (temporaryPath p) p = .ok w' := by
  rw [save_eq] at h
  obtain ⟨_, w₀, hhouse, h⟩ := FileAction.exec_bind_eq_ok.1 h
  obtain ⟨_, w₁, hwrite, hrename⟩ := FileAction.exec_bind_eq_ok.1 h
  have hhoused := exec_house w p
  rw [hhouse] at hhoused
  obtain rfl : w₀ = housed w p := hhoused
  exact ⟨w₁, FileAction.exec_change_eq_ok.1 hwrite, FileAction.exec_change_eq_ok.1 hrename⟩

/-- A path that a budget was moved to, and the temporary path beside it. -/
theorem siblings_of_rename {w' v : Workspace} {x : Place}
    (h : w.rename (temporaryPath p) p = .ok w') (hx : v.placeOf p = .ok x) :
    ∃ dirs name name', Siblings (temporaryPath p) p dirs name name' ∧ Named name' ∧
      name ≠ name' := by
  obtain ⟨hname, hslash⟩ := endsInName_of_rename h
  obtain ⟨before, last, hparted, hlast⟩ := Path.exists_parted_of_endsInName hname hslash
  have hsiblings : Siblings (temporaryPath p) p _ _ _ :=
    hparted.siblings hlast (by decide) (by decide)
  obtain ⟨-, -, -, -, -, -, -, hnamed, -⟩ := exists_directory hsiblings.target hlast.ofList hx
  refine ⟨_, _, _, hsiblings, hnamed, fun heq => ?_⟩
  exact Path.splitName_append_ne (e := "json".toList) (f := "tmp".toList) (by decide)
    (String.ofList_injective heq)

/-- **A save leaves at a budget's path what was there, or the new budget.** What takes bytes
without keeping them leaves nothing to read. -/
theorem read_save {bytes : ByteArray} {x : Place} (b : Budget) (hx : w.placeOf p = .ok x)
    (hentry : (w.entries.get? x).isSome) (hread : w.bytesAt x = .ok bytes)
    (halias : ¬ (housed w p).Aliases (temporaryPath p) p) :
    ((b.save p).exec w).2.read p ∈
      ([.ok bytes, .ok b.fileText.toUTF8, .ok .empty] : List (Except FileError ByteArray)) := by
  have hgrows := housed_grows w p
  have hx₁ := hgrows.extended.placeOf hx
  have hread₁ := hgrows.bytesAt hentry hread
  have hentry₁ : ((housed w p).entries.get? x).isSome := by
    obtain ⟨e, he⟩ := Option.isSome_iff_exists.1 hentry
    simp [hgrows.keeps he]
  rcases exec_save b w p with hstop | ⟨w', hwrite, hstop | hrename⟩
  · rw [hstop, read_eq hx₁, hread₁]
    simp
  · obtain ⟨y, hwritten⟩ := write_spec hwrite
    rw [hstop, hwritten.read hx₁ (hwritten.apart hx₁ hentry₁ halias), read_eq hx₁, hread₁]
    simp
  · obtain ⟨y, hwritten⟩ := write_spec hwrite
    have hne := hwritten.apart hx₁ hentry₁ halias
    have hx₂ := hwritten.extended.placeOf hx₁
    have halias₂ : ¬ w'.Aliases (temporaryPath p) p := by
      rintro ⟨z, hz, hz'⟩
      rw [hwritten.place] at hz
      rw [hx₂] at hz'
      exact hne ((Except.ok.inj hz').trans (Except.ok.inj hz).symm)
    have hleaf : w'.isDirectoryAt x = false := by
      rw [isDirectoryAt, hwritten.others hne, ← isDirectoryAt]
      exact leaf_of_bytesAt hread₁
    obtain ⟨dirs, name, name', hsiblings, hnamed, -⟩ := siblings_of_rename hrename hx₂
    obtain ⟨z, hz, hbytes, -⟩ := rename_spec hsiblings hnamed hwritten.place hwritten.leaf
      halias₂ (replaceable_of_leaf hx₂ hleaf) hrename
    rw [read_eq hz, hbytes]
    rcases hwritten.kept with hfile | ⟨-, hempty⟩
    · have hnonempty : y ≠ [] := by
        rintro rfl
        cases hwritten.leaf
      simp [bytesAt, hfile, hnonempty]
    · simp [hempty]

end Budget

end AnalysisGate
