import AnalysisGate.Workspace.Change
import Mathlib

/-!
Actions step by step.

An action runs its parts on the tree that the parts before have left, and stops at the first
failure.
-/
namespace AnalysisGate.FileAction

variable {ε α β : Type} {w : Workspace}

@[simp] theorem exec_pure (a : α) : (pure a : FileAction ε α).exec w = (.ok a, w) := rfl

@[simp] theorem exec_bind (act : FileAction ε α) (f : α → FileAction ε β) :
    (act >>= f).exec w =
      match act.exec w with
      | (.ok a, w') => (f a).exec w'
      | (.error e, w') => (.error e, w') := by
  change (ExceptT.bind act f).run w = match act.run.run w with
      | (.ok a, w') => (f a).exec w'
      | (.error e, w') => (.error e, w')
  simp only [ExceptT.bind, ExceptT.run, ExceptT.mk, StateT.run, bind, StateT.bind]
  rcases act w with ⟨_ | a, w'⟩ <;> rfl

theorem exec_get : (get : FileAction ε Workspace).exec w = (.ok w, w) := rfl

@[simp] theorem exec_look (f : Workspace → Except ε α) : (look f).exec w = (f w, w) := by
  rw [look, exec_bind, exec_get]
  cases hf : f w <;> simp only [hf] <;> rfl

@[simp] theorem exec_change (f : Workspace → Except ε Workspace) :
    (change f).exec w =
      match f w with
      | .ok w' => (.ok (), w')
      | .error e => (.error e, w) := by
  rw [change, exec_bind, exec_get]
  cases hf : f w <;> simp only [hf] <;> rfl

@[simp] theorem exec_makeDirectories (p : Path) (word : FileError → ε) :
    (makeDirectories p word).exec w =
      match w.makeAll p with
      | .ok w' => (.ok (), w')
      | .error (e, w') => (.error (word e), w') := by
  rw [makeDirectories, exec_bind, exec_get]
  cases h : w.makeAll p <;> simp only [h] <;> rfl

@[simp] theorem exec_lift (r : Except ε α) : (lift r : FileAction ε α).exec w = (r, w) := by
  cases r <;> rfl

/-! ## Actions that succeed -/

theorem exec_bind_eq_ok {act : FileAction ε α} {f : α → FileAction ε β} {b : β}
    {w' : Workspace} :
    (act >>= f).exec w = (.ok b, w') ↔
      ∃ a w₁, act.exec w = (.ok a, w₁) ∧ (f a).exec w₁ = (.ok b, w') := by
  rw [exec_bind]
  rcases act.exec w with ⟨e | a, w₁⟩ <;> simp

theorem exec_look_eq_ok {f : Workspace → Except ε α} {a : α} {w' : Workspace} :
    (look f).exec w = (.ok a, w') ↔ f w = .ok a ∧ w = w' := by
  rw [exec_look, Prod.mk.injEq]

theorem exec_lift_eq_ok {r : Except ε α} {a : α} {w' : Workspace} :
    (lift r).exec w = (.ok a, w') ↔ r = .ok a ∧ w = w' := by
  rw [exec_lift, Prod.mk.injEq]

/-- A change whose failures are told in other words. -/
theorem exec_change_eq_ok {ε' : Type} {f : Workspace → Except ε' Workspace} {word : ε' → ε}
    {u : Unit} {w' : Workspace} :
    (change fun w => (f w).mapError word).exec w = (.ok u, w') ↔ f w = .ok w' := by
  rw [exec_change]
  cases f w <;> simp [Except.mapError]

theorem exec_makeDirectories_eq_ok {p : Path} {word : FileError → ε} {u : Unit} {w' : Workspace} :
    (makeDirectories p word).exec w = (.ok u, w') ↔ w.makeDirectories p = .ok w' := by
  rw [exec_makeDirectories, Workspace.makeDirectories]
  cases w.makeAll p <;> simp [Except.mapError]

/-- What could be made of directories stays, whatever comes of it. -/
theorem exec_makeDirectories_snd (p : Path) (word : FileError → ε) (w : Workspace) :
    ((makeDirectories p word).exec w).2 = w.making p := by
  rw [exec_makeDirectories, Workspace.making]
  cases w.makeAll p <;> rfl

/-! ## Actions that fail -/

/-- A failure is one of the first part, or of what follows on the tree that this one leaves. -/
theorem exec_bind_eq_error {act : FileAction ε α} {f : α → FileAction ε β} {e : ε}
    {w' : Workspace} :
    (act >>= f).exec w = (.error e, w') ↔
      act.exec w = (.error e, w') ∨
        ∃ a w₁, act.exec w = (.ok a, w₁) ∧ (f a).exec w₁ = (.error e, w') := by
  rw [exec_bind]
  rcases act.exec w with ⟨e' | a, w₁⟩ <;> simp

theorem exec_look_eq_error {f : Workspace → Except ε α} {e : ε} {w' : Workspace} :
    (look f).exec w = (.error e, w') ↔ f w = .error e ∧ w = w' := by
  rw [exec_look, Prod.mk.injEq]

theorem exec_lift_eq_error {r : Except ε α} {e : ε} {w' : Workspace} :
    (lift r : FileAction ε α).exec w = (.error e, w') ↔ r = .error e ∧ w = w' := by
  rw [exec_lift, Prod.mk.injEq]

/-- A change that fails changes nothing. -/
theorem exec_change_eq_error {f : Workspace → Except ε Workspace} {e : ε} {w' : Workspace} :
    (change f).exec w = (.error e, w') ↔ f w = .error e ∧ w = w' := by
  rw [exec_change]
  cases f w <;> simp

end AnalysisGate.FileAction
