import AnalysisGate.Text.Blank
import AnalysisGate.Text.Numeral
import Mathlib

/-!
What is left of a text without the blanks around it.

Taking the blanks from both sides of a text leaves the one part of it that has nothing but blanks
before and after it, and none at its own ends (`Text.trim_eq_iff`).
-/
namespace AnalysisGate.Text

variable {c : Char} {cs core before after rest : List Char}

theorem isBlank_of_isDigit (h : Numeral.isDigit c = true) : isBlank c = false := by
  simp only [Numeral.isDigit, Bool.and_eq_true, decide_eq_true_eq] at h
  have hlow : 48 ≤ c.toNat := h.1
  have hhigh : c.toNat ≤ 57 := h.2
  simp [isBlank]
  omega

theorem trimStart_cons (h : isBlank c = false) : trimStart (c :: rest) = c :: rest := by
  rw [trimStart, List.dropWhile_cons, h]
  rfl

theorem trimStart_append (h : ∀ c ∈ before, isBlank c = true) :
    trimStart (before ++ rest) = trimStart rest := by
  rw [trimStart, List.dropWhile_append_of_pos h]
  rfl

theorem trimEnd_append (h : ∀ c ∈ after, isBlank c = true) :
    trimEnd (rest ++ after) = trimEnd rest := by
  rw [trimEnd, List.reverse_append, List.dropWhile_append_of_pos (by simpa using h)]
  rfl

/-- A text has only blanks around a part of it, and the part has none at its ends. -/
structure Strips (cs core : List Char) : Prop where
  around : ∃ before after, cs = before ++ core ++ after ∧
    (∀ c ∈ before, isBlank c = true) ∧ ∀ c ∈ after, isBlank c = true
  first : ∀ c ∈ core.head?, isBlank c = false
  last : ∀ c ∈ core.getLast?, isBlank c = false

/-- A text without blanks has nothing around it. -/
theorem strips_self (h : ∀ c ∈ cs, isBlank c = false) : Strips cs cs where
  around := ⟨[], [], by simp, by simp, by simp⟩
  first _ hc := h _ (List.mem_of_mem_head? hc)
  last _ hc := h _ (List.mem_of_mem_getLast? hc)

theorem trimStart_of_first (h : ∀ c ∈ cs.head?, isBlank c = false) : trimStart cs = cs := by
  cases cs with
  | nil => rfl
  | cons c cs => exact trimStart_cons (h c rfl)

theorem trimEnd_of_last (h : ∀ c ∈ cs.getLast?, isBlank c = false) : trimEnd cs = cs := by
  have hstart : trimStart cs.reverse = cs.reverse :=
    trimStart_of_first fun c hc => h c (by rwa [List.head?_reverse] at hc)
  rw [trimEnd, ← trimStart, hstart, List.reverse_reverse]

/-- The blanks before a text are taken from it, and it starts with none then. -/
theorem trimStart_spec (cs : List Char) :
    (∃ before, cs = before ++ trimStart cs ∧ ∀ c ∈ before, isBlank c = true) ∧
      ∀ c ∈ (trimStart cs).head?, isBlank c = false := by
  refine ⟨⟨cs.takeWhile isBlank, List.takeWhile_append_dropWhile.symm,
    fun c => List.mem_takeWhile_imp⟩, fun c hc => ?_⟩
  have hhead := List.head?_dropWhile_not isBlank cs
  rw [trimStart] at hc
  rwa [hc] at hhead

/-- The blanks after a text are taken from it, and it ends with none then. -/
theorem trimEnd_spec (cs : List Char) :
    (∃ after, cs = trimEnd cs ++ after ∧ ∀ c ∈ after, isBlank c = true) ∧
      ∀ c ∈ (trimEnd cs).getLast?, isBlank c = false := by
  obtain ⟨⟨before, hbefore, hblank⟩, hfirst⟩ := trimStart_spec cs.reverse
  refine ⟨⟨before.reverse, ?_, fun c hc => hblank c (List.mem_reverse.1 hc)⟩, fun c hc => ?_⟩
  · calc cs = cs.reverse.reverse := (List.reverse_reverse cs).symm
      _ = (before ++ trimStart cs.reverse).reverse := congrArg List.reverse hbefore
      _ = trimEnd cs ++ before.reverse := List.reverse_append
  · rw [trimEnd, List.getLast?_reverse] at hc
    exact hfirst c hc

theorem strips_trim (cs : List Char) : Strips cs (trim cs) := by
  obtain ⟨⟨before, hbefore, hblank⟩, hfirst⟩ := trimStart_spec cs
  obtain ⟨⟨after, hafter, hblank'⟩, hlast⟩ := trimEnd_spec (trimStart cs)
  refine ⟨⟨before, after, ?_, hblank, hblank'⟩, fun c hc => hfirst c ?_, hlast⟩
  · rw [List.append_assoc, trim, ← hafter, ← hbefore]
  · rw [hafter, List.head?_append, show (trimEnd (trimStart cs)).head? = some c from hc]
    rfl

/-- **Trimming leaves the one part that has only blanks around it and none at its ends.** -/
theorem trim_eq_iff : trim cs = core ↔ Strips cs core := by
  constructor
  · rintro rfl
    exact strips_trim cs
  · rintro ⟨⟨before, after, rfl, hbefore, hafter⟩, hfirst, hlast⟩
    -- the blanks after the part go first: there may be nothing before them
    have hcore : trimStart (core ++ after) = core ++ after ∨ core = [] := by
      cases core with
      | nil => exact .inr rfl
      | cons c core => exact .inl (trimStart_cons (hfirst c rfl))
    rw [trim, List.append_assoc, trimStart_append hbefore]
    rcases hcore with hcore | rfl
    · rw [hcore, trimEnd_append hafter, trimEnd_of_last hlast]
    · have hnone : trimStart after = [] := List.dropWhile_eq_nil_iff.2 hafter
      rw [List.nil_append, hnone]
      rfl

end AnalysisGate.Text
