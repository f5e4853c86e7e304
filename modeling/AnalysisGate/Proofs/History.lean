import AnalysisGate.Proofs.Allowances
import Mathlib

/-!
Histories of a budget.

A history is a list of passes over a budget, each an update or a refresh with a manifest and a
selection of its own. What it leaves of an allowance has a closed form: the least count of the
updates that select the run, or the floor where that is larger, but never more than there was at
first. The form does not mention the order of the passes.
-/
namespace AnalysisGate

/-- One pass over a budget. -/
inductive Pass
  | update (m : Manifest) (selection : Selection)
  | refresh (m : Manifest) (selection : Selection)

namespace Pass

def apply (b : Budget) : Pass → Budget
  | update m selection => Ratchet.update m b selection
  | refresh m selection => Ratchet.refresh m b selection

def manifest : Pass → Manifest
  | update m _ | refresh m _ => m

/-- The manifest of the pass is accepted, and its sums are counts. -/
def Sound (p : Pass) : Prop := p.manifest.Accepted ∧ p.manifest.Countable

/-- The count that a pass holds against a cell: an update that selects the run has one. -/
def count? (run path : String) (s : Severity) : Pass → Option Nat
  | update m selection => if selection.includes run then some (m.tally run path s) else none
  | refresh _ _ => none

end Pass

namespace Budget

/-- A budget after a history. -/
def after (b : Budget) (history : List Pass) : Budget := history.foldl Pass.apply b

/-- The floor of a severity in a run. -/
def floor (b : Budget) (run : String) (s : Severity) : UInt64 :=
  ((b.runs.get? run).getD .empty).floor s

end Budget

/-- The least count that a history holds against a cell, if it holds any. -/
def leastCount (history : List Pass) (run path : String) (s : Severity) : Option Nat :=
  (history.filterMap (Pass.count? run path s)).min?

/-- Where an allowance comes to rest under a floor, given the least count held against it. -/
def settled (floor allowed : Nat) : Option Nat → Nat
  | none => allowed
  | some least => min allowed (max floor least)

/-! ## One pass -/

/-- A run that the budget does not have allows nothing. -/
theorem Budget.allowed_of_absent {b : Budget} {run : String} (h : b.runs.get? run = none)
    (path : String) (s : Severity) : b.allowed run path s = 0 := by
  unfold Budget.allowed
  rw [h]
  rfl

@[simp] theorem leastCount_singleton (p : Pass) (run path : String) (s : Severity) :
    leastCount [p] run path s = p.count? run path s := by
  unfold leastCount
  cases h : p.count? run path s <;> simp [h]

namespace Pass

/-- What a pass leaves of a run that the budget has. -/
structure Settles (history : List Pass) (run : String) (held now : RunBudget) : Prop where
  severities : now.severities = held.severities
  targets : now.targets = held.targets
  allowed : ∀ path s, (now.allowed path s).toNat =
    settled (held.floor s).toNat (held.allowed path s).toNat (leastCount history run path s)

theorem apply_held {p : Pass} (hp : p.Sound) {b : Budget} {run : String} {held : RunBudget}
    (h : b.runs.get? run = some held) :
    ∃ now, (p.apply b).runs.get? run = some now ∧ Settles [p] run held now := by
  cases p with
  | update m selection =>
    obtain ⟨-, hfit⟩ : m.Accepted ∧ m.Countable := hp
    have hget := Ratchet.get?_update m b selection run
    rw [h, Option.map_some] at hget
    refine ⟨_, hget, ?_⟩
    cases hselected : selection.includes run with
    | false =>
      refine ⟨rfl, rfl, fun path s => ?_⟩
      simp [count?, hselected, settled]
    | true =>
      refine ⟨rfl, rfl, fun path s => ?_⟩
      -- a selected run is tightened to the count of this pass, which is the only one
      rw [if_pos rfl, Ratchet.allowed_updateRun, Ratchet.toNat_tighten,
        UInt64.toNat_ofNat_of_lt' (hfit.tally_lt run path s)]
      simp [count?, hselected, settled]
  | refresh m selection =>
    obtain ⟨haccepted, -⟩ : m.Accepted ∧ m.Countable := hp
    have hget := Ratchet.get?_refresh haccepted b selection run
    -- a refresh counts nothing, so no allowance settles
    have hkept : ∀ path s, (held.allowed path s).toNat = settled (held.floor s).toNat
        (held.allowed path s).toNat (leastCount [.refresh m selection] run path s) := by
      intro path s
      simp [count?, settled]
    rw [h] at hget
    split at hget
    · split at hget
      · exact ⟨_, hget, rfl, rfl, hkept⟩
      · exact ⟨held, hget, rfl, rfl, hkept⟩
    · exact ⟨held, hget, rfl, rfl, hkept⟩

/-- Nor does it after a pass. -/
theorem allowed_apply_absent {p : Pass} (hp : p.manifest.Accepted) {b : Budget} {run : String}
    (h : b.runs.get? run = none) (path : String) (s : Severity) :
    (p.apply b).allowed run path s = 0 := by
  unfold Budget.allowed
  cases p with
  | update m selection => rw [apply, Ratchet.get?_update, h]; rfl
  | refresh m selection =>
    have haccepted : m.Accepted := hp
    rw [apply, Ratchet.get?_refresh haccepted, h]
    cases m.run? run with
    | none => rfl
    | some r => cases selection.includes run <;> rfl

/-- A pass raises no allowance, even where the sums of its manifest are no counts. -/
theorem allowed_apply_le {p : Pass} (hp : p.manifest.Accepted) (b : Budget) (run path : String)
    (s : Severity) : (p.apply b).allowed run path s ≤ b.allowed run path s := by
  cases h : b.runs.get? run with
  | none =>
    rw [allowed_apply_absent hp h]
    exact UInt64.zero_le
  | some held =>
    unfold Budget.allowed
    cases p with
    | update m selection =>
      rw [apply, Ratchet.get?_update, h, Option.map_some, Option.getD_some, Option.getD_some]
      cases selection.includes run with
      | false => exact UInt64.le_refl _
      | true =>
        rw [if_pos rfl, Ratchet.allowed_updateRun, UInt64.le_iff_toNat_le, Ratchet.toNat_tighten]
        exact Nat.min_le_left _ _
    | refresh m selection =>
      have haccepted : m.Accepted := hp
      rw [apply, Ratchet.get?_refresh haccepted, h]
      cases m.run? run with
      | none => exact UInt64.le_refl _
      | some r =>
        cases selection.includes run with
        | false => exact UInt64.le_refl _
        | true => exact UInt64.le_of_eq (Ratchet.allowed_refreshRun r (some held) path s)

end Pass

/-! ## Histories -/

theorem leastCount_cons (p : Pass) (rest : List Pass) (run path : String) (s : Severity) :
    leastCount (p :: rest) run path s =
      match p.count? run path s, leastCount rest run path s with
      | none, later => later
      | some n, none => some n
      | some n, some k => some (min n k) := by
  unfold leastCount
  cases hp : p.count? run path s with
  | none => simp [hp]
  | some n =>
    cases hl : (rest.filterMap (Pass.count? run path s)).min? <;>
      simp [hp, hl]

/-- To settle against one count and then against others is to settle against the least of all. -/
theorem settled_settled (floor allowed : Nat) (first later : Option Nat) :
    settled floor (settled floor allowed first) later =
      settled floor allowed (match first, later with
        | none, later => later
        | some n, none => some n
        | some n, some k => some (min n k)) := by
  cases first <;> cases later <;> simp only [settled]
  omega

/-- The order in which counts are held against a cell does not matter. -/
theorem leastCount_perm {h₁ h₂ : List Pass} (h : h₁.Perm h₂) (run path : String) (s : Severity) :
    leastCount h₁ run path s = leastCount h₂ run path s := by
  unfold leastCount
  have hperm := h.filterMap (Pass.count? run path s)
  refine Option.ext fun n => ?_
  simp only [List.min?_eq_some_iff, hperm.mem_iff]

namespace Budget

theorem after_append (b : Budget) (first later : List Pass) :
    b.after (first ++ later) = (b.after first).after later :=
  List.foldl_append

/-- A run that a budget has stays, with what its allowances settle to. -/
theorem after_held {history : List Pass} (hsound : ∀ p ∈ history, p.Sound) {b : Budget}
    {run : String} {held : RunBudget} (h : b.runs.get? run = some held) :
    ∃ now, (b.after history).runs.get? run = some now ∧ Pass.Settles history run held now := by
  induction history generalizing b held with
  | nil => exact ⟨held, h, rfl, rfl, fun path s => by simp [leastCount, settled]⟩
  | cons p rest ih =>
    obtain ⟨next, hnext, hfirst⟩ := Pass.apply_held (hsound p List.mem_cons_self) h
    obtain ⟨now, hnow, hlater⟩ := ih (fun q hq => hsound q (List.mem_cons_of_mem p hq)) hnext
    refine ⟨now, hnow, hlater.severities.trans hfirst.severities,
      hlater.targets.trans hfirst.targets, fun path s => ?_⟩
    have hfloor : next.floor s = held.floor s := by simp [RunBudget.floor, hfirst.targets]
    rw [hlater.allowed, hfirst.allowed, hfloor, leastCount_singleton, settled_settled,
      ← leastCount_cons]

theorem allowed_after_le {history : List Pass} (hsound : ∀ p ∈ history, p.Sound) (b : Budget)
    (run path : String) (s : Severity) :
    (b.after history).allowed run path s ≤ b.allowed run path s := by
  induction history generalizing b with
  | nil => exact UInt64.le_refl _
  | cons p rest ih =>
    have hp := hsound p List.mem_cons_self
    have hrest := ih (fun q hq => hsound q (List.mem_cons_of_mem p hq)) (p.apply b)
    exact UInt64.le_trans hrest (Pass.allowed_apply_le hp.1 b run path s)

theorem allowed_after_absent {history : List Pass} (hsound : ∀ p ∈ history, p.Sound) {b : Budget}
    {run : String} (h : b.runs.get? run = none) (path : String) (s : Severity) :
    (b.after history).allowed run path s = 0 := by
  have hle := allowed_after_le hsound b run path s
  rw [allowed_of_absent h] at hle
  exact UInt64.le_antisymm hle UInt64.zero_le

theorem allowed_after_perm {history other : List Pass} (hsound : ∀ p ∈ history, p.Sound)
    (hperm : other.Perm history) (b : Budget) (run path : String) (s : Severity) :
    (b.after other).allowed run path s = (b.after history).allowed run path s := by
  have hother : ∀ p ∈ other, p.Sound := fun p hp => hsound p (hperm.mem_iff.1 hp)
  cases h : b.runs.get? run with
  | none => rw [allowed_after_absent hother h, allowed_after_absent hsound h]
  | some held =>
    obtain ⟨x, hx, hxs⟩ := after_held hother h
    obtain ⟨y, hy, hys⟩ := after_held hsound h
    rw [← UInt64.toNat_inj]
    simp only [allowed, hx, hy, Option.getD_some]
    rw [hxs.allowed, hys.allowed, leastCount_perm hperm]

theorem floor_le_allowed_after {history : List Pass} (hsound : ∀ p ∈ history, p.Sound) (b : Budget)
    (run path : String) (s : Severity) :
    min (b.allowed run path s) (b.floor run s) ≤ (b.after history).allowed run path s := by
  rw [UInt64.le_iff_toNat_le, UInt64.toNat_min]
  cases h : b.runs.get? run with
  | none => simp [allowed_of_absent h]
  | some held =>
    obtain ⟨now, hnow, hsettles⟩ := after_held hsound h
    simp only [allowed, floor, h, hnow, Option.getD_some, hsettles.allowed]
    cases leastCount history run path s <;> simp only [settled] <;> omega

/-- **The closed form of a history**: what it leaves of each allowance, that the order of its
passes does not matter, and that going on with it only lowers allowances, though not below the
floors. -/
theorem after_closed_form (b : Budget) {history : List Pass} (hsound : ∀ p ∈ history, p.Sound) :
    (∀ run held, b.runs.get? run = some held →
      ∃ now, (b.after history).runs.get? run = some now ∧ now.severities = held.severities ∧
        now.targets = held.targets ∧ ∀ path s, (now.allowed path s).toNat =
          settled (held.floor s).toNat (held.allowed path s).toNat
            (leastCount history run path s)) ∧
    (∀ run, b.runs.get? run = none → ∀ path s, (b.after history).allowed run path s = 0) ∧
    (∀ other, other.Perm history → ∀ run path s,
      (b.after other).allowed run path s = (b.after history).allowed run path s) ∧
    (∀ more, (∀ p ∈ more, p.Sound) → ∀ run path s,
      (b.after (history ++ more)).allowed run path s ≤ (b.after history).allowed run path s) ∧
    ∀ run path s, min (b.allowed run path s) (b.floor run s) ≤
      (b.after history).allowed run path s := by
  refine ⟨?_, fun run h => allowed_after_absent hsound h,
    fun other hperm => allowed_after_perm hsound hperm b, ?_, floor_le_allowed_after hsound b⟩
  · intro run held h
    obtain ⟨now, hnow, hsettles⟩ := after_held hsound h
    exact ⟨now, hnow, hsettles.severities, hsettles.targets, hsettles.allowed⟩
  · intro more hmore run path s
    rw [after_append]
    exact allowed_after_le hmore (b.after history) run path s

/-- Five errors are allowed and the floor is two. Updates that count three and one leave two in
either order, whatever a refresh between them. -/
theorem after_closed_form_floor :
    let counting (n : UInt64) : Manifest := ⟨[⟨"lint", "strict", [⟨"a.py", n, 0, 0, none⟩], .null⟩]⟩
    let held : RunBudget := ⟨.empty, SortedMap.ofList [("a.py", SortedMap.ofList [(.error, 5)])],
      SortedMap.ofList [(.error, 2)], none⟩
    let b : Budget := { empty .epoch with runs := SortedMap.ofList [("lint:strict", held)] }
    let history : List Pass :=
      [.update (counting 3) .all, .refresh (counting 3) .all, .update (counting 1) .all]
    (∀ p ∈ history, p.Sound) ∧ (b.after history).allowed "lint:strict" "a.py" .error = 2 := by
  intro counting held b history
  have hcountable (n : UInt64) : (counting n).Countable := by
    refine Manifest.countable_of_totals fun r hr s => ?_
    obtain rfl := List.mem_singleton.1 hr
    have hlt := n.toNat_lt_size
    cases s <;> simp [FileReport.tally, hlt]
  have haccepted (n : UInt64) : (counting n).Accepted := rfl
  have hsound : ∀ p ∈ history, p.Sound := by
    intro p hp
    simp only [history, List.mem_cons, List.not_mem_nil, or_false] at hp
    rcases hp with rfl | rfl | rfl <;> exact ⟨haccepted _, hcountable _⟩
  refine ⟨hsound, ?_⟩
  have hheld : b.runs.get? "lint:strict" = some held := by simp [b, SortedMap.get?_ofList]
  obtain ⟨now, hnow, -, -, hallowed⟩ := (after_closed_form b hsound).1 "lint:strict" held hheld
  have hcell := hallowed "a.py" .error
  rw [← UInt64.toNat_inj, allowed, hnow, Option.getD_some, hcell]
  rfl

end Budget

end AnalysisGate
