import AnalysisGate.Ratchet
import AnalysisGate.Proofs.MapViews
import Mathlib

/-!
Counts are sums.

`tally` adds up, in natural numbers, what the entries of a run say of one path and severity, under
whatever spelling of the path they say it. `ManifestRun.cell_counts` is the statement that the
count map of a run holds these sums, as 64-bit counts, for the severities that are asked for.
-/
namespace AnalysisGate

/-- The count at a path and severity, zero where there is none. -/
def PathCounts.cell (c : PathCounts) (path : String) (s : Severity) : UInt64 :=
  ((c.get? path).getD .empty).count s

/-! ## What entries, runs and manifests say -/

/-- What an entry says of a severity: so many diagnostics in its list, or a total. -/
def FileReport.tally (f : FileReport) (s : Severity) : Nat :=
  match f.diagnostics with
  | some l => l.countP fun d => Severity.ofToken? d.severity = some s
  | none =>
    match s with
    | .error => f.errors.toNat
    | .warning => f.warnings.toNat
    | .information => f.information.toNat

/-- What a run says of a path and severity, over all its entries. -/
def ManifestRun.tally (r : ManifestRun) (path : String) (s : Severity) : Nat :=
  (r.files.map fun f => if normalizePath f.path = path then f.tally s else 0).sum

/-- What a manifest says of a cell of a run; nothing of a run that did not take place. -/
def Manifest.tally (m : Manifest) (run path : String) (s : Severity) : Nat :=
  ((m.run? run).map (·.tally path s)).getD 0

/-- Every sum is a count. -/
def Manifest.Countable (m : Manifest) : Prop :=
  ∀ r ∈ m.runs, ∀ path s, r.tally path s < UInt64.size

/-! ## Entries -/

namespace SeverityCounts

@[simp] theorem count_empty (s : Severity) : count .empty s = 0 := rfl

theorem count_insert (c : SeverityCounts) (s s' : Severity) (n : UInt64) :
    count (c.insert s n) s' = if s' = s then n else count c s' := by
  unfold count
  rw [SortedMap.get?_insert]
  split <;> rfl

/-- Counting a list one by one adds its number of occurrences. -/
theorem count_foldl_succ (l : List Severity) (c : SeverityCounts) (s : Severity) :
    count (l.foldl (fun c s => c.insert s (count c s + 1)) c) s =
      count c s + UInt64.ofNat (l.count s) := by
  induction l generalizing c with
  | nil => simp
  | cons a rest ih =>
    rw [List.foldl_cons, ih, count_insert, List.count_cons]
    by_cases h : a = s
    · subst h
      simp only [if_true, beq_self_eq_true, UInt64.ofNat_add, UInt64.ofNat_one]
      ac_rfl
    · simp [h, Ne.symm h]

end SeverityCounts

theorem FileReport.count_counts (f : FileReport) (s : Severity) :
    f.counts.count s = UInt64.ofNat (f.tally s) := by
  unfold FileReport.counts FileReport.tally
  cases f.diagnostics with
  | some l =>
    have hcount : (l.filterMap fun d => Severity.ofToken? d.severity).count s =
        l.countP fun d => Severity.ofToken? d.severity = some s := by
      rw [List.count, List.countP_filterMap]
      congr 1
      funext d
      cases Severity.ofToken? d.severity with
      | none => simp
      | some a => by_cases h : a = s <;> simp [h]
    simp [SeverityCounts.count_foldl_succ, hcount]
  | none =>
    unfold SeverityCounts.count
    rw [SortedMap.get?_ofList]
    cases s <;> simp

/-! ## Runs -/

namespace ManifestRun

theorem count_addEntries (tracked : SortedSet Severity) (s : Severity) :
    ∀ (l : List (Severity × UInt64)), (l.Pairwise fun a b => compare a.1 b.1 = .lt) →
      ∀ c : SeverityCounts,
        (l.foldl (fun c e => if tracked.contains e.1 then c.insert e.1 (c.count e.1 + e.2) else c)
          c).count s =
        if tracked.contains s then c.count s + (SortedMap.lookup s l).getD 0 else c.count s
  | [], _, c => by simp [SortedMap.lookup]
  | (a, n) :: rest, h, c => by
    have hhead := (List.pairwise_cons.1 h).1
    have hrest := (List.pairwise_cons.1 h).2
    rw [List.foldl_cons, count_addEntries tracked s rest hrest, SortedMap.lookup_cons]
    by_cases hs : s = a
    · subst hs
      -- the keys ascend, so the key at the head does not come again
      have hnone : SortedMap.lookup s rest = none := by
        cases hl : SortedMap.lookup s rest with
        | none => rfl
        | some v =>
          have hlt := hhead _ ((SortedMap.lookup_eq_some_iff hrest).1 hl)
          have hself : compare s s = .eq := Std.ReflCmp.compare_self
          rw [hself] at hlt
          cases hlt
      cases ht : tracked.contains s <;> simp [hnone, SeverityCounts.count_insert]
    · cases tracked.contains a <;> simp [hs, SeverityCounts.count_insert]

theorem count_addCounts (tracked : SortedSet Severity) (c added : SeverityCounts) (s : Severity) :
    (addCounts tracked c added).count s =
      if tracked.contains s then c.count s + added.count s else c.count s :=
  count_addEntries tracked s added.entries added.ascending c

theorem cell_addFile (tracked : SortedSet Severity) (c : PathCounts) (f : FileReport)
    (path : String) (s : Severity) :
    (addFile tracked c f).cell path s =
      if tracked.contains s = true ∧ normalizePath f.path = path then
        c.cell path s + UInt64.ofNat (f.tally s)
      else c.cell path s := by
  unfold addFile PathCounts.cell
  rw [SortedMap.get?_insert]
  by_cases hp : path = normalizePath f.path
  · subst hp
    cases ht : tracked.contains s <;>
      simp [count_addCounts, ht, FileReport.count_counts]
  · simp [hp, Ne.symm hp]

theorem cell_foldl_addFile (tracked : SortedSet Severity) (path : String) (s : Severity)
    (l : List FileReport) (c : PathCounts) :
    (l.foldl (addFile tracked) c).cell path s =
      if tracked.contains s then
        c.cell path s + UInt64.ofNat
          (l.map fun f => if normalizePath f.path = path then f.tally s else 0).sum
      else c.cell path s := by
  induction l generalizing c with
  | nil => simp
  | cons f rest ih =>
    rw [List.foldl_cons, ih, cell_addFile, List.map_cons, List.sum_cons, UInt64.ofNat_add]
    cases ht : tracked.contains s with
    | false => simp
    | true =>
      by_cases hp : normalizePath f.path = path
      · simp [hp, UInt64.add_assoc]
      · simp [hp]

/-- The counts of a run are its sums, for the severities that are asked for. -/
theorem cell_counts (r : ManifestRun) (tracked : SortedSet Severity) (path : String)
    (s : Severity) :
    (r.counts tracked).cell path s =
      if tracked.contains s then UInt64.ofNat (r.tally path s) else 0 := by
  unfold counts tally
  rw [cell_foldl_addFile]
  simp [PathCounts.cell]

end ManifestRun

/-! ## Manifests -/

namespace Manifest

theorem tally_of_run? {m : Manifest} {run : String} {r : ManifestRun} (h : m.run? run = some r)
    (path : String) (s : Severity) : m.tally run path s = r.tally path s := by
  simp [tally, h]

theorem tally_of_absent {m : Manifest} {run : String} (h : m.run? run = none) (path : String)
    (s : Severity) : m.tally run path s = 0 := by
  simp [tally, h]

theorem Countable.tally_lt {m : Manifest} (h : m.Countable) (run path : String) (s : Severity) :
    m.tally run path s < UInt64.size := by
  cases hr : m.run? run with
  | none => rw [tally_of_absent hr]; decide
  | some r => rw [tally_of_run? hr]; exact h r (List.mem_of_find?_eq_some hr) path s

/-- It is enough that the totals over all entries are counts. -/
theorem countable_of_totals {m : Manifest}
    (h : ∀ r ∈ m.runs, ∀ s, (r.files.map fun f => f.tally s).sum < UInt64.size) :
    m.Countable := by
  intro r hr path s
  refine lt_of_le_of_lt (List.sum_le_sum fun f _ => ?_) (h r hr s)
  split
  · exact le_refl _
  · exact Nat.zero_le _

/-- The counts that an operation takes of a run, which may not have taken place. -/
theorem cell_countsOf (m : Manifest) (run : String) (tracked : SortedSet Severity)
    (path : String) (s : Severity) :
    PathCounts.cell (((m.run? run).map (·.counts tracked)).getD .empty) path s =
      if tracked.contains s then UInt64.ofNat (m.tally run path s) else 0 := by
  cases hr : m.run? run with
  | none => simp [tally_of_absent hr, PathCounts.cell]
  | some r => rw [tally_of_run? hr]; exact r.cell_counts tracked path s

end Manifest

end AnalysisGate
