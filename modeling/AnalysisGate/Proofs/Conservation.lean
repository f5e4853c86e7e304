import AnalysisGate.Proofs.Acceptance
import AnalysisGate.Proofs.Counting
import Mathlib

/-!
No diagnostic is lost or counted twice.

The count map of a run has one place for each normalized path of its entries, counts only the
severities that are asked for, and holds the sums of what the entries say. In an accepted manifest
every listed diagnostic has a severity, so over all severities the counts of a run add up to the
number of its diagnostics (`ManifestRun.total_counts`).
-/
namespace AnalysisGate

/-! ## Normalized paths -/

/-- A path with slashes from which every `./` at the start is taken. -/
def Normalizes (path normalized : String) : Prop :=
  (∃ n, slashes path.toList = (List.replicate n ['.', '/']).flatten ++ normalized.toList) ∧
    ¬ ['.', '/'] <+: normalized.toList

theorem dropHere_spec (cs : List Char) :
    (∃ n, cs = (List.replicate n ['.', '/']).flatten ++ dropHere cs) ∧
      ¬ ['.', '/'] <+: dropHere cs := by
  induction cs using dropHere.induct with
  | case1 rest ih =>
    obtain ⟨⟨n, hn⟩, hstart⟩ := ih
    refine ⟨⟨n + 1, ?_⟩, hstart⟩
    rw [dropHere, List.replicate_succ, List.flatten_cons, List.append_assoc, ← hn]
    rfl
  | case2 cs hother =>
    have hself : dropHere cs = cs := by
      rw [dropHere]
      exact hother
    rw [hself]
    refine ⟨⟨0, rfl⟩, ?_⟩
    rintro ⟨rest, rfl⟩
    exact hother rest rfl

/-- Paths are normalized in one way. -/
theorem normalizes_iff {path normalized : String} :
    Normalizes path normalized ↔ normalizePath path = normalized := by
  have hdrop (n : Nat) {cs : List Char} (hcs : ¬ ['.', '/'] <+: cs) :
      dropHere ((List.replicate n ['.', '/']).flatten ++ cs) = cs := by
    induction n with
    | zero =>
      rw [List.replicate_zero, List.flatten_nil, List.nil_append, dropHere]
      rintro rest rfl
      exact hcs ⟨rest, rfl⟩
    | succ n ih =>
      rw [List.replicate_succ, List.flatten_cons, List.append_assoc]
      exact ih
  constructor
  · rintro ⟨⟨n, hn⟩, hstart⟩
    rw [normalizePath, hn, hdrop n hstart, String.ofList_toList]
  · rintro rfl
    rw [Normalizes, normalizePath, String.toList_ofList]
    exact dropHere_spec _

/-! ## Entries -/

namespace FileReport

/-- The number of diagnostics of an entry: the length of its list, or its three totals. -/
def number (f : FileReport) : Nat :=
  match f.diagnostics with
  | some l => l.length
  | none => f.errors.toNat + f.warnings.toNat + f.information.toNat

/-- **A list whose diagnostics all have severities is counted in full.** -/
theorem sum_tally {f : FileReport}
    (h : ∀ d ∈ f.diagnostics.getD [], (Severity.ofToken? d.severity).isSome) :
    f.tally .error + f.tally .warning + f.tally .information = f.number := by
  unfold tally number
  cases hl : f.diagnostics with
  | none => rfl
  | some l =>
    rw [hl, Option.getD_some] at h
    show l.countP _ + l.countP _ + l.countP _ = l.length
    clear hl
    induction l with
    | nil => rfl
    | cons d rest ih =>
      obtain ⟨s, hs⟩ := Option.isSome_iff_exists.1 (h d (List.mem_cons_self ..))
      have ih := ih fun d hd => h d (List.mem_cons_of_mem _ hd)
      rw [List.countP_cons, List.countP_cons, List.countP_cons, List.length_cons, ← ih, hs]
      cases s <;> simp <;> omega

end FileReport

/-! ## Totals of maps -/

namespace SortedMap

variable {κ α : Type} [Ord κ] [Std.LawfulEqOrd κ] [DecidableEq κ]

/-- The values of a map add up to what it has at its keys. -/
theorem sum_values (m : SortedMap κ α) (g : α → Nat) {K : Finset κ} (hK : ∀ k ∈ m.keys, k ∈ K) :
    (m.values.map g).sum = ∑ k ∈ K, ((m.get? k).map g).getD 0 := by
  have hnodup : m.keys.Nodup := nodup_of_ascending m.ascending
  have hvalues : m.values.map g = m.keys.map fun k => ((m.get? k).map g).getD 0 := by
    rw [values, keys, List.map_map, List.map_map]
    apply List.map_congr_left
    intro e he
    have hget : m.get? e.1 = some e.2 := get?_eq_some_iff.2 he
    simp [hget]
  rw [hvalues, ← List.sum_toFinset _ hnodup]
  apply Finset.sum_subset
  · intro k hk
    exact hK k (List.mem_toFinset.1 hk)
  · intro k _ hk
    rw [get?_none_of_not_mem fun hmem => hk (List.mem_toFinset.2 hmem)]
    rfl

end SortedMap

theorem SeverityCounts.sum_values (c : SeverityCounts) :
    (c.values.map UInt64.toNat).sum =
      (c.count .error).toNat + (c.count .warning).toNat + (c.count .information).toNat := by
  have hvalue (s : Severity) : ((c.get? s).map UInt64.toNat).getD 0 = (c.count s).toNat := by
    rw [count]
    cases c.get? s <;> rfl
  have hall : ∀ s ∈ c.keys, s ∈ ({.error, .warning, .information} : Finset Severity) := by
    intro s _
    cases s <;> decide
  rw [SortedMap.sum_values c _ hall, Finset.sum_insert (by decide), Finset.sum_insert (by decide),
    Finset.sum_singleton, hvalue, hvalue, hvalue, Nat.add_assoc]

/-- All counts of a map together. -/
def PathCounts.total (c : PathCounts) : Nat :=
  (c.values.map fun counts => (counts.values.map UInt64.toNat).sum).sum

/-- The counts of a map are those of its cells. -/
theorem PathCounts.total_eq (c : PathCounts) :
    c.total = ∑ path ∈ c.keys.toFinset, ((c.cell path .error).toNat +
      (c.cell path .warning).toNat + (c.cell path .information).toNat) := by
  rw [total, SortedMap.sum_values c _ fun k hk => List.mem_toFinset.2 hk]
  apply Finset.sum_congr rfl
  intro path _
  rw [cell, cell, cell]
  cases c.get? path with
  | none => rfl
  | some counts => exact counts.sum_values

/-! ## Runs -/

namespace ManifestRun

/-- Each entry counts at one path. -/
theorem sum_paths {K : Finset String} (g : FileReport → Nat) {l : List FileReport}
    (hK : ∀ f ∈ l, normalizePath f.path ∈ K) :
    ∑ path ∈ K, (l.map fun f => if normalizePath f.path = path then g f else 0).sum =
      (l.map g).sum := by
  induction l with
  | nil => simp
  | cons f rest ih =>
    have ih := ih fun f hf => hK f (List.mem_cons_of_mem _ hf)
    simp only [List.map_cons, List.sum_cons]
    rw [Finset.sum_add_distrib, ih, Finset.sum_ite_eq, if_pos (hK f (List.mem_cons_self ..))]

/-- What a run says of a path over all severities is the number of its diagnostics there. -/
theorem sum_tally {r : ManifestRun}
    (h : ∀ f ∈ r.files, ∀ d ∈ f.diagnostics.getD [], (Severity.ofToken? d.severity).isSome)
    (path : String) :
    r.tally path .error + r.tally path .warning + r.tally path .information =
      (r.files.map fun f => if normalizePath f.path = path then f.number else 0).sum := by
  rw [tally, tally, tally, ← List.sum_map_add, ← List.sum_map_add]
  congr 1
  apply List.map_congr_left
  intro f hf
  split
  · exact FileReport.sum_tally (h f hf)
  · rfl

/-- The map has a place for each path of an entry, and no other. -/
theorem mem_keys_counts {r : ManifestRun} {tracked : SortedSet Severity} {path : String} :
    path ∈ (r.counts tracked).keys ↔ ∃ f ∈ r.files, normalizePath f.path = path := by
  have hstep : ∀ (c : PathCounts) (f : FileReport),
      path ∈ (addFile tracked c f).keys ↔ path ∈ c.keys ∨ normalizePath f.path = path := by
    intro c f
    rw [addFile, SortedMap.mem_keys_insert, or_comm, eq_comm]
  rw [counts, SortedMap.foldl_iff (P := fun c : PathCounts => path ∈ c.keys) hstep]
  simp [SortedMap.keys, SortedMap.empty]

/-- Only severities that are asked for are counted. -/
def Within (tracked : SortedSet Severity) (c : PathCounts) : Prop :=
  ∀ path counts, c.get? path = some counts → ∀ s ∈ counts.keys, tracked.contains s = true

theorem mem_keys_addCounts {tracked : SortedSet Severity} {c added : SeverityCounts}
    {s : Severity} (h : s ∈ (addCounts tracked c added).keys) :
    s ∈ c.keys ∨ tracked.contains s = true := by
  rw [addCounts] at h
  generalize added.entries = l at h
  induction l generalizing c with
  | nil => exact .inl h
  | cons e rest ih =>
    rw [List.foldl_cons] at h
    rcases ih h with hmem | htracked
    · split at hmem
      · next htracked =>
        rcases SortedMap.mem_keys_insert.1 hmem with rfl | hmem
        · exact .inr htracked
        · exact .inl hmem
      · exact .inl hmem
    · exact .inr htracked

theorem Within.addFile {tracked : SortedSet Severity} {c : PathCounts} (h : Within tracked c)
    (f : FileReport) : Within tracked (addFile tracked c f) := by
  intro path counts hcounts s hs
  rw [ManifestRun.addFile, SortedMap.get?_insert] at hcounts
  split at hcounts
  · obtain rfl := Option.some.inj hcounts
    rcases mem_keys_addCounts hs with hold | htracked
    · cases hpath : c.get? (normalizePath f.path) with
      | none =>
        rw [hpath] at hold
        exact absurd hold List.not_mem_nil
      | some held =>
        rw [hpath] at hold
        exact h _ _ hpath s hold
    · exact htracked
  · exact h path counts hcounts s hs

theorem within_counts (r : ManifestRun) (tracked : SortedSet Severity) :
    Within tracked (r.counts tracked) := by
  have hfold : ∀ (l : List FileReport) (c : PathCounts), Within tracked c →
      Within tracked (l.foldl (ManifestRun.addFile tracked) c) := by
    intro l
    induction l with
    | nil => exact fun c h => h
    | cons f rest ih => exact fun c h => ih _ (h.addFile f)
  exact hfold r.files .empty (by intro path counts hcounts; cases hcounts)

/-- The counts are sums that do not wrap. -/
theorem toNat_cell_counts {r : ManifestRun} {tracked : SortedSet Severity}
    (hsum : ∀ path s, tracked.contains s = true → r.tally path s < UInt64.size) (path : String)
    (s : Severity) :
    ((r.counts tracked).cell path s).toNat = if tracked.contains s then r.tally path s else 0 := by
  rw [cell_counts]
  split
  · next hs => exact UInt64.toNat_ofNat_of_lt (hsum path s hs)
  · rfl

/-- **Over all severities nothing is lost and nothing is counted twice.** -/
theorem total_counts {r : ManifestRun} {tracked : SortedSet Severity}
    (hseverities : ∀ f ∈ r.files, ∀ d ∈ f.diagnostics.getD [],
      (Severity.ofToken? d.severity).isSome)
    (hsum : ∀ path s, tracked.contains s = true → r.tally path s < UInt64.size)
    (hall : ∀ s, tracked.contains s = true) :
    (r.counts tracked).total = (r.files.map FileReport.number).sum := by
  have hcell (path : String) (s : Severity) :
      ((r.counts tracked).cell path s).toNat = r.tally path s := by
    rw [toNat_cell_counts hsum, if_pos (hall s)]
  calc (r.counts tracked).total
      = ∑ path ∈ (r.counts tracked).keys.toFinset,
          (r.tally path .error + r.tally path .warning + r.tally path .information) := by
        simp only [PathCounts.total_eq, hcell]
    _ = ∑ path ∈ (r.counts tracked).keys.toFinset,
          (r.files.map fun f => if normalizePath f.path = path then f.number else 0).sum :=
        Finset.sum_congr rfl fun path _ => sum_tally hseverities path
    _ = (r.files.map FileReport.number).sum :=
        sum_paths _ fun f hf => List.mem_toFinset.2 (mem_keys_counts.2 ⟨f, hf, rfl⟩)

/-- **No diagnostic of an accepted manifest is lost or counted twice.** If the sums are counts, the
map of a run has the normalized paths of its entries, holds at each path and severity that is asked
for what all entries of that path say of it, and has nothing of other severities. Over all
severities it adds up to the number of listed diagnostics and the totals of entries without a
list. -/
theorem counts_conserve {m : Manifest} (hm : m.Accepted) {r : ManifestRun} (hr : r ∈ m.runs)
    (tracked : SortedSet Severity)
    (hsum : ∀ path s, tracked.contains s = true → r.tally path s < UInt64.size) :
    (∀ path, path ∈ (r.counts tracked).keys ↔ ∃ f ∈ r.files, Normalizes f.path path) ∧
      (∀ path s, ((r.counts tracked).cell path s).toNat =
        if tracked.contains s then r.tally path s else 0) ∧
      (∀ path counts, (r.counts tracked).get? path = some counts →
        ∀ s ∈ counts.keys, tracked.contains s = true) ∧
      ((∀ s, tracked.contains s = true) →
        (r.counts tracked).total = (r.files.map FileReport.number).sum) := by
  refine ⟨fun path => ?keys, toNat_cell_counts hsum, within_counts r tracked, ?total⟩
  case keys =>
    simp only [normalizes_iff]
    exact mem_keys_counts
  case total => exact total_counts (fun f hf d hd => hm.severity_of_mem hr hf hd) hsum

/-- One file under two spellings, with a list whose totals are passed over and with totals. -/
theorem counts_conserve_respelled :
    let r : ManifestRun := ⟨"lint", "strict",
      [⟨"./.\\src\\a.py", 7, 0, 0, some [⟨" Errors", .empty⟩, ⟨"INFO", .empty⟩]⟩,
        ⟨"src/a.py", 1, 2, 0, none⟩], .null⟩
    let tracked := SortedSet.ofList Severity.all
    Manifest.Accepted ⟨[r]⟩ ∧ "src/a.py" ∈ (r.counts tracked).keys ∧
      ((r.counts tracked).cell "src/a.py" .error).toNat = 2 ∧ (r.counts tracked).total = 5 := by
  intro r tracked
  have haccepted : Manifest.Accepted ⟨[r]⟩ := by decide +kernel
  have hcountable : Manifest.Countable ⟨[r]⟩ := by
    apply Manifest.countable_of_totals
    intro r' hr' s
    obtain rfl := List.mem_singleton.1 hr'
    cases s <;> decide +kernel
  have hall : ∀ s, tracked.contains s = true := by
    intro s
    cases s <;> decide
  obtain ⟨hkeys, hcell, -, htotal⟩ := counts_conserve haccepted (List.mem_singleton_self r) tracked
    fun path s _ => hcountable r (List.mem_singleton_self r) path s
  refine ⟨haccepted, (hkeys _).2 ⟨_, List.mem_cons_self .., ?_⟩, ?_, ?_⟩
  · exact normalizes_iff.2 (by decide +kernel)
  · rw [hcell, if_pos (hall _)]
    decide +kernel
  · rw [htotal hall]
    decide +kernel

end ManifestRun

end AnalysisGate
