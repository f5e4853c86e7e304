import AnalysisGate.Proofs.EngineOptions
import AnalysisGate.Proofs.FreshBudget
import AnalysisGate.Proofs.BudgetFile
import Mathlib

/-!
Updating twice.

A second update after the same manifest finds nothing to do (`Ratchet.update_update`): allowances
that have come down to their counts and floors stay there, what was pruned is pruned, and where
nothing moves the signatures stay. What an update stores are signatures of the budget before or of
the manifest (`Ratchet.stores_update`), and those that are read from a file are values of finite
doubles (`Budget.over_of_parse`).
-/
namespace AnalysisGate

/-! ## Pruned allowances -/

namespace RunBudget

/-- What is pruned is not pruned further. -/
theorem prunePaths_prunePaths (paths : PathCounts) :
    prunePaths (prunePaths paths) = prunePaths paths := by
  refine SortedMap.ext_get? fun path => ?_
  conv_lhs => rw [prunePaths, SortedMap.get?_filterMap]
  cases hcounts : (prunePaths paths).get? path with
  | none => rfl
  | some counts =>
    obtain ⟨hnonempty, hpositive⟩ := stored_prunePaths hcounts
    have hkept : (counts.filter fun _ n => 0 < n) = counts := by
      refine SortedMap.ext_get? fun s => ?_
      rw [SortedMap.get?_filter]
      cases hs : counts.get? s with
      | none => rfl
      | some n => simp [Option.filter, hpositive s n hs]
    simp only [Option.bind_some, hkept, hnonempty, Bool.false_eq_true, if_false]

end RunBudget

namespace Ratchet

/-! ## Updates -/

/-- An allowance that has come down stays where it is. -/
theorem tighten_tighten (floor actual allowed : UInt64) :
    tighten floor actual (tighten floor actual allowed) = tighten floor actual allowed := by
  refine UInt64.toNat_inj.1 ?_
  rw [toNat_tighten, toNat_tighten]
  omega

/-- Allowances that are tight already are not touched. -/
theorem tightenPaths_eq_self {targets : SeverityCounts} {counts paths : PathCounts}
    (h : ∀ path allowances, paths.get? path = some allowances → ∀ s n, allowances.get? s = some n →
      tighten (targets.count s) (counts.cell path s) n = n) :
    tightenPaths targets counts paths = paths := by
  refine SortedMap.ext_get? fun path => ?_
  rw [tightenPaths, SortedMap.get?_mapValues]
  cases hpath : paths.get? path with
  | none => rfl
  | some allowances =>
    refine congrArg some (SortedMap.ext_get? fun s => ?_)
    rw [SortedMap.get?_mapValues]
    cases hs : allowances.get? s with
    | none => rfl
    | some n => exact congrArg some (h path allowances hpath s n hs)

/-- The counts that an update holds against the allowances of a run. -/
def countsFor (run : Option ManifestRun) (paths : PathCounts) : PathCounts :=
  (run.map (·.counts (allowedSeverities paths))).getD .empty

theorem updateRun_eq (run : Option ManifestRun) (held : RunBudget) :
    updateRun run held =
      let paths := tightenPaths held.targets (countsFor run held.paths) held.paths
      { held with
        paths := RunBudget.prunePaths paths
        signature :=
          (if paths = held.paths then none else run.map EngineSignature.ofRun).or
            held.signature } := rfl

/-- What an update leaves of the allowances is tight: the counts are those of all severities that
it has left an allowance of. -/
theorem tightenPaths_updateRun (m : Manifest) (run : String) (held : RunBudget) :
    let paths := (updateRun (m.run? run) held).paths
    tightenPaths held.targets (countsFor (m.run? run) paths) paths = paths := by
  intro paths
  refine tightenPaths_eq_self fun path allowances hpath s n hs => ?_
  have hpositive : 0 < n := (RunBudget.stored_prunePaths hpath).2 s n hs
  have hcell : paths.cell path s = n := by simp [PathCounts.cell, SeverityCounts.count, hpath, hs]
  have hallowed : paths.cell path s =
      tighten (held.floor s) (UInt64.ofNat (m.tally run path s)) (held.allowed path s) :=
    allowed_updateRun m run held path s
  have hstored : paths.cell path s ≠ 0 := hcell ▸ (UInt64.ne_of_lt hpositive).symm
  have hcounted := contains_allowedSeverities hstored
  rw [countsFor, Manifest.cell_countsOf, if_pos hcounted, ← hcell, hallowed]
  exact tighten_tighten _ _ _

theorem updateRun_updateRun (m : Manifest) (run : String) (held : RunBudget) :
    updateRun (m.run? run) (updateRun (m.run? run) held) = updateRun (m.run? run) held := by
  have htight := tightenPaths_updateRun m run held
  have hpruned : RunBudget.prunePaths (updateRun (m.run? run) held).paths =
      (updateRun (m.run? run) held).paths := RunBudget.prunePaths_prunePaths _
  have htargets : (updateRun (m.run? run) held).targets = held.targets := rfl
  conv_lhs => rw [updateRun_eq]
  simp only [htargets]
  rw [htight, if_pos rfl, hpruned, Option.none_or]
  rfl

/-- **A second update leaves a budget as the first one left it**, its signatures included. -/
theorem update_update (m : Manifest) (b : Budget) (selection : Selection) :
    update m (update m b selection) selection = update m b selection := by
  have hruns : (update m (update m b selection) selection).runs =
      (update m b selection).runs := by
    refine SortedMap.ext_get? fun run => ?_
    rw [get?_update, get?_update, Option.map_map]
    refine congrArg (fun f => (b.runs.get? run).map f) (funext fun held => ?_)
    cases hselected : selection.includes run with
    | false => simp
    | true => simp [updateRun_updateRun]
  change ({ update m b selection with
    runs := (update m (update m b selection) selection).runs } : Budget) = update m b selection
  rw [hruns]

/-- There is nothing to tighten in a budget without runs. -/
theorem update_of_empty {m : Manifest} {b : Budget} {selection : Selection}
    (h : b.runs = .empty) : update m b selection = b := by
  have hruns : (update m b selection).runs = b.runs := by
    refine SortedMap.ext_get? fun run => ?_
    rw [get?_update, h]
    rfl
  change ({ b with runs := (update m b selection).runs } : Budget) = b
  rw [hruns]

/-! ## Signatures -/

theorem signature_updateRun {run : Option ManifestRun} {held : RunBudget} {s : EngineSignature}
    (h : (updateRun run held).signature = some s) :
    held.signature = some s ∨ ∃ r, run = some r ∧ s = .ofRun r := by
  rw [updateRun_eq] at h
  rcases Option.or_eq_some_iff.1 h with hnew | ⟨-, hold⟩
  · split at hnew
    · cases hnew
    · obtain ⟨r, rfl, rfl⟩ := Option.map_eq_some_iff.1 hnew
      exact .inr ⟨r, rfl, rfl⟩
  · exact .inl hold

/-- What an update stores was stored before, or is the signature of a run of the manifest. -/
theorem stores_update {m : Manifest} {b : Budget} {selection : Selection}
    {P : EngineSignature → Prop} (hb : b.Stores P) (hm : ∀ r ∈ m.runs, P (.ofRun r)) :
    (update m b selection).Stores P := by
  intro run now s hnow hs
  rw [get?_update] at hnow
  obtain ⟨held, hheld, rfl⟩ := Option.map_eq_some_iff.1 hnow
  split at hs
  · rcases signature_updateRun hs with hold | ⟨r, hr, rfl⟩
    · exact hb run held s hheld hold
    · exact hm r (Manifest.id_of_run? hr).1
  · exact hb run held s hheld hs

end Ratchet

/-! ## Stored options -/

/-- A value without any doubles. -/
theorem Json.hasDouble_of_over {j : Json} (h : Json.Over ∅ j) : j.hasDouble = false := by
  induction j using Json.induct with
  | null | bool | string | beyond => rfl
  | number n =>
    cases n with
    | natural | negative => rfl
    | double bits => exact absurd (h.doubles bits (List.mem_singleton.2 rfl)) (Set.notMem_empty _)
  | array l ih => exact Json.hasDoubleItems_eq_false.2 fun j hj => ih j hj (h.item j hj)
  | object l ih => exact Json.hasDoubleMembers_eq_false.2 fun e he => ih e he (h.member e he)

namespace EngineSignature

/-- The signature of a run whose options have no doubles has none either. -/
theorem hasDouble_ofRun {r : ManifestRun} (hn : r.engineOptions.Normal)
    (hd : r.engineOptions.hasDouble = false) : (ofRun r).engineOptions.hasDouble = false :=
  Json.hasDouble_of_over (over_ofRun (Json.over_of_hasDouble hn hd))

theorem over_of_reader {m : Medium} {j : Json} {s : EngineSignature}
    (h : shape.reader m j = .ok s) : Json.Over Json.finiteDoubles s.engineOptions :=
  Shape.part_induct part_engineOptions (by simp [shape])
    ⟨rfl, fun x hx => absurd hx List.not_mem_nil⟩ (fun _ _ => Reader.over_value) h

end EngineSignature

theorem RunBudget.over_of_reader {m : Medium} {j : Json} {r : RunBudget}
    (h : RunBudget.shape.reader m j = .ok r) :
    ∀ s, r.signature = some s → Json.Over Json.finiteDoubles s.engineOptions :=
  Shape.part_induct
    (P := fun signature => ∀ s, signature = some s → Json.Over Json.finiteDoubles s.engineOptions)
    part_signature (by simp [shape]) nofun
    (fun j signature hread s hs => EngineSignature.over_of_reader (j := j)
      (Reader.of_optional (hs ▸ hread))) h

/-- **The options that a loaded budget stores are values of finite doubles.** -/
theorem Budget.over_of_parse {text : String} {p : Path} {b : Budget}
    (h : Budget.parse text p = .ok b) :
    b.Stores fun s => Json.Over Json.finiteDoubles s.engineOptions := by
  have hread {j : Json} (h : shape.reader .tree j = .ok b) :
      b.Stores fun s => Json.Over Json.finiteDoubles s.engineOptions :=
    Shape.part_induct
      (P := fun runs => ∀ run (held : RunBudget) s, SortedMap.get? runs run = some held →
        held.signature = some s → Json.Over Json.finiteDoubles s.engineOptions)
      part_runs (by simp [shape]) (fun run held s hheld => by cases hheld)
      (fun j runs hruns run held s hheld hs => by
        obtain ⟨i, hi⟩ := Reader.exists_of_map hruns hheld
        exact RunBudget.over_of_reader hi s hs) h
  rw [parse] at h
  split at h
  · cases h
  · next j _ =>
    split at h
    · cases h
    · cases hj : shape.reader .tree j with
      | error e =>
        rw [hj] at h
        cases h
      | ok b' =>
        rw [hj] at h
        cases h
        exact hread hj

end AnalysisGate
