import AnalysisGate.Budget
import AnalysisGate.Report.Basic

/-!
The ratchet: building a budget from counts, comparing counts with it, and tightening it.

No operation changes the manifest or the budget that it is given. A budget is exact when it is
built; from then on `Ratchet.update` lowers allowances to the counts, but not below their floors,
and never raises one.
-/
namespace AnalysisGate

/-- The runs that an operation is about. -/
inductive Selection
  | all
  | only (ids : SortedSet String)
  deriving DecidableEq

namespace Selection

/-- The runs of the given ids, or every run if none are given. -/
def ofIds (ids : List String) : Selection :=
  if ids.isEmpty then all else only (SortedSet.ofList ids)

def includes (s : Selection) (id : String) : Bool :=
  match s with
  | all => true
  | only ids => ids.contains id

end Selection

namespace Ratchet

/-! ## Building -/

/-- The budget of one run that allows exactly its counts. -/
def buildRun (tracked : SortedSet Severity) (targets : SeverityCounts) (r : ManifestRun) :
    RunBudget :=
  ⟨tracked, RunBudget.prunePaths (r.counts tracked), targets, some (.ofRun r)⟩

/-- The severities to track: the standard ones if none are asked for. -/
def trackedOr (severities : SortedSet Severity) : SortedSet Severity :=
  if severities.isEmpty then Severity.standard else severities

/-- A budget for the selected runs that allows exactly their counts. -/
def build (generatedAt : Timestamp) (m : Manifest) (selection : Selection)
    (severities : SortedSet Severity) (targets : SeverityCounts) : Budget :=
  { Budget.empty generatedAt with
    runs := SortedMap.ofList
      ((m.runs.filter fun r => selection.includes r.id).map fun r =>
        (r.id, buildRun (trackedOr severities) targets r)) }

/-! ## Comparing -/

/-- The findings of a run's counts under its budget, in the order of paths and severities. -/
def findings (budget : RunBudget) (counts : PathCounts) : List Finding :=
  let paths := (SortedSet.ofList (counts.keys ++ budget.paths.keys)).keys
  paths.flatMap fun path =>
    budget.tracked.keys.filterMap fun s =>
      Finding.classify path s (budget.allowed path s) (((counts.get? path).getD .empty).count s)

/-- Whether the configuration of a run is the one in the budget. A run that did not take place
has not changed. -/
def signatureMatches (expected actual : Option String) : Bool :=
  match expected, actual with
  | _, none => true
  | some e, some a => e == a
  | none, some _ => false

/-- The report on one run, which the manifest or the budget may lack. -/
def runReport (m : Manifest) (b : Budget) (id : String) : RunReport :=
  let run := m.run? id
  let budget := (b.runs.get? id).getD .empty
  let expected := budget.signature.map (·.hash)
  let actual := run.map fun r => (EngineSignature.ofRun r).hash
  let counts := (run.map (·.counts budget.tracked)).getD .empty
  ⟨id, signatureMatches expected actual, expected, actual, findings budget counts⟩

/-- The runs of a manifest or a budget that are selected, in order. -/
def reportedRuns (m : Manifest) (b : Budget) (selection : Selection) : List String :=
  (SortedSet.ofList (m.runIds.keys ++ b.runs.keys)).keys.filter selection.includes

/-- The report on the selected runs. -/
def report (m : Manifest) (b : Budget) (selection : Selection) : Report :=
  ⟨(reportedRuns m b selection).map (runReport m b)⟩

/-! ## Tightening -/

/-- An allowance after a count: the larger of count and floor, where that is lower. -/
def tighten (floor actual allowed : UInt64) : UInt64 :=
  if allowed ≤ actual then allowed else min allowed (max floor actual)

/-- The severities that have an allowance somewhere. -/
def allowedSeverities (paths : PathCounts) : SortedSet Severity :=
  SortedSet.ofList (paths.values.flatMap SortedMap.keys)

/-- Allowances after the counts of a run. -/
def tightenPaths (targets : SeverityCounts) (counts paths : PathCounts) : PathCounts :=
  paths.mapValues fun path allowances => allowances.mapValues fun s allowed =>
    tighten (targets.count s) (((counts.get? path).getD .empty).count s) allowed

/-- The budget of a run after its counts. Where an allowance moves the signature moves with it,
if the run took place. -/
def updateRun (run : Option ManifestRun) (b : RunBudget) : RunBudget :=
  let counts := (run.map (·.counts (allowedSeverities b.paths))).getD .empty
  let paths := tightenPaths b.targets counts b.paths
  -- pruning comes after the comparison: a zero that is dropped is no allowance that has moved
  let signature := if paths = b.paths then none else run.map EngineSignature.ofRun
  { b with
    paths := RunBudget.prunePaths paths
    signature := signature.or b.signature }

/-- The budget after the counts of the selected runs. -/
def update (m : Manifest) (b : Budget) (selection : Selection) : Budget :=
  { b with
    runs := b.runs.mapValues fun id r =>
      if selection.includes id then updateRun (m.run? id) r else r }

/-! ## Signatures -/

/-- The budget of a run with its signature; one that is new allows nothing. -/
def refreshRun (r : ManifestRun) (held : Option RunBudget) : RunBudget :=
  { held.getD { RunBudget.empty with severities := Severity.standard } with
    signature := some (.ofRun r) }

/-- The budget with the signatures of the selected runs. -/
def refresh (m : Manifest) (b : Budget) (selection : Selection) : Budget :=
  { b with
    runs := (m.runs.filter fun r => selection.includes r.id).foldl
      (fun runs r => runs.alter r.id (refreshRun r)) b.runs }

end Ratchet

end AnalysisGate
