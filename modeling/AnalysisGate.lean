import AnalysisGate.Main
import AnalysisGate.Proofs.Acceptance
import AnalysisGate.Proofs.Agreement
import AnalysisGate.Proofs.Allowances
import AnalysisGate.Proofs.Auditing
import AnalysisGate.Proofs.BaselineFile
import AnalysisGate.Proofs.Baselines
import AnalysisGate.Proofs.BudgetFile
import AnalysisGate.Proofs.CacheKeys
import AnalysisGate.Proofs.CanonicalOrder
import AnalysisGate.Proofs.Collecting
import AnalysisGate.Proofs.Components
import AnalysisGate.Proofs.Conservation
import AnalysisGate.Proofs.Counting
import AnalysisGate.Proofs.Decimal.Rounding
import AnalysisGate.Proofs.Decimal.Shortest
import AnalysisGate.Proofs.Deltas
import AnalysisGate.Proofs.Drift
import AnalysisGate.Proofs.EngineOptions
import AnalysisGate.Proofs.Failing
import AnalysisGate.Proofs.Faults
import AnalysisGate.Proofs.FileKinds
import AnalysisGate.Proofs.Floors
import AnalysisGate.Proofs.FreshBudget
import AnalysisGate.Proofs.Gate
import AnalysisGate.Proofs.History
import AnalysisGate.Proofs.Idempotence
import AnalysisGate.Proofs.Interleaving
import AnalysisGate.Proofs.Json.Colons
import AnalysisGate.Proofs.Json.Documents
import AnalysisGate.Proofs.Json.Doubles
import AnalysisGate.Proofs.Json.Equivalence
import AnalysisGate.Proofs.Json.Fuel
import AnalysisGate.Proofs.Json.Parts
import AnalysisGate.Proofs.Json.Quoting
import AnalysisGate.Proofs.Json.Refusals
import AnalysisGate.Proofs.Json.Records
import AnalysisGate.Proofs.Json.Recovery
import AnalysisGate.Proofs.Json.Rereading
import AnalysisGate.Proofs.Json.Spelling
import AnalysisGate.Proofs.Json.Unambiguous
import AnalysisGate.Proofs.Json.Values
import AnalysisGate.Proofs.KeyTexts
import AnalysisGate.Proofs.Limits
import AnalysisGate.Proofs.MapViews
import AnalysisGate.Proofs.Neighbours
import AnalysisGate.Proofs.Numerals
import AnalysisGate.Proofs.OptionFlags
import AnalysisGate.Proofs.Overwriting
import AnalysisGate.Proofs.PathKeys
import AnalysisGate.Proofs.Persisting
import AnalysisGate.Proofs.Precedence
import AnalysisGate.Proofs.Presentation
import AnalysisGate.Proofs.Recording
import AnalysisGate.Proofs.Reloading
import AnalysisGate.Proofs.Rerunning
import AnalysisGate.Proofs.Retrying
import AnalysisGate.Proofs.Saving
import AnalysisGate.Proofs.Searching
import AnalysisGate.Proofs.Selections
import AnalysisGate.Proofs.Separation
import AnalysisGate.Proofs.Sessions
import AnalysisGate.Proofs.Signatures
import AnalysisGate.Proofs.Slack
import AnalysisGate.Proofs.StoreFile
import AnalysisGate.Proofs.Targets
import AnalysisGate.Proofs.Tightening
import AnalysisGate.Proofs.Timestamps
import AnalysisGate.Proofs.Trimming
import AnalysisGate.Proofs.Workspace.Actions
import AnalysisGate.Proofs.Workspace.Directories
import AnalysisGate.Proofs.Workspace.Frames
import AnalysisGate.Proofs.Workspace.Obstacles
import AnalysisGate.Proofs.Workspace.Reading
import AnalysisGate.Proofs.Workspace.Replacement
import AnalysisGate.Proofs.Workspace.Resolution
import AnalysisGate.Proofs.Workspace.Retiming
import AnalysisGate.Proofs.Workspace.Spelling
import AnalysisGate.Proofs.Workspace.Standing
import AnalysisGate.Proofs.Workspace.Temporary
