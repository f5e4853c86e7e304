import AnalysisGate.CommandLine.Arguments
import AnalysisGate.Report.Render

/-!
Commands: what a command line asks for.
-/
namespace AnalysisGate.CommandLine

/-- The manifest, budget and runs that a command is about. -/
structure RatchetArgs where
  manifest : Path
  budget : Option Path
  runs : List String

/-- How a command reports. -/
structure ReportArgs where
  ignoreSignature : Bool
  format : ReportFormat
  output : Option Path

/-- What replaces the configuration of the cache. -/
structure CacheOverrides where
  respectIgnore : Option Bool
  maxFiles : Option UInt64
  maxBytes : Option UInt64
  extensions : List String

inductive Command
  | init (args : RatchetArgs) (severities targets : List String) (force : Bool)
  | check (args : RatchetArgs) (report : ReportArgs)
  | update (args : RatchetArgs) (report : ReportArgs)
  | refreshSignature (args : RatchetArgs)
  | status
  | clear
  | fingerprint (targets : List Path) (overrides : CacheOverrides) (baseline : Option Path)

/-- A command and the project that it is about. -/
structure Invocation where
  project : Path
  command : Command

namespace Scan

def path? (s : Scan) (name : String) : Option Path := (s.value? name).map .mk

def count? (s : Scan) (name : String) : Option UInt64 :=
  (s.value? name).bind fun v => (Numeral.readBelow? UInt64.size v.toList).map UInt64.ofNat

def ratchetArgs (s : Scan) : Except Stop RatchetArgs :=
  match s.path? "manifest" with
  | some manifest => .ok ⟨manifest, s.path? "budget", s.values "run"⟩
  | none => .error .usage

def reportArgs (s : Scan) : ReportArgs :=
  ⟨s.isGiven "ignore-signature", ((s.value? "format").bind ReportFormat.ofName?).getD .text,
    s.path? "output"⟩

def cacheOverrides (s : Scan) : CacheOverrides :=
  ⟨(s.value? "respect-gitignore").map (· == "true"), s.count? "max-files", s.count? "max-bytes",
    s.values "extension"⟩

/-- The command that a scan ends in; a group is none. -/
def command (s : Scan) : Except Stop Command :=
  match s.scope with
  | .top | .ratchet | .cache => .error .usage
  | .init => s.ratchetArgs.map fun a =>
    .init a (s.values "severity") (s.values "target") (s.isGiven "force")
  | .check => s.ratchetArgs.map fun a => .check a s.reportArgs
  | .update => s.ratchetArgs.map fun a => .update a s.reportArgs
  | .refreshSignature => s.ratchetArgs.map .refreshSignature
  | .status => .ok .status
  | .clear => .ok .clear
  | .fingerprint =>
    let targets := if s.targets.isEmpty then ["."] else s.targets
    .ok (.fingerprint (targets.map .mk) s.cacheOverrides (s.path? "baseline"))

end Scan

/-- What a command line asks for. -/
def parse (words : List String) : Except Stop Invocation := do
  let s ← Scan.start.run words
  return ⟨⟨s.projectOf⟩, ← s.command⟩

end AnalysisGate.CommandLine
