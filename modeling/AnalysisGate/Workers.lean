import AnalysisGate.Text.Blank
import AnalysisGate.Json.Decode

/-!
How many workers take fingerprints: one, a fixed number, or one for each processor.

A setting is a count or the word `auto`; counts of zero and one both mean one worker. The
environment may replace a setting, and what it holds is ignored if it is no setting.
-/
namespace AnalysisGate

inductive Workers
  | sequential
  | fixed (n : UInt64)
  | auto
  deriving DecidableEq

namespace Workers

def ofCount (n : UInt64) : Workers := if n ≤ 1 then sequential else fixed n

/-- What is said of a text that is no setting. -/
def refusal (trimmed : List Char) : String :=
  "'" ++ String.ofList trimmed ++ "' is not a worker count or \"auto\""

/-- The setting that a text is. -/
def parse (s : String) : Except String Workers :=
  let cs := Text.trim s.toList
  if Text.fold cs = ['a', 'u', 't', 'o'] then .ok auto
  else
    match Numeral.readBelow? UInt64.size cs with
    | some n => .ok (ofCount (UInt64.ofNat n))
    | none => .error (refusal cs)

/-- The setting that a count or a text in a document is. -/
def reader : Reader Workers
  | _, .number (.natural n) => .ok (ofCount n)
  | _, .string s => (parse s).mapError .refused
  | _, _ => .error (.noVariant "RawWorkers")

/-- The variable of the environment that may replace the setting. -/
def environmentName : String := "AUDITGATE_HASH_WORKERS"

/-- The setting after one that may replace it. -/
def withOverride (w : Workers) : Option String → Workers
  | none => w
  | some s =>
    match parse s with
    | .ok v => v
    | .error _ => w

/-- The number of workers, if it does not depend on the machine. -/
def threads? : Workers → Option UInt64
  | sequential => some 1
  | fixed n => some (max n 1)
  | auto => none

end Workers

end AnalysisGate
