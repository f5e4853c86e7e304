import AnalysisGate.Path
import AnalysisGate.Workers

/-!
Scanning command lines.

Commands nest: a group of commands has further commands. Every command takes options, long ones
by name and some by a letter, with the value attached or as the next word; a word that starts with
a dash is never taken for a value. One command takes further words, its targets. The options of
the top are understood by every command, and the innermost mention counts.
-/
namespace AnalysisGate.CommandLine

/-- The commands, and the groups that they stand in. -/
inductive Scope
  | top
  | ratchet
  | cache
  | init
  | check
  | update
  | refreshSignature
  | status
  | clear
  | fingerprint
  deriving DecidableEq

/-- How many values an option takes. -/
inductive Arity
  | none
  | one
  | atMostOne
  deriving DecidableEq

structure OptionSpec where
  name : String
  letter : Option Char
  arity : Arity
  repeatable : Bool
  accepts : String → Bool

/-- Why a command line is not carried out. -/
inductive Stop
  | usage
  | version
  | help
  deriving DecidableEq

/-! ## The commands and their options -/

namespace OptionSpec

def flag (name : String) : OptionSpec := ⟨name, .none, .none, false, fun _ => true⟩

def text (name : String) : OptionSpec := ⟨name, .none, .one, true, fun _ => true⟩

/-- An option whose value is a path, which is not empty. -/
def path (name : String) (letter : Option Char) : OptionSpec :=
  ⟨name, letter, .one, false, fun s => !s.isEmpty⟩

def choice (name : String) (letter : Option Char) (choices : List String) : OptionSpec :=
  ⟨name, letter, .one, false, choices.contains⟩

def isCount (s : String) : Bool := (Numeral.readBelow? UInt64.size s.toList).isSome

def count (name : String) : OptionSpec := ⟨name, .none, .one, false, isCount⟩

end OptionSpec

/-- The options that every command understands. -/
def sharedOptions : List OptionSpec :=
  [.path "project" (some 'C'),
    .choice "log-level" .none ["error", "warn", "info", "debug", "trace"]]

/-- The options of commands on a manifest and a budget. -/
def ratchetOptions : List OptionSpec :=
  [.path "manifest" .none, .path "budget" .none, .text "run"]

/-- The options of commands that report. -/
def reportOptions : List OptionSpec :=
  [.flag "ignore-signature", .choice "format" (some 'f') ["text", "json"],
    .path "output" (some 'o')]

def fingerprintOptions : List OptionSpec :=
  [⟨"respect-gitignore", .none, .atMostOne, false, ["true", "false"].contains⟩,
    .count "max-files", .count "max-bytes",
    ⟨"hash-workers", .none, .one, false, fun s => (Workers.parse s).isOk⟩,
    .text "extension", .path "baseline" .none]

namespace Scope

def options : Scope → List OptionSpec
  | top | ratchet | cache | status | clear => sharedOptions
  | init => sharedOptions ++ ratchetOptions ++ [.text "severity", .text "target", .flag "force"]
  | check | update => sharedOptions ++ ratchetOptions ++ reportOptions
  | refreshSignature => sharedOptions ++ ratchetOptions
  | fingerprint => sharedOptions ++ fingerprintOptions

/-- The command of a group that a word names. -/
def child? : Scope → String → Option Scope
  | top, "ratchet" => some ratchet
  | top, "cache" => some cache
  | ratchet, "init" => some init
  | ratchet, "check" => some check
  | ratchet, "update" => some update
  | ratchet, "refresh-signature" => some refreshSignature
  | cache, "status" => some status
  | cache, "clear" => some clear
  | cache, "fingerprint" => some fingerprint
  | _, _ => .none

def isGroup : Scope → Bool
  | top | ratchet | cache => true
  | _ => false

def takesTargets (s : Scope) : Bool := s == fingerprint

def hasVersion (s : Scope) : Bool := s == top

end Scope

/-! ## Scanning -/

/-- How far a command line has been scanned: the options given to the command at hand, with their
values, its targets, and the option whose value may come next. -/
structure Scan where
  scope : Scope
  project : String
  given : List (String × String)
  targets : List String
  awaiting : Option OptionSpec

namespace Scan

def start : Scan := ⟨.top, ".", [], [], .none⟩

/-- The values given to an option, in order. -/
def values (s : Scan) (name : String) : List String :=
  (s.given.filter (·.1 == name)).map (·.2)

def value? (s : Scan) (name : String) : Option String := (s.values name).head?

def isGiven (s : Scan) (name : String) : Bool := s.given.any (·.1 == name)

/-- The project that the command at hand is about. -/
def projectOf (s : Scan) : String := (s.value? "project").getD s.project

/-- Give an option a value. -/
def give (s : Scan) (o : OptionSpec) (value : String) : Except Stop Scan :=
  if !o.accepts value || (!o.repeatable && s.isGiven o.name) then .error .usage
  else .ok { s with given := s.given ++ [(o.name, value)], awaiting := .none }

/-- Wait no longer for the value of an option; one that can do without is true. -/
def settle (s : Scan) : Except Stop Scan :=
  match s.awaiting with
  | .none => .ok s
  | some o => if o.arity = .atMostOne then s.give o "true" else .error .usage

/-- An option, with what is attached to it. -/
def option (s : Scan) (o : OptionSpec) (attached : Option String) : Except Stop Scan := do
  let s ← s.settle
  match o.arity, attached with
  | .none, .none => s.give o ""
  | .none, some _ => .error .usage
  | _, some v => s.give o v
  | _, .none => return { s with awaiting := some o }

/-- An option that ends the scan. -/
def ending (s : Scan) (stop : Stop) (attached : Option String) : Except Stop Scan := do
  let _ ← s.settle
  .error (if attached.isSome then .usage else stop)

/-- A name and what an equals sign attaches to it. -/
def splitAttached (cs : List Char) : String × Option String :=
  let name := cs.takeWhile (· != '=')
  match cs.drop name.length with
  | [] => (String.ofList name, .none)
  | _ :: value => (String.ofList name, some (String.ofList value))

/-- A word that starts with two dashes. -/
def long (s : Scan) (cs : List Char) : Except Stop Scan :=
  let (name, attached) := splitAttached cs
  if name = "help" then s.ending .help attached
  else if name = "version" ∧ s.scope.hasVersion then s.ending .version attached
  else
    match s.scope.options.find? (·.name == name) with
    | some o => s.option o attached
    | .none => .error .usage

/-- A word that starts with one dash: a letter, and what follows it as its value. -/
def short (s : Scan) : List Char → Except Stop Scan
  | [] => .ok s
  | c :: rest =>
    if c = 'h' then s.ending .help .none
    else if c = 'V' ∧ s.scope.hasVersion then s.ending .version .none
    else
      match s.scope.options.find? (·.letter == some c) with
      | some o =>
        match rest with
        | [] => s.option o .none
        | '=' :: value => s.option o (some (String.ofList value))
        | value => s.option o (some (String.ofList value))
      | .none => .error .usage

/-- A word that is a target, if the command takes any. -/
def target (s : Scan) (word : String) : Except Stop Scan :=
  if s.scope.takesTargets && !word.isEmpty then .ok { s with targets := s.targets ++ [word] }
  else .error .usage

/-- Words after two dashes: none is an option. -/
def plain (s : Scan) : List String → Except Stop Scan
  | [] => .ok s
  | word :: rest => do plain (← s.target word) rest

/-- Go on with a command of the group at hand. -/
def enter (s : Scan) (child : Scope) : Scan := ⟨child, s.projectOf, [], [], .none⟩

/-- A word that starts with no dash. -/
def word (s : Scan) (w : String) : Except Stop Scan :=
  match s.awaiting with
  | some o => s.give o w
  | .none =>
    match s.scope.child? w with
    | some child => .ok (s.enter child)
    | .none => if s.scope.isGroup && w = "help" then .error .help else s.target w

/-- Scan all words. -/
def run (s : Scan) : List String → Except Stop Scan
  | [] => s.settle
  | w :: rest =>
    match w.toList with
    | ['-', '-'] => do plain (← s.settle) rest
    | '-' :: '-' :: cs => do run (← s.long cs) rest
    | '-' :: c :: cs => do run (← s.short (c :: cs)) rest
    | _ => do run (← s.word w) rest

end Scan

end AnalysisGate.CommandLine
