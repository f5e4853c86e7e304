import AnalysisGate.Digest.Xxh3
import AnalysisGate.Json.Decode
import AnalysisGate.Workspace.Basic

/-!
Fingerprints of files.

A fingerprint is what can be seen of one file: the digest of its bytes with its size and the time
of its last change, or that it is missing, or that it cannot be read. Taking one never fails.
-/
namespace AnalysisGate

/-- What can be seen of a file. The time is in nanoseconds from 1970. -/
inductive Fingerprint
  | content (hash : String) (modified size : UInt64)
  | missing
  | unreadable
  deriving DecidableEq

namespace Fingerprint

def isContent : Fingerprint → Bool
  | content .. => true
  | _ => false

/-- Whether a fingerprint of bytes has this time and size. -/
def sameStat (modified size : UInt64) : Fingerprint → Bool
  | content _ m s => m == modified && s == size
  | _ => false

/-! ## Documents -/

def toJson : Fingerprint → Json
  | content hash modified size =>
    .object [("contentHash", .string hash), ("modifiedAtNanos", .ofCount modified),
      ("sizeBytes", .ofCount size)]
  | missing => .object [("missing", .bool true)]
  | unreadable => .object [("unreadable", .bool true)]

/-- The fields that a document may have for a fingerprint. -/
structure Fields where
  hash : Option String
  modified : Option UInt64
  size : Option UInt64
  missing : Bool
  unreadable : Bool

def fieldsShape : Shape Fields where
  name := "RawFingerprint"
  start := ⟨none, none, none, false, false⟩
  fields := [
    Shape.field "contentHash" (Reader.optional Reader.string) (fun f v => { f with hash := v })
      .named,
    Shape.field "modifiedAtNanos" (Reader.optional Reader.count)
      (fun f v => { f with modified := v }) .named,
    Shape.field "sizeBytes" (Reader.optional Reader.count) (fun f v => { f with size := v }) .named,
    Shape.field "missing" Reader.bool fun f v => { f with missing := v },
    Shape.field "unreadable" Reader.bool fun f v => { f with unreadable := v }]

/-- The fingerprint that fields are: all three of the content, or one of the two marks. -/
def ofFields (f : Fields) : Except DecodeError Fingerprint :=
  let hasContent := f.hash.isSome || f.modified.isSome || f.size.isSome
  match hasContent, f.missing, f.unreadable with
  | true, false, false =>
    match f.hash, f.modified, f.size with
    | some h, some m, some s => .ok (.content h m s)
    | _, _, _ =>
      .error (.refused "fingerprint needs contentHash, modifiedAtNanos and sizeBytes")
  | false, true, false => .ok .missing
  | false, false, true => .ok .unreadable
  | _, _, _ =>
    .error (.refused "fingerprint must be exactly one of content, missing or unreadable")

def reader : Reader Fingerprint := fun m j => do ofFields (← fieldsShape.reader m j)

/-! ## Files -/

/-- How a fingerprint comes about: the bytes are read, a fingerprint that is known is used again,
or there is nothing to read. -/
inductive Probe
  | hashed
  | reused
  | terminal
  deriving DecidableEq

/-- The state of a file that a failure tells. -/
def ofFailure : FileError → Fingerprint
  | .notFound => missing
  | _ => unreadable

/-- A time as a count: zero before 1970, and the largest count beyond it. -/
def nanos (modified : Int) : UInt64 := UInt64.ofNat (min modified.toNat (UInt64.size - 1))

/-- The fingerprint of a file. One that is known is used again if it has the file's size and time,
without a look at the bytes. -/
def probe (w : Workspace) (known : Option Fingerprint) (p : Path) : Fingerprint × Probe :=
  match w.stat p with
  | .error e => (ofFailure e, .terminal)
  | .ok (.regular size modified) =>
    let modified := nanos modified
    let size := UInt64.ofNat size
    match known.filter (sameStat modified size) with
    | some f => (f, .reused)
    | none =>
      match w.read p with
      | .ok bytes => (content (Xxh3.hex bytes) modified size, .hashed)
      | .error e => (ofFailure e, .terminal)
  | .ok _ => (unreadable, .terminal)

/-- The fingerprint of a file from its bytes. -/
def ofFile (w : Workspace) (p : Path) : Fingerprint := (probe w none p).1

end Fingerprint

/-- Fingerprints by the names of files. -/
abbrev FingerprintMap := SortedMap String Fingerprint

namespace FingerprintMap

def toJson (m : FingerprintMap) : Json := .ofMap Fingerprint.toJson m

def reader : Reader FingerprintMap := Reader.map Fingerprint.reader

end FingerprintMap

end AnalysisGate
