import AnalysisGate.Text.Utf8

/-!
The index of a repository: the paths that it tracks.

The file starts with a signature, a version and a number of entries. An entry has 62 bytes of
fixed width, of which the last two hold its flags, then its path and zeros up to a multiple of
eight bytes. Versions 2 and 3 are read; version 3 can have two more bytes of flags.
-/
namespace AnalysisGate.Repository.Index

/-- The natural of bytes with the highest first. -/
def natural (bs : List UInt8) : Nat := bs.foldl (fun n b => 256 * n + b.toNat) 0

/-- The bytes before the flags of an entry. -/
def fixedWidth : Nat := 60

/-- The paths of `count` entries. -/
def paths (version : Nat) : Nat → List UInt8 → List String
  | 0, _ => []
  | count + 1, bs =>
    let flags := natural ((bs.drop fixedWidth).take 2)
    let header := fixedWidth + if 3 ≤ version && flags / 0x4000 % 2 = 1 then 4 else 2
    let name := (bs.drop header).takeWhile (· != 0)
    let width := (header + name.length) / 8 * 8 + 8
    if name.isEmpty then []
    else Utf8.decodeLossy ⟨name.toArray⟩ :: paths version count (bs.drop width)

/-- The paths that an index file tracks. -/
def decode (bytes : ByteArray) : List String :=
  let bs := bytes.toList
  let version := natural ((bs.drop 4).take 4)
  if bs.take 4 = [0x44, 0x49, 0x52, 0x43] && (version = 2 || version = 3) then
    paths version (natural ((bs.drop 8).take 4)) (bs.drop 12)
  else []

/-- The four bytes of a natural, the highest first. -/
def word (n : Nat) : List UInt8 :=
  [UInt8.ofNat (n / 0x1000000), UInt8.ofNat (n / 0x10000), UInt8.ofNat (n / 0x100), UInt8.ofNat n]

/-- An entry that knows nothing but its path. -/
def entry (path : String) : List UInt8 :=
  let name := path.toUTF8.toList
  let flags := word (min name.length 0xfff)
  let width := (fixedWidth + 2 + name.length) / 8 * 8 + 8
  List.replicate fixedWidth 0 ++ flags.drop 2 ++ name ++
    List.replicate (width - (fixedWidth + 2 + name.length)) 0

/-- An index file of the paths, which are in ascending order. -/
def encode (paths : List String) : ByteArray :=
  ⟨([0x44, 0x49, 0x52, 0x43] ++ word 2 ++ word paths.length ++ paths.flatMap entry ++
    List.replicate 20 0).toArray⟩

end AnalysisGate.Repository.Index
