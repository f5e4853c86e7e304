import AnalysisGate.Text.Numeral

/-!
The 128-bit XXH3 digest, with seed zero and the standard secret.

Inputs of up to 16, 128 and 240 bytes and longer ones are digested by four different rules. The
long rule keeps eight 64-bit accumulators, which every stripe of 64 bytes is mixed into and every
block of sixteen stripes scrambles. `hex` writes the two halves of the digest, the high one first.
-/
namespace AnalysisGate.Xxh3

/-! ## Words -/

def prime32₁ : UInt64 := 0x9E3779B1
def prime32₂ : UInt64 := 0x85EBCA77
def prime32₃ : UInt64 := 0xC2B2AE3D
def prime64₁ : UInt64 := 0x9E3779B185EBCA87
def prime64₂ : UInt64 := 0xC2B2AE3D27D4EB4F
def prime64₃ : UInt64 := 0x165667B19E3779F9
def prime64₄ : UInt64 := 0x85EBCA77C2B2AE63
def prime64₅ : UInt64 := 0x27D4EB2F165667C5
def primeMix₁ : UInt64 := 0x165667919E3779F9
def primeMix₂ : UInt64 := 0x9FB21C651E98DF25

/-- The standard secret. -/
def secret : ByteArray := ⟨#[
  0xb8, 0xfe, 0x6c, 0x39, 0x23, 0xa4, 0x4b, 0xbe, 0x7c, 0x01, 0x81, 0x2c, 0xf7, 0x21, 0xad, 0x1c,
  0xde, 0xd4, 0x6d, 0xe9, 0x83, 0x90, 0x97, 0xdb, 0x72, 0x40, 0xa4, 0xa4, 0xb7, 0xb3, 0x67, 0x1f,
  0xcb, 0x79, 0xe6, 0x4e, 0xcc, 0xc0, 0xe5, 0x78, 0x82, 0x5a, 0xd0, 0x7d, 0xcc, 0xff, 0x72, 0x21,
  0xb8, 0x08, 0x46, 0x74, 0xf7, 0x43, 0x24, 0x8e, 0xe0, 0x35, 0x90, 0xe6, 0x81, 0x3a, 0x26, 0x4c,
  0x3c, 0x28, 0x52, 0xbb, 0x91, 0xc3, 0x00, 0xcb, 0x88, 0xd0, 0x65, 0x8b, 0x1b, 0x53, 0x2e, 0xa3,
  0x71, 0x64, 0x48, 0x97, 0xa2, 0x0d, 0xf9, 0x4e, 0x38, 0x19, 0xef, 0x46, 0xa9, 0xde, 0xac, 0xd8,
  0xa8, 0xfa, 0x76, 0x3f, 0xe3, 0x9c, 0x34, 0x3f, 0xf9, 0xdc, 0xbb, 0xc7, 0xc7, 0x0b, 0x4f, 0x1d,
  0x8a, 0x51, 0xe0, 0x4b, 0xcd, 0xb4, 0x59, 0x31, 0xc8, 0x9f, 0x7e, 0xc9, 0xd9, 0x78, 0x73, 0x64,
  0xea, 0xc5, 0xac, 0x83, 0x34, 0xd3, 0xeb, 0xc3, 0xc5, 0x81, 0xa0, 0xff, 0xfa, 0x13, 0x63, 0xeb,
  0x17, 0x0d, 0xdd, 0x51, 0xb7, 0xf0, 0xda, 0x49, 0xd3, 0x16, 0x55, 0x26, 0x29, 0xd4, 0x68, 0x9e,
  0x2b, 0x16, 0xbe, 0x58, 0x7d, 0x47, 0xa1, 0xfc, 0x8f, 0xf8, 0xb8, 0xd1, 0x7a, 0xd0, 0x31, 0xce,
  0x45, 0xcb, 0x3a, 0x8f, 0x95, 0x16, 0x04, 0x28, 0xaf, 0xd7, 0xfb, 0xca, 0xbb, 0x4b, 0x40, 0x7e]⟩

/-- A byte as a word; a place past the end reads as zero. -/
def byte (b : ByteArray) (i : Nat) : UInt64 := if h : i < b.size then b[i].toUInt64 else 0

/-- Four bytes, the lowest first. -/
def read32 (b : ByteArray) (i : Nat) : UInt64 :=
  byte b i ||| byte b (i + 1) <<< 8 ||| byte b (i + 2) <<< 16 ||| byte b (i + 3) <<< 24

/-- Eight bytes, the lowest first. -/
def read64 (b : ByteArray) (i : Nat) : UInt64 := read32 b i ||| read32 b (i + 4) <<< 32

def low32 (x : UInt64) : UInt64 := x &&& 0xffffffff

def rotateLeft (x n : UInt64) : UInt64 := (x <<< n) ||| (x >>> (64 - n))

def rotateLeft32 (x n : UInt64) : UInt64 := low32 (x <<< n) ||| (low32 x >>> (32 - n))

/-- The bytes of a 32-bit word in reverse. -/
def swap32 (x : UInt64) : UInt64 :=
  (x &&& 0xff) <<< 24 ||| (x >>> 8 &&& 0xff) <<< 16 ||| (x >>> 16 &&& 0xff) <<< 8 |||
    (x >>> 24 &&& 0xff)

/-- The bytes of a 64-bit word in reverse. -/
def swap64 (x : UInt64) : UInt64 := swap32 (low32 x) <<< 32 ||| swap32 (x >>> 32)

/-- A digest, or a 128-bit product, as two words. -/
structure Wide where
  low : UInt64
  high : UInt64

/-- The product of two words, in full. -/
def product (a b : UInt64) : Wide :=
  let p := a.toNat * b.toNat
  ⟨UInt64.ofNat p, UInt64.ofNat (p / UInt64.size)⟩

/-- The product of two words, folded into one. -/
def fold (a b : UInt64) : UInt64 :=
  let p := product a b
  p.low ^^^ p.high

def avalanche (h : UInt64) : UInt64 :=
  let h := h ^^^ (h >>> 37)
  let h := h * primeMix₁
  h ^^^ (h >>> 32)

def avalanche64 (h : UInt64) : UInt64 :=
  let h := h ^^^ (h >>> 33)
  let h := h * prime64₂
  let h := h ^^^ (h >>> 29)
  let h := h * prime64₃
  h ^^^ (h >>> 32)

/-! ## Up to sixteen bytes -/

def empty : Wide :=
  ⟨avalanche64 (read64 secret 64 ^^^ read64 secret 72),
    avalanche64 (read64 secret 80 ^^^ read64 secret 88)⟩

def upTo3 (b : ByteArray) : Wide :=
  let n := b.size
  let combinedLow := byte b 0 <<< 16 ||| byte b (n / 2) <<< 24 ||| byte b (n - 1) |||
    UInt64.ofNat n <<< 8
  let combinedHigh := rotateLeft32 (swap32 combinedLow) 13
  let flipLow := read32 secret 0 ^^^ read32 secret 4
  let flipHigh := read32 secret 8 ^^^ read32 secret 12
  ⟨avalanche64 (combinedLow ^^^ flipLow), avalanche64 (combinedHigh ^^^ flipHigh)⟩

def upTo8 (b : ByteArray) : Wide :=
  let n := b.size
  let input := read32 b 0 + read32 b (n - 4) <<< 32
  let flip := read64 secret 16 ^^^ read64 secret 24
  let p := product (input ^^^ flip) (prime64₁ + UInt64.ofNat n <<< 2)
  let high := p.high + p.low <<< 1
  let low := p.low ^^^ (high >>> 3)
  let low := low ^^^ (low >>> 35)
  let low := low * primeMix₂
  let low := low ^^^ (low >>> 28)
  ⟨low, avalanche high⟩

def upTo16 (b : ByteArray) : Wide :=
  let n := b.size
  let flipLow := read64 secret 32 ^^^ read64 secret 40
  let flipHigh := read64 secret 48 ^^^ read64 secret 56
  let first := read64 b 0
  let last := read64 b (n - 8)
  let p := product (first ^^^ last ^^^ flipLow) prime64₁
  let low := p.low + UInt64.ofNat (n - 1) <<< 54
  let last := last ^^^ flipHigh
  let high := p.high + last + low32 last * (prime32₂ - 1)
  let low := low ^^^ swap64 high
  let q := product low prime64₂
  ⟨avalanche q.low, avalanche (q.high + high * prime64₂)⟩

/-! ## Up to 240 bytes -/

/-- Sixteen bytes at `i`, mixed with the secret at `s`. -/
def mix16 (b : ByteArray) (i s : Nat) : UInt64 :=
  fold (read64 b i ^^^ read64 secret s) (read64 b (i + 8) ^^^ read64 secret (s + 8))

/-- Two runs of sixteen bytes mixed into the accumulators. -/
def mix32 (acc : Wide) (b : ByteArray) (i j s : Nat) : Wide :=
  let low := acc.low + mix16 b i s
  let low := low ^^^ (read64 b j + read64 b (j + 8))
  let high := acc.high + mix16 b j (s + 16)
  let high := high ^^^ (read64 b i + read64 b (i + 8))
  ⟨low, high⟩

def finishMiddle (acc : Wide) (n : Nat) : Wide :=
  let low := acc.low + acc.high
  let high := acc.low * prime64₁ + acc.high * prime64₄ + UInt64.ofNat n * prime64₂
  ⟨avalanche low, 0 - avalanche high⟩

def upTo128 (b : ByteArray) : Wide :=
  let n := b.size
  let pairs := (List.range ((n - 1) / 32 + 1)).reverse
  let acc := pairs.foldl (fun acc i => mix32 acc b (16 * i) (n - 16 * (i + 1)) (32 * i))
    ⟨UInt64.ofNat n * prime64₁, 0⟩
  finishMiddle acc n

def upTo240 (b : ByteArray) : Wide :=
  let n := b.size
  let acc := (List.range 4).foldl (fun acc i => mix32 acc b (32 * i) (32 * i + 16) (32 * i))
    ⟨UInt64.ofNat n * prime64₁, 0⟩
  let acc : Wide := ⟨avalanche acc.low, avalanche acc.high⟩
  let acc := (List.range (n / 32 - 4)).foldl
    (fun acc i => mix32 acc b (128 + 32 * i) (144 + 32 * i) (3 + 32 * i)) acc
  let acc := mix32 acc b (n - 16) (n - 32) (136 - 17 - 16)
  finishMiddle acc n

/-! ## Longer inputs -/

def initial : Array UInt64 :=
  #[prime32₃, prime64₁, prime64₂, prime64₃, prime64₄, prime32₂, prime64₅, prime32₁]

/-- Sixty-four bytes at `i` mixed into the accumulators with the secret at `s`. -/
def accumulate (acc : Array UInt64) (b : ByteArray) (i s : Nat) : Array UInt64 :=
  (List.range 8).foldl (fun acc lane =>
    let value := read64 b (i + 8 * lane)
    let key := value ^^^ read64 secret (s + 8 * lane)
    -- the bytes themselves go to the neighbour, their product stays
    let other := if lane % 2 = 0 then lane + 1 else lane - 1
    let acc := acc.setIfInBounds other (acc.getD other 0 + value)
    acc.setIfInBounds lane (acc.getD lane 0 + low32 key * (key >>> 32))) acc

def scramble (acc : Array UInt64) : Array UInt64 :=
  acc.mapIdx fun (lane : Nat) (a : UInt64) =>
    let a := a ^^^ (a >>> 47)
    (a ^^^ read64 secret (128 + 8 * lane)) * prime32₁

/-- The accumulators folded pairwise with the secret at `s`. -/
def merge (acc : Array UInt64) (s : Nat) (start : UInt64) : UInt64 :=
  avalanche ((List.range 4).foldl (fun sum i =>
    sum + fold (acc.getD (2 * i) 0 ^^^ read64 secret (s + 16 * i))
      (acc.getD (2 * i + 1) 0 ^^^ read64 secret (s + 16 * i + 8))) start)

/-- Stripes in a block: one for each eight bytes of the secret that leave sixty-four. -/
def stripesPerBlock : Nat := 16

def long (b : ByteArray) : Wide :=
  let n := b.size
  let stripes := (n - 1) / 64
  let acc := (List.range stripes).foldl (fun acc k =>
    let acc := accumulate acc b (64 * k) (8 * (k % stripesPerBlock))
    if k % stripesPerBlock = stripesPerBlock - 1 then scramble acc else acc) initial
  -- the last sixty-four bytes are taken once more, so that none is left out
  let acc := accumulate acc b (n - 64) (192 - 64 - 7)
  ⟨merge acc 11 (UInt64.ofNat n * prime64₁),
    merge acc (192 - 64 - 11) (~~~(UInt64.ofNat n * prime64₂))⟩

/-! ## All inputs -/

def digest (b : ByteArray) : Wide :=
  let n := b.size
  if n = 0 then empty
  else if n ≤ 3 then upTo3 b
  else if n ≤ 8 then upTo8 b
  else if n ≤ 16 then upTo16 b
  else if n ≤ 128 then upTo128 b
  else if n ≤ 240 then upTo240 b
  else long b

/-- Sixteen hexadecimal digits. -/
def hexWord (w : UInt64) : List Char :=
  (List.range 16).map fun i => Numeral.hexDigit (w.toNat / Nat.pow 16 (15 - i) % 16)

/-- The digest as 32 digits in lower case, the high word first. -/
def hex (b : ByteArray) : String :=
  let d := digest b
  String.ofList (hexWord d.high ++ hexWord d.low)

end AnalysisGate.Xxh3
