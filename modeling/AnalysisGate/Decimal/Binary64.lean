/-!
Double-precision numbers as their 64 bits, in exact arithmetic.

A finite double is a sign and a magnitude `mantissa · 2 ^ exponent`. `nearest` rounds a quotient
of naturals to the nearest double, a half to the even neighbour; products, quotients and readings
of decimals are exact quotients rounded once by it. Nothing here uses floating-point hardware, so
every result is computed by the definitions themselves.
-/
namespace AnalysisGate.Binary64

/-- The sign and the magnitude of a finite double, or of an infinity read as the next power. -/
structure Parts where
  negative : Bool
  mantissa : Nat
  exponent : Int

def signBit : Nat := 0x8000000000000000

/-- The bits of positive infinity. -/
def infinity : UInt64 := 0x7ff0000000000000

/-- The bits of a value that is no number. -/
def notNumber : UInt64 := 0x7ff8000000000000

def parts (bits : UInt64) : Parts :=
  let n := bits.toNat
  let magnitude := n % signBit
  let field : Nat := magnitude / 0x10000000000000
  let fraction := magnitude % 0x10000000000000
  { negative := signBit ≤ n
    mantissa := if field = 0 then fraction else 0x10000000000000 + fraction
    exponent := if field = 0 then -1074 else (field : Int) - 1075 }

/-- The bits without the sign. -/
def magnitude (bits : UInt64) : UInt64 := bits &&& 0x7fffffffffffffff

def isNegative (bits : UInt64) : Bool := signBit ≤ bits.toNat

def isFinite (bits : UInt64) : Bool := magnitude bits < infinity

def isInfinite (bits : UInt64) : Bool := magnitude bits == infinity

def isZero (bits : UInt64) : Bool := magnitude bits == 0

def negate (bits : UInt64) : UInt64 := bits ^^^ 0x8000000000000000

/-- `num / den` to the nearest natural, a half to the even one. -/
def divEven (num den : Nat) : Nat :=
  let q := num / den
  let r := num % den
  if 2 * r < den then q
  else if den < 2 * r then q + 1
  else if q % 2 = 0 then q else q + 1

/-- The largest `e` with `2 ^ e ≤ num / den`, for positive `num` and `den`. -/
def binaryExponent (num den : Nat) : Int :=
  let e : Int := (num.log2 : Int) - (den.log2 : Int)
  if den * Nat.pow 2 e.toNat ≤ num * Nat.pow 2 (-e).toNat then e else e - 1

/-- The double nearest to `num / den`, a half going to the even mantissa. The exponent field and
the mantissa are added, so a mantissa that rounds up to a power of two carries into the field. -/
def nearest (num den : Nat) : UInt64 :=
  if num = 0 then 0
  else
    let q := max (binaryExponent num den - 52) (-1074)
    let mantissa := divEven (num * Nat.pow 2 (-q).toNat) (den * Nat.pow 2 q.toNat)
    let bits := (q + 1074).toNat * 0x10000000000000 + mantissa
    if bits < infinity.toNat then UInt64.ofNat bits else infinity

def ofNat (n : Nat) : UInt64 := nearest n 1

/-- `mantissa · 2 ^ exponent` as a quotient. -/
def Parts.ratio (p : Parts) : Nat × Nat :=
  (p.mantissa * Nat.pow 2 p.exponent.toNat, Nat.pow 2 (-p.exponent).toNat)

/-- The rounded product of two magnitudes. -/
def mul (a b : UInt64) : UInt64 :=
  let (m, d) := (parts a).ratio
  let (m', d') := (parts b).ratio
  nearest (m * m') (d * d')

/-- The rounded quotient of two magnitudes, the second not zero. -/
def div (a b : UInt64) : UInt64 :=
  let (m, d) := (parts a).ratio
  let (m', d') := (parts b).ratio
  nearest (m * d') (d * m')

/-- The double nearest to `n · 10 ^ e`. -/
def ofDecimal (n : Nat) (e : Int) : UInt64 :=
  nearest (n * Nat.pow 10 e.toNat) (Nat.pow 10 (-e).toNat)

end AnalysisGate.Binary64
