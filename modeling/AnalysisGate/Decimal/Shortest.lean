import AnalysisGate.Decimal.Binary64
import AnalysisGate.Text.Numeral

/-!
The fewest decimal digits that read back.

The reals that round to one double form an interval around it. For one digit, two digits and so
on up to seventeen, the two neighbours of the double on the grid of that many digits are tried;
the first grid with a neighbour in the interval gives the digits, of two such neighbours the
nearer, and of two equally near the even one.
-/
namespace AnalysisGate.Decimal

/-- Significant digits, and the power of ten of the first of them. -/
structure Digits where
  digits : List Char
  exponent : Int

/-- The reals between two quotients over one denominator, the ends included or not. -/
structure Interval where
  low : Nat
  high : Nat
  den : Nat
  closed : Bool

/-- The reals that round to a positive finite double, over a denominator of a quarter of its last
place. Below a power of two the doubles stand twice as close. -/
def roundingInterval (p : Binary64.Parts) : Interval × Nat :=
  let q := p.exponent - 2
  let scale := Nat.pow 2 q.toNat
  let den := Nat.pow 2 (-q).toNat
  let value := 4 * p.mantissa
  let below := if p.mantissa = 0x10000000000000 && p.exponent ≠ -1074 then 1 else 2
  ({ low := (value - below) * scale, high := (value + 2) * scale, den,
     closed := p.mantissa % 2 == 0 }, value * scale)

/-- Whether `num / den` lies in the interval. -/
def Interval.contains (i : Interval) (num den : Nat) : Bool :=
  let low := i.low * den
  let high := i.high * den
  let x := num * i.den
  if i.closed then low ≤ x && x ≤ high else low < x && x < high

/-- The largest `e` with `10 ^ e ≤ num / den`, for positive `num` and `den`. -/
def decimalExponent (num den : Nat) : Int :=
  let e : Int := ((Numeral.digits num).length : Int) - (Numeral.digits den).length
  if den * Nat.pow 10 e.toNat ≤ num * Nat.pow 10 (-e).toNat then e else e - 1

/-- The neighbour of `num / den` on the grid of multiples of `10 ^ unit` that the interval
contains, as a multiple of the unit. -/
def onGrid? (i : Interval) (num den : Nat) (unit : Int) : Option Nat :=
  let up := Nat.pow 10 unit.toNat
  let down := Nat.pow 10 (-unit).toNat
  let top := num * down
  let bottom := den * up
  let floor := top / bottom
  let hasFloor := i.contains (floor * up) down
  let hasCeil := i.contains ((floor + 1) * up) down
  match hasFloor, hasCeil with
  | false, false => none
  | true, false => some floor
  | false, true => some (floor + 1)
  | true, true => some (Binary64.divEven top bottom)

/-- Try the grids of `count`, `count + 1`, … digits, `tries` of them. -/
def search (i : Interval) (num den : Nat) (first : Int) (count : Nat) : Nat → Nat × Int
  | 0 => (num * Nat.pow 10 (16 - first).toNat / (den * Nat.pow 10 (first - 16).toNat), first - 16)
  | tries + 1 =>
    let unit := first - (count : Int) + 1
    match onGrid? i num den unit with
    | some n => (n, unit)
    | none => search i num den first (count + 1) tries

/-- Digits without the zeros at their end. -/
def stripZeros (cs : List Char) : List Char := (cs.reverse.dropWhile (· == '0')).reverse

/-- The fewest digits that read back as a positive finite double. -/
def shortest (bits : UInt64) : Digits :=
  let p := Binary64.parts bits
  let (i, num) := roundingInterval p
  let first := decimalExponent num i.den
  let (n, unit) := search i num i.den first 1 17
  let cs := Numeral.digits n
  { digits := stripZeros cs, exponent := unit + cs.length - 1 }

/-! ## Writing the digits -/

/-- How a format writes digits: which powers of ten it writes positionally, and whether a whole
number keeps a point and a zero. -/
structure Style where
  leastPositional : Int
  mostPositional : Int
  keepPoint : Bool

/-- Digits with the point where it belongs. -/
def positional (keepPoint : Bool) (d : Digits) : List Char :=
  let length : Int := d.digits.length
  if d.exponent < 0 then
    ['0', '.'] ++ List.replicate (-d.exponent - 1).toNat '0' ++ d.digits
  else if length ≤ d.exponent + 1 then
    d.digits ++ List.replicate (d.exponent + 1 - length).toNat '0' ++
      (if keepPoint then ['.', '0'] else [])
  else
    let whole := (d.exponent + 1).toNat
    d.digits.take whole ++ '.' :: d.digits.drop whole

/-- One digit before the point, and a signed power of ten after the letter. -/
def scientific (d : Digits) : List Char :=
  let tail := d.digits.drop 1
  d.digits.take 1 ++ (if tail.isEmpty then [] else '.' :: tail) ++ 'e' ::
    (if d.exponent < 0 then '-' else '+') :: Numeral.digits d.exponent.natAbs

/-- A finite double in a style; a zero keeps its sign. -/
def write (n : Style) (bits : UInt64) : List Char :=
  let sign := if Binary64.isNegative bits then ['-'] else []
  if Binary64.isZero bits then
    sign ++ '0' :: (if n.keepPoint then ['.', '0'] else [])
  else
    let d := shortest bits
    sign ++ (if n.leastPositional ≤ d.exponent && d.exponent ≤ n.mostPositional then
      positional n.keepPoint d else scientific d)

end AnalysisGate.Decimal
