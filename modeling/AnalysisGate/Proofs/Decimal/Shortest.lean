import AnalysisGate.Proofs.Numerals
import Mathlib

/-!
The shortest digits name their double.

The digits that are written for a double lie among the reals that round to it (`shortest_holds`):
seventeen digits are finer than every interval, so the last grid that is tried has a point in it.
No real lies in the intervals of two magnitudes (`magnitude_eq_of_holds`), so the digits tell the
magnitude.
-/
namespace AnalysisGate.Decimal

open Binary64

/-! ## Intervals -/

namespace Interval

def bottom (i : Interval) : ℚ := i.low / i.den

def top (i : Interval) : ℚ := i.high / i.den

/-- A rational lies in the interval. -/
def Holds (i : Interval) (x : ℚ) : Prop :=
  if i.closed then i.bottom ≤ x ∧ x ≤ i.top else i.bottom < x ∧ x < i.top

variable {i : Interval} {x : ℚ}

theorem contains_iff (hi : 0 < i.den) (num : Nat) {den : Nat} (hden : 0 < den) :
    i.contains num den = true ↔ i.Holds (num / den) := by
  have hi' : (0 : ℚ) < i.den := Nat.cast_pos.2 hi
  have hden' : (0 : ℚ) < den := Nat.cast_pos.2 hden
  rw [Holds, bottom, top, div_le_div_iff₀ hi' hden', div_le_div_iff₀ hden' hi',
    div_lt_div_iff₀ hi' hden', div_lt_div_iff₀ hden' hi', contains]
  norm_cast
  split <;> simp

theorem Holds.bottom_le (h : i.Holds x) : i.bottom ≤ x := by
  unfold Holds at h
  split at h
  · exact h.1
  · exact h.1.le

theorem Holds.le_top (h : i.Holds x) : x ≤ i.top := by
  unfold Holds at h
  split at h
  · exact h.2
  · exact h.2.le

theorem holds_of_between (hbottom : i.bottom < x) (htop : x < i.top) : i.Holds x := by
  unfold Holds
  split
  · exact ⟨hbottom.le, htop.le⟩
  · exact ⟨hbottom, htop⟩

end Interval

/-! ## Grids -/

section Grid

variable {i : Interval} {num den n : Nat} {unit : Int}

/-- A point of a grid, as it is looked for in an interval. -/
theorem contains_point (hi : 0 < i.den) (n : Nat) (unit : Int) :
    i.contains (n * Nat.pow 10 unit.toNat) (Nat.pow 10 (-unit).toNat) = true ↔
      i.Holds (n * 10 ^ unit) := by
  have hpower := pow_div_pow 10 unit
  have hdown : 0 < Nat.pow 10 (-unit).toNat := Nat.pow_pos (by decide)
  rw [Nat.cast_ofNat] at hpower
  rw [Interval.contains_iff hi _ hdown, Nat.cast_mul, mul_div_assoc, hpower]

/-- The neighbour below on a grid. -/
def gridFloor (num den : Nat) (unit : Int) : Nat :=
  num * Nat.pow 10 (-unit).toNat / (den * Nat.pow 10 unit.toNat)

theorem gridFloor_spec (num : Nat) {den : Nat} (hden : 0 < den) (unit : Int) :
    (gridFloor num den unit : ℚ) * 10 ^ unit ≤ num / den ∧
      (num : ℚ) / den < (gridFloor num den unit + 1 : Nat) * 10 ^ unit := by
  have hunit : (0 : ℚ) < 10 ^ unit := by positivity
  have hscaled := quotient_div_pow 10 num den unit
  rw [Nat.cast_ofNat] at hscaled
  have hfloor : gridFloor num den unit = ⌊(num : ℚ) / den / 10 ^ unit⌋₊ := by
    rw [gridFloor, ← hscaled, Nat.floor_div_eq_div]
  rw [← le_div_iff₀ hunit, ← div_lt_iff₀ hunit, hfloor, Nat.cast_add_one]
  exact ⟨Nat.floor_le (by positivity), Nat.lt_floor_add_one _⟩

theorem onGrid?_eq (i : Interval) (num den : Nat) (unit : Int) :
    onGrid? i num den unit =
      match i.contains (gridFloor num den unit * Nat.pow 10 unit.toNat) (Nat.pow 10 (-unit).toNat),
        i.contains ((gridFloor num den unit + 1) * Nat.pow 10 unit.toNat)
          (Nat.pow 10 (-unit).toNat) with
      | false, false => none
      | true, false => some (gridFloor num den unit)
      | false, true => some (gridFloor num den unit + 1)
      | true, true => some (divEven (num * Nat.pow 10 (-unit).toNat)
          (den * Nat.pow 10 unit.toNat)) := rfl

/-- What is found on a grid is a neighbour, and lies in the interval. -/
theorem onGrid?_spec (hi : 0 < i.den) (hn : onGrid? i num den unit = some n) :
    n ≤ gridFloor num den unit + 1 ∧ i.Holds (n * 10 ^ unit) := by
  have hfloor := contains_point hi (gridFloor num den unit) unit
  have hceil := contains_point hi (gridFloor num den unit + 1) unit
  rw [onGrid?_eq] at hn
  split at hn
  · cases hn
  · next hc _ =>
    cases hn
    exact ⟨Nat.le_succ _, hfloor.1 hc⟩
  · next _ hc =>
    cases hn
    exact ⟨Nat.le_refl _, hceil.1 hc⟩
  · next hc hc' =>
    cases hn
    have hlow := div_le_divEven (num * Nat.pow 10 (-unit).toNat) (den * Nat.pow 10 unit.toNat)
    have hhigh := divEven_le_succ (num * Nat.pow 10 (-unit).toNat) (den * Nat.pow 10 unit.toNat)
    refine ⟨hhigh, ?_⟩
    rcases hlow.eq_or_lt with heq | hless
    · rw [← heq]
      exact hfloor.1 hc
    · rw [Nat.le_antisymm hhigh hless]
      exact hceil.1 hc'

/-- A grid that is finer than the interval around a value has a neighbour of it there. -/
theorem onGrid?_isSome (hi : 0 < i.den) (hden : 0 < den) (hbottom : i.bottom < num / den)
    (htop : (num : ℚ) / den < i.top) (hfine : (10 : ℚ) ^ unit < i.top - i.bottom) :
    (onGrid? i num den unit).isSome := by
  obtain ⟨hlow, hhigh⟩ := gridFloor_spec num hden unit
  have hfloor := contains_point hi (gridFloor num den unit) unit
  have hceil := contains_point hi (gridFloor num den unit + 1) unit
  rw [onGrid?_eq]
  rcases lt_or_ge i.bottom (gridFloor num den unit * 10 ^ unit) with hin | hout
  · rw [hfloor.2 (Interval.holds_of_between hin (lt_of_le_of_lt hlow htop))]
    split <;> simp_all
  · -- the neighbour below is out of the interval, so the one above is not past its end
    have hnext : ((gridFloor num den unit + 1 : Nat) : ℚ) * 10 ^ unit < i.top := by
      rw [Nat.cast_add_one, add_mul, one_mul]
      linarith
    rw [hceil.2 (Interval.holds_of_between (hbottom.trans hhigh) hnext)]
    split <;> simp_all

/-- The search stops at the grid of seventeen digits, if not before. -/
theorem search_spec {first : Int} (hlast : (onGrid? i num den (first - 16)).isSome) :
    ∀ {tries count : Nat}, count + tries = 18 → 0 < tries →
      ∃ n unit, search i num den first count tries = (n, unit) ∧ first - 16 ≤ unit ∧
        onGrid? i num den unit = some n := by
  intro tries
  induction tries with
  | zero => intro count _ hpos; exact absurd hpos (Nat.lt_irrefl 0)
  | succ tries ih =>
    intro count hcount _
    simp only [search]
    split
    · next n hn => exact ⟨n, _, rfl, by omega, hn⟩
    · next hnone =>
      have hpos : 0 < tries := by
        by_contra hzero
        have hseventeen : first - (count : Int) + 1 = first - 16 := by omega
        rw [hseventeen] at hnone
        simp [hnone] at hlast
      exact ih (by omega) hpos

end Grid

/-! ## The interval of a double -/

section Double

variable (bits : UInt64)

/-- The interval of a double. -/
def interval : Interval := (roundingInterval (parts bits)).1

/-- Quarters of the last place from the lower end of the interval to the double. -/
def below : Nat := if (parts bits).mantissa = 2 ^ 52 ∧ (parts bits).exponent ≠ -1074 then 1 else 2

theorem interval_den_pos : 0 < (interval bits).den := Nat.pow_pos Nat.two_pos

theorem quarter_eq (n : Nat) : ((n * Nat.pow 2 ((parts bits).exponent - 2).toNat : Nat) : ℚ) /
    (interval bits).den = n * 2 ^ ((parts bits).exponent - 2) := by
  have hpower := pow_div_pow 2 ((parts bits).exponent - 2)
  rw [Nat.cast_ofNat] at hpower
  rw [Nat.cast_mul, mul_div_assoc, ← hpower]
  rfl

theorem interval_top : (interval bits).top =
    (4 * (parts bits).mantissa + 2 : Nat) * 2 ^ ((parts bits).exponent - 2) :=
  quarter_eq bits _

theorem interval_bottom : (interval bits).bottom =
    (4 * (parts bits).mantissa - below bits : Nat) * 2 ^ ((parts bits).exponent - 2) := by
  rw [← quarter_eq]
  simp only [Interval.bottom, interval, roundingInterval, below, Bool.and_eq_true,
    decide_eq_true_eq]
  rfl

theorem below_le : below bits ≤ 2 := by
  unfold below
  split <;> decide

variable {bits} {x : ℚ}

/-- Only a double with an even mantissa has the ends of its interval. -/
theorem ends_of_holds (h : (interval bits).Holds x) :
    (interval bits).bottom ≤ x ∧ x ≤ (interval bits).top ∧
      ((parts bits).mantissa % 2 = 1 → (interval bits).bottom < x ∧ x < (interval bits).top) := by
  refine ⟨h.bottom_le, h.le_top, fun hodd => ?_⟩
  have hopen : (interval bits).closed = false := by
    show ((parts bits).mantissa % 2 == 0) = false
    rw [hodd]
    rfl
  rw [Interval.Holds, hopen] at h
  exact h

/-- The interval of a double ends where that of the next one starts. -/
theorem not_holds_both {bits' : UInt64}
    (hless : (parts bits).exponent < (parts bits').exponent ∨
      (parts bits).exponent = (parts bits').exponent ∧
        (parts bits).mantissa < (parts bits').mantissa)
    (h : (interval bits).Holds x) (h' : (interval bits').Holds x) : False := by
  obtain ⟨-, htop, hodd⟩ := ends_of_holds h
  obtain ⟨hbottom, -, hodd'⟩ := ends_of_holds h'
  rw [interval_top] at htop hodd
  rw [interval_bottom] at hbottom hodd'
  have hpos : (0 : ℚ) < 2 ^ ((parts bits).exponent - 2) := by positivity
  -- both ends in quarters of the last place of the smaller double
  have hscaled (c : Nat)
      (hc : c * (2 : ℚ) ^ ((parts bits).exponent - 2) ≤ 2 ^ ((parts bits').exponent - 2)) :
      (4 * (parts bits').mantissa - below bits') * c ≤ 4 * (parts bits).mantissa + 2 ∧
        ((parts bits).mantissa % 2 = 1 ∨ (parts bits').mantissa % 2 = 1 →
          (4 * (parts bits').mantissa - below bits') * c < 4 * (parts bits).mantissa + 2) := by
    have hlow : (((4 * (parts bits').mantissa - below bits') * c : Nat) : ℚ) *
        2 ^ ((parts bits).exponent - 2) ≤
        (4 * (parts bits').mantissa - below bits' : Nat) * 2 ^ ((parts bits').exponent - 2) := by
      rw [Nat.cast_mul, mul_assoc]
      gcongr
    refine ⟨?_, fun hsome => ?_⟩
    · exact_mod_cast le_of_mul_le_mul_right ((hlow.trans hbottom).trans htop) hpos
    · have hstrict : (((4 * (parts bits').mantissa - below bits') * c : Nat) : ℚ) *
          2 ^ ((parts bits).exponent - 2) <
          (4 * (parts bits).mantissa + 2 : Nat) * 2 ^ ((parts bits).exponent - 2) := by
        rcases hsome with hsome | hsome
        · exact lt_of_le_of_lt (hlow.trans hbottom) (hodd hsome).2
        · exact lt_of_lt_of_le (lt_of_le_of_lt hlow (hodd' hsome).1) htop
      exact_mod_cast lt_of_mul_lt_mul_right hstrict hpos.le
  have hbelow := below_le bits'
  rcases hless with hless | ⟨heq, hless⟩
  · have hdouble : ((2 : Nat) : ℚ) * 2 ^ ((parts bits).exponent - 2) ≤
        2 ^ ((parts bits').exponent - 2) := by
      rw [Nat.cast_ofNat, mul_comm, ← zpow_add_one₀ two_ne_zero]
      exact zpow_le_zpow_right₀ one_le_two (by omega)
    obtain ⟨hle, hstrict⟩ := hscaled 2 hdouble
    have hnormal : (parts bits').exponent ≠ -1074 := by
      have hleast := le_exponent bits
      omega
    have hmantissa := mantissa_lt bits
    have hmantissa' := le_mantissa hnormal
    -- the larger double is a power of two, and the smaller one the last below it
    have hpower : (parts bits').mantissa = 2 ^ 52 := by omega
    have hone : below bits' = 1 := if_pos ⟨hpower, hnormal⟩
    have hlast := hstrict (.inl (by omega))
    omega
  · have hsame : ((1 : Nat) : ℚ) * 2 ^ ((parts bits).exponent - 2) ≤
        2 ^ ((parts bits').exponent - 2) := by
      rw [Nat.cast_one, one_mul, heq]
    obtain ⟨hle, hstrict⟩ := hscaled 1 hsame
    have hlast := hstrict (by omega)
    omega

/-- **No real lies in the intervals of two magnitudes.** -/
theorem magnitude_eq_of_holds {bits' : UInt64} (h : (interval bits).Holds x)
    (h' : (interval bits').Holds x) : magnitude bits = magnitude bits' := by
  have hnot := fun hless => not_holds_both hless h h'
  have hnot' := fun hless => not_holds_both hless h' h
  rw [imp_false, not_or, not_and] at hnot hnot'
  have hexponent : (parts bits).exponent = (parts bits').exponent := by
    obtain ⟨hge, -⟩ := hnot
    obtain ⟨hge', -⟩ := hnot'
    omega
  have hmantissa : (parts bits).mantissa = (parts bits').mantissa := by
    have hge := hnot.2 hexponent
    have hge' := hnot'.2 hexponent.symm
    omega
  exact magnitude_eq_of_parts hmantissa hexponent

/-! ## The digits -/

/-- The number that digits stand for. -/
def Digits.value (d : Digits) : ℚ :=
  Numeral.value d.digits * 10 ^ (d.exponent + 1 - d.digits.length)

section Bounds

variable {d : Digits} {c : Char} {tail : List Char}

theorem Digits.value_lt (hdigits : ∀ x ∈ d.digits, Numeral.isDigit x = true) :
    d.value < 10 ^ (d.exponent + 1) := by
  have hless : (Numeral.value d.digits : ℚ) < 10 ^ (d.digits.length : Int) := by
    rw [zpow_natCast]
    exact_mod_cast Numeral.value_lt_pow hdigits
  calc d.value < 10 ^ (d.digits.length : Int) * 10 ^ (d.exponent + 1 - d.digits.length) := by
        rw [value]
        gcongr
    _ = 10 ^ (d.exponent + 1) := by
      rw [← zpow_add₀ (by norm_num), add_sub_cancel]

theorem Digits.le_value (hd : d.digits = c :: tail) (hc : c ≠ '0')
    (hdigits : ∀ x ∈ c :: tail, Numeral.isDigit x = true) : 10 ^ d.exponent ≤ d.value := by
  have hle : (10 : ℚ) ^ (tail.length : Int) ≤ Numeral.value (c :: tail) := by
    rw [zpow_natCast]
    exact_mod_cast Numeral.pow_le_value (hdigits c List.mem_cons_self) hc
  have hplace : d.exponent + 1 - (c :: tail).length = d.exponent - tail.length := by
    rw [List.length_cons]
    omega
  calc (10 : ℚ) ^ d.exponent
      = 10 ^ (tail.length : Int) * 10 ^ (d.exponent - tail.length) := by
        rw [← zpow_add₀ (by norm_num), add_sub_cancel]
    _ ≤ Numeral.value (c :: tail) * 10 ^ (d.exponent - tail.length) := by gcongr
    _ = d.value := by rw [value, hd, hplace]

end Bounds

theorem exists_zeros (cs : List Char) : ∃ k, cs = stripZeros cs ++ List.replicate k '0' := by
  have hzeros : cs.reverse.takeWhile (· == '0') =
      List.replicate (cs.reverse.takeWhile (· == '0')).length '0' := by
    refine List.eq_replicate_of_mem fun c hc => ?_
    simpa using List.mem_takeWhile_imp hc
  refine ⟨(cs.reverse.takeWhile (· == '0')).length, ?_⟩
  rw [stripZeros, ← List.reverse_replicate, ← hzeros, ← List.reverse_append,
    List.takeWhile_append_dropWhile, List.reverse_reverse]

/-- The double itself, over the denominator of its interval. -/
def numerator (bits : UInt64) : Nat := (roundingInterval (parts bits)).2

/-- The power of ten of the first digit of a double. -/
def leading (bits : UInt64) : Int := decimalExponent (numerator bits) (interval bits).den

theorem quotient_eq (bits : UInt64) : (numerator bits : ℚ) / (interval bits).den =
    (4 * (parts bits).mantissa : Nat) * 2 ^ ((parts bits).exponent - 2) :=
  quarter_eq bits _

theorem shortest_of_search {n : Nat} {unit : Int}
    (h : search (interval bits) (numerator bits) (interval bits).den (leading bits) 1 17 =
      (n, unit)) :
    shortest bits = ⟨stripZeros (Numeral.digits n), unit + (Numeral.digits n).length - 1⟩ := by
  have hshortest : shortest bits = (fun r : Nat × Int => (⟨stripZeros (Numeral.digits r.1),
      r.2 + (Numeral.digits r.1).length - 1⟩ : Digits)) (search (interval bits) (numerator bits)
        (interval bits).den (leading bits) 1 17) := rfl
  rw [hshortest, h]

section Nonzero

variable (h : isZero bits = false)

include h

theorem numerator_pos : 0 < numerator bits :=
  Nat.mul_pos (Nat.mul_pos (by decide) (mantissa_pos h)) (Nat.pow_pos Nat.two_pos)

theorem leading_spec : (10 : ℚ) ^ leading bits ≤
      (numerator bits : ℚ) / (interval bits).den ∧
    (numerator bits : ℚ) / (interval bits).den < 10 ^ (leading bits + 1) := by
  have hnum := (numerator_pos h).ne'
  have hden := interval_den_pos bits
  have hlow := (le_quotient_iff (b := 10) (by decide) _ hden (leading bits)).1
    (decimalExponent_le hnum _)
  rw [Nat.cast_ofNat] at hlow
  exact ⟨hlow, lt_decimalExponent hnum hden⟩

/-- Seventeen digits are finer than the interval. -/
theorem fine_leading :
    (10 : ℚ) ^ (leading bits - 16) < (interval bits).top - (interval bits).bottom := by
  have hpos : (0 : ℚ) < 2 ^ ((parts bits).exponent - 2) := by positivity
  have hmantissa := mantissa_lt bits
  have hmantissa' := mantissa_pos h
  have hwidth : (interval bits).top - (interval bits).bottom =
      (2 + below bits : Nat) * 2 ^ ((parts bits).exponent - 2) := by
    have hbelow := below_le bits
    rw [interval_top, interval_bottom, ← sub_mul, ← Nat.cast_sub (by omega)]
    congr 2
    omega
  have hunits : 4 * (parts bits).mantissa < (2 + below bits) * 10 ^ 16 := by
    unfold below
    split
    · next hpower => omega
    · omega
  have hunits' : ((4 * (parts bits).mantissa : Nat) : ℚ) < (2 + below bits : Nat) * 10 ^ 16 := by
    exact_mod_cast hunits
  have hleading := (leading_spec h).1
  rw [quotient_eq] at hleading
  rw [hwidth, zpow_sub₀ (by norm_num), div_lt_iff₀ (by positivity)]
  calc (10 : ℚ) ^ leading bits
      ≤ (4 * (parts bits).mantissa : Nat) * 2 ^ ((parts bits).exponent - 2) := hleading
    _ < (2 + below bits : Nat) * 10 ^ 16 * 2 ^ ((parts bits).exponent - 2) := by gcongr
    _ = (2 + below bits : Nat) * 2 ^ ((parts bits).exponent - 2) * 10 ^ (16 : Int) := by
      rw [mul_right_comm]
      norm_cast

/-- The digits are those of a grid point of the interval. -/
theorem shortest_eq : ∃ (n : Nat) (unit : Int), (interval bits).Holds (n * 10 ^ unit) ∧
    n ≤ 10 ^ 17 ∧
      shortest bits = ⟨stripZeros (Numeral.digits n), unit + (Numeral.digits n).length - 1⟩ := by
  have hden := interval_den_pos bits
  have hmantissa := mantissa_pos h
  have hpos : (0 : ℚ) < 2 ^ ((parts bits).exponent - 2) := by positivity
  have hbottom : (interval bits).bottom < (numerator bits : ℚ) / (interval bits).den := by
    have hless : 4 * (parts bits).mantissa - below bits < 4 * (parts bits).mantissa := by
      unfold below
      split <;> omega
    rw [interval_bottom, quotient_eq]
    gcongr
  have htop : (numerator bits : ℚ) / (interval bits).den < (interval bits).top := by
    rw [interval_top, quotient_eq]
    gcongr
    omega
  -- the finest grid has a point between the ends, so the search stops there at the latest
  have hlast := onGrid?_isSome hden hden hbottom htop (fine_leading h)
  obtain ⟨n, unit, hsearch, hunit, hn⟩ := search_spec hlast (show 1 + 17 = 18 from rfl) (by decide)
  obtain ⟨hle, hholds⟩ := onGrid?_spec hden hn
  refine ⟨n, unit, hholds, ?_, shortest_of_search hsearch⟩
  -- the point below has no more than seventeen digits, as the grid is no finer
  have hless : (gridFloor (numerator bits) (interval bits).den unit : ℚ) * 10 ^ unit <
      (10 ^ 17 : Nat) * 10 ^ unit := by
    calc _ ≤ (numerator bits : ℚ) / (interval bits).den := (gridFloor_spec _ hden unit).1
      _ < 10 ^ (leading bits + 1) := (leading_spec h).2
      _ ≤ 10 ^ (17 + unit) := zpow_le_zpow_right₀ (by norm_num) (by omega)
      _ = (10 ^ 17 : Nat) * 10 ^ unit := by
        rw [zpow_add₀ (by norm_num)]
        norm_cast
  have hfew : gridFloor (numerator bits) (interval bits).den unit < 10 ^ 17 := by
    exact_mod_cast lt_of_mul_lt_mul_right hless (by positivity)
  omega

/-- **The digits of a double lie among the reals that round to it**, and there are few of them. -/
theorem shortest_holds : (interval bits).Holds (shortest bits).value ∧
    Numeral.value (shortest bits).digits ≤ 10 ^ 17 := by
  obtain ⟨n, unit, hholds, hle, heq⟩ := shortest_eq h
  obtain ⟨k, hk⟩ := exists_zeros (Numeral.digits n)
  have hvalue : n = Numeral.value (stripZeros (Numeral.digits n)) * 10 ^ k := by
    rw [← Numeral.value_append_zeros, ← hk, Numeral.value_digits]
  have hlength : (Numeral.digits n).length = (stripZeros (Numeral.digits n)).length + k := by
    conv_lhs => rw [hk, List.length_append, List.length_replicate]
  have hsame : (shortest bits).value = n * 10 ^ unit := by
    have hplace : unit + ((Numeral.digits n).length : Int) - 1 + 1 -
        (stripZeros (Numeral.digits n)).length = k + unit := by omega
    rw [heq, Digits.value]
    simp only [hplace]
    rw [zpow_add₀ (by norm_num), ← mul_assoc, zpow_natCast]
    congr 1
    exact_mod_cast hvalue.symm
  rw [hsame]
  refine ⟨hholds, ?_⟩
  rw [heq]
  calc Numeral.value (stripZeros (Numeral.digits n))
      ≤ Numeral.value (stripZeros (Numeral.digits n)) * 10 ^ k :=
        Nat.le_mul_of_pos_right _ (Nat.pow_pos (by decide))
    _ = n := hvalue.symm
    _ ≤ 10 ^ 17 := hle

end Nonzero

end Double

end AnalysisGate.Decimal
