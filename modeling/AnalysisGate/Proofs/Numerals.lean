import AnalysisGate.Decimal.Shortest
import AnalysisGate.Proofs.Decimal.Rounding
import Mathlib

/-!
Numerals as they are written.

The numeral of a natural is made of digits, has no leading zero, and reads back. What is read as a
number under a bound is the texts of digits that denote one (`Numeral.readBelow?_eq_some_iff`). The
shortest digits of a double that is not zero are at least one, and the first of them is not a zero.
-/
namespace AnalysisGate

namespace Numeral

/-! ## Naturals -/

theorem isDigit_digit {d : Nat} (h : d < 10) : isDigit (digit d) = true := by
  interval_cases d <;> decide

theorem worth_digit {d : Nat} (h : d < 10) : worth (digit d) = d := by
  interval_cases d <;> decide

theorem digit_ne_zero {d : Nat} (h : d < 10) (hd : d ≠ 0) : digit d ≠ '0' := by
  intro hzero
  have hworth := worth_digit h
  rw [hzero] at hworth
  exact hd hworth.symm

theorem digits_of_lt {n : Nat} (h : n < 10) : digits n = [digit n] := by
  rw [digits, if_pos h]

theorem digits_of_ge {n : Nat} (h : 10 ≤ n) : digits n = digits (n / 10) ++ [digit (n % 10)] := by
  rw [digits, if_neg (Nat.not_lt.2 h)]

theorem isDigit_of_mem_digits {n : Nat} : ∀ {c : Char}, c ∈ digits n → isDigit c = true := by
  induction n using digits.induct with
  | case1 n h =>
    intro c hc
    rw [digits_of_lt h, List.mem_singleton] at hc
    exact hc ▸ isDigit_digit h
  | case2 n h ih =>
    intro c hc
    rw [digits_of_ge (Nat.not_lt.1 h), List.mem_append, List.mem_singleton] at hc
    rcases hc with hc | rfl
    · exact ih hc
    · exact isDigit_digit (Nat.mod_lt n (by decide))

theorem value_append_digit (cs : List Char) (c : Char) :
    value (cs ++ [c]) = 10 * value cs + worth c := by
  simp [value]

/-- A numeral reads back. -/
theorem value_digits (n : Nat) : value (digits n) = n := by
  induction n using digits.induct with
  | case1 n h => rw [digits_of_lt h]; simp [value, worth_digit h]
  | case2 n h ih =>
    rw [digits_of_ge (Nat.not_lt.1 h), value_append_digit, ih,
      worth_digit (Nat.mod_lt n (by decide))]
    omega

/-- A numeral has a first digit, which is a zero only for zero. -/
theorem digits_eq_cons (n : Nat) : ∃ c cs, digits n = c :: cs ∧ (n ≠ 0 → c ≠ '0') := by
  induction n using digits.induct with
  | case1 n h => exact ⟨digit n, [], digits_of_lt h, digit_ne_zero h⟩
  | case2 n h ih =>
    obtain ⟨c, cs, hcs, hc⟩ := ih
    refine ⟨c, cs ++ [digit (n % 10)], ?_, fun _ => hc (by omega)⟩
    rw [digits_of_ge (Nat.not_lt.1 h), hcs, List.cons_append]

theorem value_append (cs ds : List Char) :
    value (cs ++ ds) = value cs * 10 ^ ds.length + value ds := by
  induction ds using List.reverseRecOn with
  | nil => simp [value]
  | append_singleton ds d ih =>
    rw [← List.append_assoc, value_append_digit, value_append_digit, ih, List.length_append,
      List.length_singleton, Nat.pow_succ]
    ring

theorem value_zeros (k : Nat) : value (List.replicate k '0') = 0 := by
  induction k with
  | zero => rfl
  | succ k ih =>
    rw [List.replicate_succ', value_append_digit, ih]
    rfl

theorem value_append_zeros (cs : List Char) (k : Nat) :
    value (cs ++ List.replicate k '0') = value cs * 10 ^ k := by
  rw [value_append, value_zeros, List.length_replicate, Nat.add_zero]

theorem value_zeros_append (k : Nat) (cs : List Char) :
    value (List.replicate k '0' ++ cs) = value cs := by
  rw [value_append, value_zeros, Nat.zero_mul, Nat.zero_add]

theorem worth_le {c : Char} (h : isDigit c = true) : worth c ≤ 9 := by
  simp only [isDigit, Bool.and_eq_true, decide_eq_true_eq] at h
  have hnine : c.toNat ≤ '9'.toNat := h.2
  show c.toNat - '0'.toNat ≤ 9
  have hzero : '0'.toNat = 48 := rfl
  have hlast : '9'.toNat = 57 := rfl
  omega

theorem value_lt_pow {cs : List Char} (h : ∀ c ∈ cs, isDigit c = true) :
    value cs < 10 ^ cs.length := by
  induction cs using List.reverseRecOn with
  | nil => simp [value]
  | append_singleton cs c ih =>
    have hc := worth_le (h c (List.mem_append_right _ (List.mem_singleton.2 rfl)))
    have hcs := ih fun d hd => h d (List.mem_append_left _ hd)
    rw [value_append_digit, List.length_append, List.length_singleton, Nat.pow_succ]
    omega

theorem value_cons (c : Char) (cs : List Char) :
    value (c :: cs) = worth c * 10 ^ cs.length + value cs := by
  have happend := value_append [c] cs
  simpa [value] using happend

theorem worth_pos {c : Char} (h : isDigit c = true) (hc : c ≠ '0') : 0 < worth c := by
  simp only [isDigit, Bool.and_eq_true, decide_eq_true_eq] at h
  have hzero : '0'.toNat ≤ c.toNat := h.1
  have hne : c.toNat ≠ '0'.toNat := fun heq => hc (Char.toNat_inj.1 heq)
  show 0 < c.toNat - '0'.toNat
  omega

/-- A first digit that is no zero counts. -/
theorem pow_le_value {c : Char} {cs : List Char} (h : isDigit c = true) (hc : c ≠ '0') :
    10 ^ cs.length ≤ value (c :: cs) := by
  rw [value_cons]
  calc 10 ^ cs.length ≤ worth c * 10 ^ cs.length := Nat.le_mul_of_pos_left _ (worth_pos h hc)
    _ ≤ worth c * 10 ^ cs.length + value cs := Nat.le_add_right _ _

theorem digits_ne_nil (n : Nat) : digits n ≠ [] := by
  obtain ⟨c, cs, hcs, -⟩ := digits_eq_cons n
  simp [hcs]

/-- A numeral of more than one digit does not start with a zero. -/
theorem digits_head (n : Nat) : 1 < (digits n).length → (digits n).head? ≠ some '0' := by
  intro hlong
  obtain ⟨c, cs, hcs, hc⟩ := digits_eq_cons n
  have hn : n ≠ 0 := by
    rintro rfl
    simp [digits_of_lt] at hlong
  rw [hcs, List.head?_cons]
  simpa using hc hn

theorem lt_pow_length_digits (n : Nat) : n < 10 ^ (digits n).length := by
  induction n using digits.induct with
  | case1 n h => simpa [digits_of_lt h] using h
  | case2 n h ih =>
    rw [digits_of_ge (Nat.not_lt.1 h), List.length_append, List.length_singleton, Nat.pow_succ]
    omega

theorem pow_length_digits_le {n : Nat} (hn : n ≠ 0) : 10 ^ ((digits n).length - 1) ≤ n := by
  induction n using digits.induct with
  | case1 n h =>
    rw [digits_of_lt h]
    exact Nat.one_le_iff_ne_zero.2 hn
  | case2 n h ih =>
    have hle := ih (by omega)
    have hpos : 0 < (digits (n / 10)).length := List.length_pos_iff.2 (digits_ne_nil _)
    have hpow : 10 ^ (digits (n / 10)).length = 10 ^ ((digits (n / 10)).length - 1) * 10 := by
      rw [← Nat.pow_succ]
      congr 1
      omega
    rw [digits_of_ge (Nat.not_lt.1 h), List.length_append, List.length_singleton,
      Nat.add_sub_cancel, hpow]
    omega

/-! ## What is read as a number -/

/-- The value of a run of digits is the number that has them. -/
theorem value_eq_ofDigits (cs : List Char) :
    value cs = Nat.ofDigits 10 (cs.reverse.map worth) := by
  induction cs using List.reverseRecOn with
  | nil => rfl
  | append_singleton cs c ih =>
    rw [value_append_digit, ih, List.reverse_append, List.reverse_singleton, List.singleton_append,
      List.map_cons, Nat.ofDigits_cons, Nat.add_comm]

/-- A text is the digits of a number, with any zeros before them, after one plus sign or none. -/
def Denotes (cs : List Char) (n : Nat) : Prop :=
  ∃ sign ds, cs = sign ++ ds ∧ (sign = [] ∨ sign = ['+']) ∧ ds ≠ [] ∧
    (∀ d ∈ ds, isDigit d = true) ∧ Nat.ofDigits 10 (ds.reverse.map worth) = n

theorem value?_eq_some_iff {cs : List Char} {n : Nat} :
    value? cs = some n ↔ cs ≠ [] ∧ (∀ c ∈ cs, isDigit c = true) ∧
      Nat.ofDigits 10 (cs.reverse.map worth) = n := by
  rw [value?, ← value_eq_ofDigits]
  simp [and_assoc]

/-- What is read under a bound is what denotes a number under it. -/
theorem readBelow?_eq_some_iff {bound : Nat} {cs : List Char} {n : Nat} :
    readBelow? bound cs = some n ↔ Denotes cs n ∧ n < bound := by
  rw [readBelow?.eq_def, Option.filter_eq_some_iff, decide_eq_true_eq, value?_eq_some_iff]
  refine and_congr_left fun _ => ?_
  constructor
  · intro h
    split at h
    · next ds => exact ⟨['+'], ds, rfl, .inr rfl, h⟩
    · exact ⟨[], cs, rfl, .inl rfl, h⟩
  · rintro ⟨sign, ds, rfl, rfl | rfl, h⟩
    · split
      · next rest hplus =>
        -- the plus sign would be one of the digits
        obtain rfl : ds = '+' :: rest := hplus
        exact absurd (h.2.1 '+' List.mem_cons_self) (by decide)
      · exact h
    · exact h

/-- The numeral of a number denotes it. -/
theorem denotes_digits (n : Nat) : Denotes (digits n) n :=
  ⟨[], digits n, rfl, .inl rfl, digits_ne_nil n, fun _ => isDigit_of_mem_digits, by
    rw [← value_eq_ofDigits, value_digits]⟩

end Numeral

/-! ## Doubles -/

namespace Binary64

/-- A double that is not zero has a mantissa. -/
theorem mantissa_pos {bits : UInt64} (h : isZero bits = false) : 0 < (parts bits).mantissa := by
  have hne : bits.toNat % signBit ≠ 0 := by
    intro hzero
    rw [← toNat_magnitude] at hzero
    have hbits : magnitude bits = 0 := UInt64.toNat_inj.1 hzero
    simp [isZero, hbits] at h
  simp only [parts]
  split
  · omega
  · omega

end Binary64

namespace Decimal

open Binary64

/-- The interval around a positive double holds no zero. -/
theorem low_pos {p : Parts} (h : 0 < p.mantissa) : 0 < (roundingInterval p).1.low := by
  have hscale : 0 < 2 ^ (p.exponent - 2).toNat := Nat.two_pow_pos _
  simp only [roundingInterval]
  refine Nat.mul_pos ?_ hscale
  split <;> omega

theorem not_contains_zero {i : Interval} (h : 0 < i.low) {den : Nat} (hden : 0 < den) :
    i.contains 0 den = false := by
  have hlow : 0 < i.low * den := Nat.mul_pos h hden
  unfold Interval.contains
  split
  · simp
    omega
  · simp

theorem onGrid?_pos {i : Interval} (h : 0 < i.low) {num den : Nat} {unit : Int} {n : Nat}
    (hn : onGrid? i num den unit = some n) : 0 < n := by
  have hdown : 0 < Nat.pow 10 (-unit).toNat := Nat.pow_pos (by decide)
  simp only [onGrid?] at hn
  generalize num * Nat.pow 10 (-unit).toNat = top at hn
  generalize den * Nat.pow 10 unit.toNat = bottom at hn
  -- a neighbour below that is in the interval is not zero, and the one above never is
  have hfloor : i.contains (top / bottom * Nat.pow 10 unit.toNat) (Nat.pow 10 (-unit).toNat) =
      true → 0 < top / bottom := by
    intro hc
    refine Nat.pos_of_ne_zero fun hzero => ?_
    rw [hzero, Nat.zero_mul, not_contains_zero h hdown] at hc
    cases hc
  split at hn
  · cases hn
  · next hc _ =>
    cases hn
    exact hfloor hc
  · cases hn
    exact Nat.succ_pos _
  · next hc _ =>
    cases hn
    exact Nat.lt_of_lt_of_le (hfloor hc) (div_le_divEven top bottom)

/-- The power of ten that `decimalExponent` gives is not above the quotient. -/
theorem decimalExponent_le {num : Nat} (hnum : num ≠ 0) (den : Nat) :
    den * 10 ^ (decimalExponent num den).toNat ≤ num * 10 ^ (-decimalExponent num den).toNat := by
  unfold decimalExponent
  simp only
  split
  · assumption
  · have hlow := Numeral.pow_length_digits_le hnum
    have hhigh := Nat.le_of_lt (Numeral.lt_pow_length_digits den)
    have hpos : 0 < (Numeral.digits num).length :=
      List.length_pos_iff.2 (Numeral.digits_ne_nil num)
    generalize (Numeral.digits num).length = a at *
    generalize (Numeral.digits den).length = b at *
    by_cases hab : b ≤ a - 1
    · have hup : ((a : Int) - b - 1).toNat = a - 1 - b := by omega
      have hdown : (-((a : Int) - b - 1)).toNat = 0 := by omega
      rw [hup, hdown, Nat.pow_zero, Nat.mul_one]
      calc den * 10 ^ (a - 1 - b) ≤ 10 ^ b * 10 ^ (a - 1 - b) := Nat.mul_le_mul_right _ hhigh
        _ = 10 ^ (a - 1) := by rw [← Nat.pow_add]; congr 1; omega
        _ ≤ num := hlow
    · have hup : ((a : Int) - b - 1).toNat = 0 := by omega
      have hdown : (-((a : Int) - b - 1)).toNat = b - (a - 1) := by omega
      rw [hup, hdown, Nat.pow_zero, Nat.mul_one]
      calc den ≤ 10 ^ b := hhigh
        _ = 10 ^ (a - 1) * 10 ^ (b - (a - 1)) := by rw [← Nat.pow_add]; congr 1; omega
        _ ≤ num * 10 ^ (b - (a - 1)) := Nat.mul_le_mul_right _ hlow

/-- The next power of ten is above the quotient. -/
theorem lt_decimalExponent {num den : Nat} (hnum : num ≠ 0) (hden : 0 < den) :
    (num : ℚ) / den < 10 ^ (decimalExponent num den + 1) := by
  have hten : (10 : ℚ) ≠ 0 := by norm_num
  have hden' : (0 : ℚ) < den := Nat.cast_pos.2 hden
  have hcheck := le_quotient_iff (b := 10) (by decide) num hden
    (((Numeral.digits num).length : Int) - (Numeral.digits den).length)
  rw [Nat.cast_ofNat] at hcheck
  unfold decimalExponent
  simp only [hcheck]
  split
  · have hnumhigh : (num : ℚ) < 10 ^ (Numeral.digits num).length := by
      exact_mod_cast Numeral.lt_pow_length_digits num
    have hdenlow : (10 : ℚ) ^ ((Numeral.digits den).length - 1) ≤ den := by
      exact_mod_cast Numeral.pow_length_digits_le hden.ne'
    have hlength : 0 < (Numeral.digits den).length :=
      List.length_pos_iff.2 (Numeral.digits_ne_nil den)
    have hplace : (((Numeral.digits num).length : Int) - (Numeral.digits den).length + 1) =
        (Numeral.digits num).length - ((Numeral.digits den).length - 1 : Nat) := by omega
    rw [hplace, zpow_sub₀ hten, zpow_natCast, zpow_natCast, div_lt_div_iff₀ hden' (by positivity)]
    calc (num : ℚ) * 10 ^ ((Numeral.digits den).length - 1)
        ≤ num * den := by gcongr
      _ < 10 ^ (Numeral.digits num).length * den := by gcongr
  · next hless =>
    rw [sub_add_cancel]
    exact not_le.1 hless

/-- Seventeen digits, which are taken if all grids fail, are not all zeros. -/
theorem fallback_pos {num den : Nat} {first : Int} (hden : 0 < den)
    (h : den * 10 ^ first.toNat ≤ num * 10 ^ (-first).toNat) :
    0 < num * 10 ^ (16 - first).toNat / (den * 10 ^ (first - 16).toNat) := by
  refine Nat.div_pos ?_ (Nat.mul_pos hden (Nat.pow_pos (by decide)))
  have hup : 10 ^ (first - 16).toNat ≤ 10 ^ first.toNat :=
    Nat.pow_le_pow_right (by decide) (by omega)
  have hdown : 10 ^ (-first).toNat ≤ 10 ^ (16 - first).toNat :=
    Nat.pow_le_pow_right (by decide) (by omega)
  calc den * 10 ^ (first - 16).toNat ≤ den * 10 ^ first.toNat := Nat.mul_le_mul_left _ hup
    _ ≤ num * 10 ^ (-first).toNat := h
    _ ≤ num * 10 ^ (16 - first).toNat := Nat.mul_le_mul_left _ hdown

theorem search_pos {i : Interval} (hlow : 0 < i.low) {num den : Nat} {first : Int}
    (hden : 0 < den) (h : den * 10 ^ first.toNat ≤ num * 10 ^ (-first).toNat) (count tries : Nat) :
    0 < (search i num den first count tries).1 := by
  induction tries generalizing count with
  | zero => exact fallback_pos hden h
  | succ tries ih =>
    simp only [search]
    split
    · next hn => exact onGrid?_pos hlow hn
    · exact ih (count + 1)

/-- Digits without the zeros at their end keep the first one, if that is not a zero. -/
theorem stripZeros_cons {c : Char} (hc : c ≠ '0') (cs : List Char) :
    ∃ tail, stripZeros (c :: cs) = c :: tail ∧ ∀ d ∈ tail, d ∈ cs := by
  unfold stripZeros
  rw [List.reverse_cons]
  have hstop : ∀ l : List Char,
      (l ++ [c]).dropWhile (· == '0') = l.dropWhile (· == '0') ++ [c] := by
    intro l
    induction l with
    | nil => simp [hc]
    | cons d l ih =>
      by_cases hd : d = '0'
      · subst hd
        simp [ih]
      · simp [hd]
  rw [hstop, List.reverse_append, List.reverse_singleton]
  refine ⟨(cs.reverse.dropWhile (· == '0')).reverse, rfl, fun d hd => ?_⟩
  rw [List.mem_reverse] at hd
  exact List.mem_reverse.1 ((List.dropWhile_sublist _).subset hd)

/-- The shortest digits of a double that is not zero: digits, of which the first is no zero. -/
theorem shortest_digits {bits : UInt64} (h : isZero bits = false) :
    ∃ c tail, (shortest bits).digits = c :: tail ∧ c ≠ '0' ∧
      ∀ d ∈ c :: tail, Numeral.isDigit d = true := by
  have hm := mantissa_pos h
  have hden : 0 < (roundingInterval (parts bits)).1.den := Nat.two_pow_pos _
  have hnum : (roundingInterval (parts bits)).2 ≠ 0 :=
    Nat.ne_of_gt (Nat.mul_pos (by omega) (Nat.two_pow_pos _))
  have hpos := search_pos (low_pos hm) hden
    (decimalExponent_le hnum _) 1 17
  obtain ⟨c, cs, hcs, hc⟩ := Numeral.digits_eq_cons (search (roundingInterval (parts bits)).1
    (roundingInterval (parts bits)).2 (roundingInterval (parts bits)).1.den
    (decimalExponent (roundingInterval (parts bits)).2 (roundingInterval (parts bits)).1.den)
    1 17).1
  have hc := hc (Nat.ne_of_gt hpos)
  obtain ⟨tail, htail, hsub⟩ := stripZeros_cons hc cs
  have hall : ∀ d ∈ c :: cs, Numeral.isDigit d = true := fun d hd =>
    Numeral.isDigit_of_mem_digits (hcs ▸ hd)
  refine ⟨c, tail, ?_, hc, fun d hd => ?_⟩
  · rw [← htail, ← hcs]
    rfl
  · rcases List.mem_cons.1 hd with rfl | hd
    · exact hall d List.mem_cons_self
    · exact hall d (List.mem_cons_of_mem c (hsub d hd))

end Decimal

end AnalysisGate
