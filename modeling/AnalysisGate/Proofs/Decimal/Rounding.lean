import AnalysisGate.Decimal.Binary64
import Mathlib

/-!
Doubles as rationals.

`Parts.value` is the rational that the parts of a double stand for. Rounding a quotient adds at most
half of a last place to it (`value_nearest_le`), and it stays finite below the middle between the
largest double and the next power of two (`isFinite_nearest`). Different magnitudes have different
parts (`magnitude_eq_of_parts`).
-/
namespace AnalysisGate.Binary64

/-! ## Powers with an integer exponent -/

/-- A power is a quotient of two powers, of which one is one. -/
theorem pow_div_pow (b : Nat) (e : Int) :
    ((Nat.pow b e.toNat : Nat) : ℚ) / (Nat.pow b (-e).toNat : Nat) = (b : ℚ) ^ e := by
  obtain ⟨n, rfl | rfl⟩ := e.eq_nat_or_neg
  · have hzero : (-(n : Int)).toNat = 0 := by omega
    rw [Int.toNat_natCast, hzero, zpow_natCast]
    simp
  · have hzero : (-(n : Int)).toNat = 0 := by omega
    rw [neg_neg, Int.toNat_natCast, hzero, zpow_neg, zpow_natCast]
    simp

theorem le_quotient_iff {b : Nat} (hb : 0 < b) (num : Nat) {den : Nat} (hden : 0 < den) (e : Int) :
    den * Nat.pow b e.toNat ≤ num * Nat.pow b (-e).toNat ↔ (b : ℚ) ^ e ≤ num / den := by
  have hdown : (0 : ℚ) < (Nat.pow b (-e).toNat : Nat) := Nat.cast_pos.2 (Nat.pow_pos hb)
  have hden' : (0 : ℚ) < den := Nat.cast_pos.2 hden
  rw [← pow_div_pow, div_le_div_iff₀ hdown hden', mul_comm den]
  norm_cast

/-- A quotient in units of a power. -/
theorem quotient_div_pow (b num den : Nat) (e : Int) :
    ((num * Nat.pow b (-e).toNat : Nat) : ℚ) / (den * Nat.pow b e.toNat : Nat) =
      num / den / (b : ℚ) ^ e := by
  rw [← pow_div_pow b e, Nat.cast_mul, Nat.cast_mul, div_div_eq_mul_div, div_mul_eq_mul_div,
    div_div]

/-! ## Rounding to a natural -/

theorem div_le_divEven (num den : Nat) : num / den ≤ divEven num den := by
  simp only [divEven]
  split
  · exact Nat.le_refl _
  · split
    · exact Nat.le_succ _
    · split
      · exact Nat.le_refl _
      · exact Nat.le_succ _

theorem divEven_le_succ (num den : Nat) : divEven num den ≤ num / den + 1 := by
  simp only [divEven]
  split
  · exact Nat.le_succ _
  · split
    · exact Nat.le_refl _
    · split
      · exact Nat.le_succ _
      · exact Nat.le_refl _

theorem two_mul_divEven_le (num den : Nat) : 2 * (divEven num den * den) ≤ 2 * num + den := by
  have hdivision : den * (num / den) + num % den = num := Nat.div_add_mod num den
  have hdown : 2 * (num / den * den) ≤ 2 * num + den := by
    rw [Nat.mul_comm (num / den)]
    omega
  have hup (h : den ≤ 2 * (num % den)) : 2 * ((num / den + 1) * den) ≤ 2 * num + den := by
    rw [Nat.add_mul, Nat.one_mul, Nat.mul_comm (num / den)]
    omega
  simp only [divEven]
  split
  · exact hdown
  · next hless =>
    split
    · next hmore => exact hup (Nat.le_of_lt hmore)
    · split
      · exact hdown
      · exact hup (Nat.le_of_not_lt hless)

theorem divEven_le_half (num : Nat) {den : Nat} (hden : 0 < den) :
    (divEven num den : ℚ) ≤ num / den + 1 / 2 := by
  have hden' : (0 : ℚ) < den := Nat.cast_pos.2 hden
  have hcast : 2 * ((divEven num den : ℚ) * den) ≤ 2 * num + den := by
    exact_mod_cast two_mul_divEven_le num den
  rw [div_add_div _ _ hden'.ne' two_ne_zero, le_div_iff₀ (by positivity)]
  linarith

/-! ## The place of a quotient -/

theorem binaryExponent_spec {num den : Nat} (hnum : num ≠ 0) (hden : 0 < den) :
    (2 : ℚ) ^ binaryExponent num den ≤ num / den ∧
      (num : ℚ) / den < 2 ^ (binaryExponent num den + 1) := by
  have hden' : (0 : ℚ) < den := Nat.cast_pos.2 hden
  have hnumlow : (2 : ℚ) ^ num.log2 ≤ num := by exact_mod_cast Nat.log2_self_le hnum
  have hnumhigh : (num : ℚ) < 2 ^ (num.log2 + 1) := by exact_mod_cast Nat.lt_log2_self
  have hdenlow : (2 : ℚ) ^ den.log2 ≤ den := by exact_mod_cast Nat.log2_self_le hden.ne'
  have hdenhigh : (den : ℚ) < 2 ^ (den.log2 + 1) := by exact_mod_cast Nat.lt_log2_self
  have htwo : (2 : ℚ) ≠ 0 := two_ne_zero
  -- the logarithms of both numbers tell the exponent up to one, which a comparison decides
  have hless : (num : ℚ) / den < 2 ^ ((num.log2 : Int) - den.log2 + 1) := by
    rw [div_lt_iff₀ hden', zpow_add₀ htwo, zpow_sub₀ htwo, zpow_natCast, zpow_natCast, zpow_one]
    calc (num : ℚ) < 2 ^ num.log2 * 2 := by rw [← pow_succ]; exact hnumhigh
      _ = 2 ^ num.log2 / 2 ^ den.log2 * 2 * 2 ^ den.log2 := by field_simp
      _ ≤ 2 ^ num.log2 / 2 ^ den.log2 * 2 * den := by gcongr
  have hmore : (2 : ℚ) ^ ((num.log2 : Int) - den.log2 - 1) ≤ num / den := by
    rw [le_div_iff₀ hden', zpow_sub₀ htwo, zpow_sub₀ htwo, zpow_natCast, zpow_natCast, zpow_one]
    calc (2 : ℚ) ^ num.log2 / 2 ^ den.log2 / 2 * den
        ≤ 2 ^ num.log2 / 2 ^ den.log2 / 2 * 2 ^ (den.log2 + 1) := by gcongr
      _ = 2 ^ num.log2 := by rw [pow_succ]; field_simp
      _ ≤ num := hnumlow
  have hcheck := le_quotient_iff Nat.two_pos num hden ((num.log2 : Int) - den.log2)
  unfold binaryExponent
  simp only [hcheck]
  split
  · next h => exact ⟨h, hless⟩
  · next h =>
    refine ⟨hmore, ?_⟩
    rw [sub_add_cancel]
    exact not_le.1 h

/-- The exponent of the last place to which a quotient is rounded. -/
def lastPlace (num den : Nat) : Int := max (binaryExponent num den - 52) (-1074)

/-- A quotient as a multiple of its last place. -/
def significand (num den : Nat) : Nat :=
  divEven (num * Nat.pow 2 (-lastPlace num den).toNat) (den * Nat.pow 2 (lastPlace num den).toNat)

section Significand

variable (num : Nat) {den : Nat} (hnum : num ≠ 0) (hden : 0 < den)

include hden

theorem significand_le_half :
    (significand num den : ℚ) ≤ num / den / 2 ^ lastPlace num den + 1 / 2 := by
  have hunit : 0 < den * Nat.pow 2 (lastPlace num den).toNat :=
    Nat.mul_pos hden (Nat.pow_pos Nat.two_pos)
  have hhalf := divEven_le_half (num * Nat.pow 2 (-lastPlace num den).toNat) hunit
  rw [quotient_div_pow] at hhalf
  exact hhalf

include hnum

variable {num}

theorem significand_le : significand num den ≤ 2 ^ 53 := by
  have hplace : binaryExponent num den + 1 ≤ 53 + lastPlace num den := by
    have hmax : binaryExponent num den - 52 ≤ lastPlace num den := le_max_left ..
    omega
  have hpos : (0 : ℚ) < 2 ^ lastPlace num den := by positivity
  have hless : (num : ℚ) / den / 2 ^ lastPlace num den < 2 ^ 53 := by
    rw [div_lt_iff₀ hpos]
    calc (num : ℚ) / den < 2 ^ (binaryExponent num den + 1) := (binaryExponent_spec hnum hden).2
      _ ≤ 2 ^ (53 + lastPlace num den) := zpow_le_zpow_right₀ one_le_two hplace
      _ = 2 ^ 53 * 2 ^ lastPlace num den := by rw [zpow_add₀ two_ne_zero]; norm_cast
  have hhalf := significand_le_half num hden
  have hcast : (significand num den : ℚ) < (2 ^ 53 + 1 : Nat) := by
    push_cast
    linarith
  have hnat : significand num den < 2 ^ 53 + 1 := by exact_mod_cast hcast
  omega

/-- Above the least place a significand has all its bits. -/
theorem le_significand (h : lastPlace num den ≠ -1074) : 2 ^ 52 ≤ significand num den := by
  have hplace : 52 + lastPlace num den = binaryExponent num den := by
    rw [lastPlace] at h ⊢
    omega
  have hdown : 0 < den * Nat.pow 2 (lastPlace num den).toNat :=
    Nat.mul_pos hden (Nat.pow_pos Nat.two_pos)
  refine le_trans ((Nat.le_div_iff_mul_le hdown).2 ?_) (div_le_divEven _ _)
  have hpos : (0 : ℚ) < 2 ^ lastPlace num den := by positivity
  have hunits : (2 ^ 52 : ℚ) ≤ num / den / 2 ^ lastPlace num den := by
    rw [le_div_iff₀ hpos]
    calc (2 : ℚ) ^ 52 * 2 ^ lastPlace num den = 2 ^ (52 + lastPlace num den) := by
          rw [zpow_add₀ two_ne_zero]; norm_cast
      _ = 2 ^ binaryExponent num den := by rw [hplace]
      _ ≤ num / den := (binaryExponent_spec hnum hden).1
  have hquotient := quotient_div_pow 2 num den (lastPlace num den)
  rw [Nat.cast_ofNat] at hquotient
  rw [← hquotient, le_div_iff₀ (Nat.cast_pos.2 hdown)] at hunits
  exact_mod_cast hunits

end Significand

/-! ## Parts -/

/-- The magnitude of a double as a rational. -/
def Parts.value (p : Parts) : ℚ := p.mantissa * 2 ^ p.exponent

theorem Parts.ratio_eq (p : Parts) : (p.ratio.1 : ℚ) / p.ratio.2 = p.value := by
  rw [ratio, value, Nat.cast_mul, mul_div_assoc, pow_div_pow]
  norm_cast

theorem Parts.value_nonneg (p : Parts) : 0 ≤ p.value := by
  unfold value
  positivity

theorem Parts.ratio_pos (p : Parts) : 0 < p.ratio.2 := Nat.pow_pos Nat.two_pos

theorem toNat_magnitude (bits : UInt64) : (magnitude bits).toNat = bits.toNat % signBit := by
  rw [magnitude, UInt64.toNat_and]
  exact Nat.and_two_pow_sub_one_eq_mod bits.toNat 63

theorem isFinite_iff {bits : UInt64} :
    isFinite bits = true ↔ bits.toNat % signBit < infinity.toNat := by
  rw [isFinite, decide_eq_true_iff, UInt64.lt_iff_toNat_lt, toNat_magnitude]

section Parts

variable (bits : UInt64)

theorem mantissa_lt : (parts bits).mantissa < 2 ^ 53 := by
  simp only [parts]
  split <;> omega

theorem le_exponent : -1074 ≤ (parts bits).exponent := by
  simp only [parts]
  split <;> omega

variable {bits}

/-- Above the least exponent a mantissa has all its bits. -/
theorem le_mantissa (h : (parts bits).exponent ≠ -1074) : 2 ^ 52 ≤ (parts bits).mantissa := by
  simp only [parts] at h ⊢
  split at h
  · exact absurd rfl h
  · next hfield =>
    rw [if_neg hfield]
    omega

theorem exponent_le (h : isFinite bits = true) : (parts bits).exponent ≤ 971 := by
  have hless := isFinite_iff.1 h
  have hinfinity : infinity.toNat = 2047 * 2 ^ 52 := rfl
  simp only [parts]
  split <;> omega

/-- The parts of a double tell its magnitude. -/
theorem magnitude_eq_of_parts {bits' : UInt64}
    (hmantissa : (parts bits).mantissa = (parts bits').mantissa)
    (hexponent : (parts bits).exponent = (parts bits').exponent) :
    magnitude bits = magnitude bits' := by
  rw [← UInt64.toNat_inj, toNat_magnitude, toNat_magnitude]
  simp only [parts] at hmantissa hexponent
  generalize bits.toNat % signBit = n at *
  generalize bits'.toNat % signBit = n' at *
  split at hmantissa <;> split at hmantissa <;> simp_all only [if_true, if_false] <;> omega

end Parts

/-! ## Rounding to a double -/

theorem nearest_eq {num den : Nat} (h : num ≠ 0) :
    nearest num den =
      if (lastPlace num den + 1074).toNat * 2 ^ 52 + significand num den < infinity.toNat then
        UInt64.ofNat ((lastPlace num den + 1074).toNat * 2 ^ 52 + significand num den)
      else infinity := by
  rw [nearest, if_neg h]
  rfl

/-- Mantissas that carry into the field stand for what they should. -/
theorem value_ofNat {field mantissa : Nat} (hmantissa : mantissa ≤ 2 ^ 53)
    (hfield : field = 0 ∨ 2 ^ 52 ≤ mantissa) (h : field * 2 ^ 52 + mantissa < 2 ^ 63) :
    (parts (UInt64.ofNat (field * 2 ^ 52 + mantissa))).value =
      mantissa * 2 ^ ((field : Int) - 1074) := by
  have hnat : (UInt64.ofNat (field * 2 ^ 52 + mantissa)).toNat % signBit =
      field * 2 ^ 52 + mantissa := by
    have hsign : signBit = 2 ^ 63 := rfl
    rw [UInt64.toNat_ofNat_of_lt' (by rw [UInt64.size]; omega), hsign, Nat.mod_eq_of_lt h]
  simp only [parts, Parts.value, hnat]
  -- subnormal, normal, or with a carry into the next field
  rcases Nat.lt_or_ge mantissa (2 ^ 52) with hsmall | hlarge
  · obtain rfl : field = 0 := by omega
    have hdiv : (0 * 2 ^ 52 + mantissa) / 0x10000000000000 = 0 := by omega
    have hmod : (0 * 2 ^ 52 + mantissa) % 0x10000000000000 = mantissa := by omega
    rw [hdiv, hmod]
    norm_num
  · rcases Nat.lt_or_ge mantissa (2 ^ 53) with hless | hcarry
    · have hdiv : (field * 2 ^ 52 + mantissa) / 0x10000000000000 = field + 1 := by omega
      have hmod : 0x10000000000000 + (field * 2 ^ 52 + mantissa) % 0x10000000000000 =
          mantissa := by omega
      have hexponent : ((field + 1 : Nat) : Int) - 1075 = field - 1074 := by omega
      rw [hdiv, if_neg (Nat.succ_ne_zero _), if_neg (Nat.succ_ne_zero _), hmod, hexponent]
    · obtain rfl : mantissa = 2 ^ 53 := Nat.le_antisymm hmantissa hcarry
      have hdiv : (field * 2 ^ 52 + 2 ^ 53) / 0x10000000000000 = field + 2 := by omega
      have hmod : 0x10000000000000 + (field * 2 ^ 52 + 2 ^ 53) % 0x10000000000000 =
          2 ^ 52 := by omega
      have hexponent : ((field + 2 : Nat) : Int) - 1075 = (field - 1074) + 1 := by omega
      rw [hdiv, if_neg (Nat.succ_ne_zero _), if_neg (Nat.succ_ne_zero _), hmod, hexponent,
        zpow_add_one₀ two_ne_zero]
      push_cast
      ring

theorem le_lastPlace (num den : Nat) : -1074 ≤ lastPlace num den := le_max_right ..

theorem value_infinity : (parts infinity).value = 2 ^ 52 * 2 ^ (972 : Int) := by
  have hparts : parts infinity = ⟨false, 2 ^ 52, 972⟩ := rfl
  rw [hparts]
  show ((2 ^ 52 : Nat) : ℚ) * 2 ^ (972 : Int) = _
  rw [Nat.cast_pow, Nat.cast_ofNat]

/-- **Rounding adds at most half of the last place.** -/
theorem value_nearest_le (num : Nat) {den : Nat} (hden : 0 < den) :
    (parts (nearest num den)).value ≤ num / den + 2 ^ lastPlace num den / 2 := by
  have hpos : (0 : ℚ) < 2 ^ lastPlace num den := by positivity
  by_cases hnum : num = 0
  · subst hnum
    have hzero : (parts (nearest 0 den)).value = 0 := by simp [nearest, parts, Parts.value]
    rw [hzero]
    positivity
  have hunits : (significand num den : ℚ) * 2 ^ lastPlace num den ≤
      num / den + 2 ^ lastPlace num den / 2 := by
    have hhalf := significand_le_half num hden
    calc (significand num den : ℚ) * 2 ^ lastPlace num den
        ≤ (num / den / 2 ^ lastPlace num den + 1 / 2) * 2 ^ lastPlace num den := by gcongr
      _ = num / den + 2 ^ lastPlace num den / 2 := by field_simp
  have hle := significand_le hnum hden
  have hge := le_significand hnum hden
  have hleast := le_lastPlace num den
  have hinfinity : infinity.toNat = 2047 * 2 ^ 52 := rfl
  refine le_trans ?_ hunits
  rw [nearest_eq hnum]
  split
  · next hless =>
    rw [value_ofNat hle (by omega) (by omega)]
    have hplace : (((lastPlace num den + 1074).toNat : Nat) : Int) - 1074 = lastPlace num den := by
      omega
    rw [hplace]
  · next hover =>
    -- so many bits take a place of 971 and a carry, or a place beyond
    have hcarry : (2 : ℚ) ^ 52 * 2 ^ (972 : Int) = 2 ^ 53 * 2 ^ (971 : Int) := by
      rw [show (972 : Int) = 971 + 1 from rfl, zpow_add_one₀ two_ne_zero]
      ring
    rw [value_infinity, hcarry]
    have hplace : 971 ≤ lastPlace num den := by omega
    rcases hplace.eq_or_lt with hlast | hlast
    · have hfull : 2 ^ 53 ≤ significand num den := by omega
      rw [← hlast]
      gcongr
      exact_mod_cast hfull
    · have hfull : 2 ^ 52 ≤ significand num den := hge (by omega)
      rw [← hcarry]
      gcongr
      · exact_mod_cast hfull
      · exact one_le_two
      · exact hlast

/-- What is at least one has all its bits. -/
theorem place_of_one_le {num den : Nat} (hden : 0 < den) (h : 1 ≤ (num : ℚ) / den) :
    0 ≤ binaryExponent num den ∧ lastPlace num den = binaryExponent num den - 52 := by
  have hnum : num ≠ 0 := by
    rintro rfl
    norm_num at h
  have hexponent : 0 < binaryExponent num den + 1 := by
    by_contra hneg
    have hsmall : (2 : ℚ) ^ (binaryExponent num den + 1) ≤ 1 :=
      zpow_le_one_of_nonpos₀ one_le_two (not_lt.1 hneg)
    have hhigh := (binaryExponent_spec hnum hden).2
    linarith
  rw [lastPlace]
  omega

/-- Rounding what is at least one adds at most one part in `2 ^ 53`. -/
theorem value_nearest_le_mul {num den : Nat} (hden : 0 < den) (h : 1 ≤ (num : ℚ) / den) :
    (parts (nearest num den)).value ≤ num / den * (1 + 1 / 2 ^ 53) := by
  have hnum : num ≠ 0 := by
    rintro rfl
    norm_num at h
  obtain ⟨-, hplace⟩ := place_of_one_le hden h
  have hlow := (binaryExponent_spec hnum hden).1
  have hhalf : (2 : ℚ) ^ lastPlace num den / 2 ≤ num / den * (1 / 2 ^ 53) := by
    rw [hplace, zpow_sub₀ two_ne_zero]
    calc (2 : ℚ) ^ binaryExponent num den / 2 ^ (52 : Int) / 2
        = 2 ^ binaryExponent num den * (1 / 2 ^ 53) := by norm_num; ring
      _ ≤ num / den * (1 / 2 ^ 53) := by gcongr
  have hround := value_nearest_le num hden
  linarith

/-- Rounding takes nothing below one that is not below it already. -/
theorem one_le_value_nearest {num den : Nat} (hden : 0 < den) (h : 1 ≤ (num : ℚ) / den) :
    1 ≤ (parts (nearest num den)).value := by
  have hnum : num ≠ 0 := by
    rintro rfl
    norm_num at h
  obtain ⟨hexponent, hplace⟩ := place_of_one_le hden h
  have hle := significand_le hnum hden
  have hge := le_significand hnum hden (by omega)
  have hinfinity : infinity.toNat = 2047 * 2 ^ 52 := rfl
  rw [nearest_eq hnum]
  split
  · have hfield : (((lastPlace num den + 1074).toNat : Nat) : Int) - 1074 = lastPlace num den := by
      omega
    rw [value_ofNat hle (.inr hge) (by omega), hfield]
    have hunit : (2 : ℚ) ^ (-52 : Int) ≤ 2 ^ lastPlace num den :=
      zpow_le_zpow_right₀ one_le_two (by omega)
    have hbits : (2 : ℚ) ^ 52 ≤ significand num den := by exact_mod_cast hge
    calc (1 : ℚ) = 2 ^ 52 * 2 ^ (-52 : Int) := by norm_num
      _ ≤ significand num den * 2 ^ lastPlace num den := by gcongr
  · rw [value_infinity]
    exact one_le_mul_of_one_le_of_one_le (by norm_num) (one_le_zpow₀ one_le_two (by norm_num))

/-- The middle between the largest double and the next power of two. -/
def overflow : ℚ := (2 ^ 54 - 1) * 2 ^ (970 : Int)

/-- **Below the middle to the next power of two rounding stays finite.** -/
theorem isFinite_nearest {num den : Nat} (hden : 0 < den) (h : (num : ℚ) / den < overflow) :
    isFinite (nearest num den) = true := by
  by_cases hnum : num = 0
  · have hzero : nearest num den = 0 := if_pos hnum
    rw [hzero]
    decide
  -- the last place is at most that of the largest doubles
  have hplace : lastPlace num den ≤ 971 := by
    have hexponent : binaryExponent num den < 1024 := by
      by_contra hlarge
      have hpower : (2 : ℚ) ^ (1024 : Int) ≤ 2 ^ binaryExponent num den :=
        zpow_le_zpow_right₀ one_le_two (not_lt.1 hlarge)
      have hlow := (binaryExponent_spec hnum hden).1
      have hless : overflow < (2 : ℚ) ^ (1024 : Int) := by
        rw [overflow, show (1024 : Int) = 54 + 970 from rfl, zpow_add₀ two_ne_zero]
        gcongr
        norm_num
      linarith
    rw [lastPlace]
    omega
  have hle := significand_le hnum hden
  have hleast := le_lastPlace num den
  have hinfinity : infinity.toNat = 2047 * 2 ^ 52 := rfl
  have hbits : (lastPlace num den + 1074).toNat * 2 ^ 52 + significand num den <
      infinity.toNat := by
    -- in the highest place the middle keeps the digits from carrying over
    rcases hplace.eq_or_lt with hlast | hlast
    · have hhalf := significand_le_half num hden
      have hcast : (significand num den : ℚ) < (2 ^ 53 : Nat) := by
        refine lt_of_le_of_lt hhalf ?_
        rw [hlast]
        have hunits : (num : ℚ) / den / 2 ^ (971 : Int) < overflow / 2 ^ (971 : Int) := by gcongr
        have hmiddle : overflow / 2 ^ (971 : Int) + 1 / 2 = (2 ^ 53 : Nat) := by
          rw [overflow, show (971 : Int) = 970 + 1 from rfl, zpow_add_one₀ two_ne_zero]
          field_simp
          norm_num
        linarith
      have hless : significand num den < 2 ^ 53 := by exact_mod_cast hcast
      omega
    · omega
  rw [nearest_eq hnum, if_pos hbits, isFinite_iff]
  rw [UInt64.toNat_ofNat_of_lt' (by rw [UInt64.size]; omega)]
  exact lt_of_le_of_lt (Nat.mod_le _ _) hbits

theorem mul_eq (a b : UInt64) : mul a b =
    nearest ((parts a).ratio.1 * (parts b).ratio.1) ((parts a).ratio.2 * (parts b).ratio.2) := rfl

theorem isFinite_mul {a b : UInt64} (h : (parts a).value * (parts b).value < overflow) :
    isFinite (mul a b) = true := by
  rw [mul_eq]
  apply isFinite_nearest
  · exact Nat.mul_pos (parts a).ratio_pos (parts b).ratio_pos
  · rw [Nat.cast_mul, Nat.cast_mul, ← div_mul_div_comm, Parts.ratio_eq, Parts.ratio_eq]
    exact h

/-- A finite double is below the middle to the next power of two. -/
theorem value_lt_overflow {bits : UInt64} (h : isFinite bits = true) :
    (parts bits).value < overflow := by
  have hmantissa : ((parts bits).mantissa : ℚ) ≤ 2 ^ 53 - 1 := by
    have hnat : (parts bits).mantissa + 1 ≤ 2 ^ 53 := mantissa_lt bits
    have hcast : ((parts bits).mantissa : ℚ) + 1 ≤ 2 ^ 53 := by exact_mod_cast hnat
    linarith
  have hexponent : (2 : ℚ) ^ (parts bits).exponent ≤ 2 ^ (971 : Int) :=
    zpow_le_zpow_right₀ one_le_two (exponent_le h)
  calc (parts bits).value ≤ (2 ^ 53 - 1) * 2 ^ (971 : Int) :=
        mul_le_mul hmantissa hexponent (by positivity) (by norm_num)
    _ = (2 ^ 54 - 2) * 2 ^ (970 : Int) := by
        rw [show (971 : Int) = 970 + 1 from rfl, zpow_add_one₀ two_ne_zero]
        generalize (2 : ℚ) ^ (970 : Int) = unit
        ring
    _ < overflow := by
        rw [overflow]
        gcongr
        norm_num

theorem div_eq (a b : UInt64) : div a b =
    nearest ((parts a).ratio.1 * (parts b).ratio.2) ((parts a).ratio.2 * (parts b).ratio.1) := rfl

/-- A finite double divided by one that is not below one is finite. -/
theorem isFinite_div {a b : UInt64} (ha : isFinite a = true) (hb : 1 ≤ (parts b).value) :
    isFinite (div a b) = true := by
  have hnumerator : 0 < (parts b).ratio.1 := by
    by_contra hzero
    rw [← Parts.ratio_eq, Nat.eq_zero_of_not_pos hzero] at hb
    norm_num at hb
  rw [div_eq]
  apply isFinite_nearest
  · exact Nat.mul_pos (parts a).ratio_pos hnumerator
  · have hquotient : (((parts a).ratio.1 * (parts b).ratio.2 : Nat) : ℚ) /
        ((parts a).ratio.2 * (parts b).ratio.1 : Nat) = (parts a).value / (parts b).value := by
      rw [← Parts.ratio_eq, ← Parts.ratio_eq, div_div_div_eq, Nat.cast_mul, Nat.cast_mul]
    rw [hquotient]
    exact lt_of_le_of_lt (div_le_self (Parts.value_nonneg _) hb) (value_lt_overflow ha)

end AnalysisGate.Binary64
