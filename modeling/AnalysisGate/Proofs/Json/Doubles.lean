import AnalysisGate.Proofs.Decimal.Shortest
import AnalysisGate.Proofs.Json.Unambiguous
import Mathlib

/-!
Doubles in text.

The numeral of a double spells its shortest digits (`magnitude_ofDouble`), so doubles of one
numeral are one double (`doubleText_injective`). A finite double is always read back as a finite
double (`rereadNumber_double`), though not always as itself: reading a numeral rounds more than
once.
-/
namespace AnalysisGate.Json

open Binary64 Decimal

namespace Spelling

/-! ## What a numeral stands for -/

/-- The digits of a numeral as one natural. -/
def significand (n : Spelling) : Nat := Numeral.value (n.whole ++ n.fraction.getD [])

/-- The power of ten that a numeral states. -/
def power (n : Spelling) : Int :=
  match n.exponent with
  | none => 0
  | some (negative, ds) => if negative then -(Numeral.value ds : Int) else Numeral.value ds

/-- The power of ten of the last digit. -/
def place (n : Spelling) : Int := n.power - (n.fraction.getD []).length

/-- What a numeral stands for after its sign. -/
def magnitude (n : Spelling) : ℚ := n.significand * 10 ^ n.place

/-- Zeros at the start of a numeral do not count. -/
theorem value_zero_append (k : Nat) (cs : List Char) :
    Numeral.value (['0'] ++ (List.replicate k '0' ++ cs)) = Numeral.value cs := by
  rw [← List.append_assoc, ← List.replicate_one, List.replicate_append_replicate,
    Numeral.value_zeros_append]

section Digits

variable {d : Digits} {c : Char} {tail : List Char} (negative : Bool)

theorem magnitude_positional (d : Digits) : (positional negative d).magnitude = d.value := by
  have hten : (10 : ℚ) ≠ 0 := by norm_num
  simp only [positional]
  -- zeros before the digits, zeros after them, or the point among them
  split
  · have hplace : (0 : Int) - (List.replicate (-d.exponent - 1).toNat '0' ++ d.digits).length =
        d.exponent + 1 - d.digits.length := by
      rw [List.length_append, List.length_replicate]
      omega
    simp only [magnitude, significand, place, power, Option.getD_some, value_zero_append,
      hplace]
    rfl
  · split
    · generalize hzeros : (d.exponent + 1 - d.digits.length).toNat = zeros
      have hvalue : Numeral.value (d.digits ++ List.replicate zeros '0' ++ ['0']) =
          Numeral.value d.digits * 10 ^ (zeros + 1) := by
        rw [List.append_assoc, ← List.replicate_one, List.replicate_append_replicate,
          Numeral.value_append_zeros]
      have hplace : d.exponent + 1 - d.digits.length = zeros := by omega
      simp only [magnitude, significand, place, power, Option.getD_some, hvalue, Digits.value,
        hplace, List.length_singleton]
      rw [Nat.cast_mul, mul_assoc, Nat.cast_pow, Nat.cast_ofNat, ← zpow_natCast, ← zpow_add₀ hten]
      congr 2
      omega
    · have hplace : (0 : Int) - (d.digits.drop (d.exponent + 1).toNat).length =
          d.exponent + 1 - d.digits.length := by
        rw [List.length_drop]
        omega
      simp only [magnitude, significand, place, power, Option.getD_some, List.take_append_drop,
        hplace]
      rfl

theorem scientific_fraction (hd : d.digits = c :: tail) :
    (scientific negative d).whole = [c] ∧ (scientific negative d).fraction.getD [] = tail := by
  simp only [scientific, hd]
  cases tail <;> exact ⟨rfl, rfl⟩

theorem power_scientific (d : Digits) : (scientific negative d).power = d.exponent := by
  simp only [scientific, power, Numeral.value_digits, decide_eq_true_eq]
  split <;> omega

theorem magnitude_scientific (hd : d.digits = c :: tail) :
    (scientific negative d).magnitude = d.value := by
  obtain ⟨hwhole, hfraction⟩ := scientific_fraction negative hd
  have hplace : d.exponent - tail.length = d.exponent + 1 - (c :: tail).length := by
    rw [List.length_cons]
    omega
  rw [magnitude, significand, place, power_scientific, hwhole, hfraction, Digits.value, hd, hplace]
  rfl

end Digits

theorem negative_ofDouble (bits : UInt64) : (ofDouble bits).negative = isNegative bits := by
  unfold ofDouble
  split
  · rfl
  · split
    · unfold positional
      split
      · rfl
      · split <;> rfl
    · rfl

theorem magnitude_ofDouble_zero {bits : UInt64} (h : isZero bits = true) :
    (ofDouble bits).magnitude = 0 := by
  rw [ofDouble, if_pos h, magnitude, significand]
  have hzero : Numeral.value (['0'] ++ ['0']) = 0 := rfl
  simp only [Option.getD_some, hzero, Nat.cast_zero, zero_mul]

theorem magnitude_ofDouble {bits : UInt64} (h : isZero bits = false) :
    (ofDouble bits).magnitude = (shortest bits).value := by
  obtain ⟨c, tail, hd, -, -⟩ := shortest_digits h
  rw [ofDouble, h, if_neg Bool.false_ne_true]
  split
  · exact magnitude_positional _ _
  · exact magnitude_scientific _ hd

end Spelling

/-! ## Doubles of one numeral -/

theorem bottom_pos {bits : UInt64} (h : isZero bits = false) : 0 < (interval bits).bottom := by
  have hlow := low_pos (mantissa_pos h)
  exact div_pos (Nat.cast_pos.2 hlow) (Nat.cast_pos.2 (interval_den_pos bits))

theorem eq_of_magnitude {bits bits' : UInt64} (hsign : isNegative bits = isNegative bits')
    (h : Binary64.magnitude bits = Binary64.magnitude bits') : bits = bits' := by
  have hlow : bits.toNat % signBit = bits'.toNat % signBit := by
    rw [← toNat_magnitude, ← toNat_magnitude, h]
  have hhigh : signBit ≤ bits.toNat ↔ signBit ≤ bits'.toNat := by
    simpa [isNegative] using hsign
  have hsize := bits.toNat_lt
  have hsize' := bits'.toNat_lt
  have hbit : signBit = 2 ^ 63 := rfl
  rw [← UInt64.toNat_inj]
  rw [hbit] at hlow hhigh
  omega

/-- **Doubles of one numeral are one double.** -/
theorem doubleText_injective : Function.Injective doubleText := by
  intro bits bits' h
  have hspelled : Spelling.ofDouble bits = Spelling.ofDouble bits' := by
    rw [doubleText, doubleText, ← Spelling.ofDouble_text, ← Spelling.ofDouble_text] at h
    have hread := Spelling.spelling?_text (Spelling.ofDouble_sound bits) ends_nil
    have hread' := Spelling.spelling?_text (Spelling.ofDouble_sound bits') ends_nil
    rw [h, hread'] at hread
    exact (congrArg Prod.fst (Option.some.inj hread)).symm
  have hsign : isNegative bits = isNegative bits' := by
    rw [← Spelling.negative_ofDouble, ← Spelling.negative_ofDouble, hspelled]
  have hmagnitude : (Spelling.ofDouble bits).magnitude = (Spelling.ofDouble bits').magnitude := by
    rw [hspelled]
  -- the digits of a double that is not zero stand for no zero
  have hpositive {bits : UInt64} (hne : isZero bits = false) :
      0 < (Spelling.ofDouble bits).magnitude := by
    rw [Spelling.magnitude_ofDouble hne]
    exact lt_of_lt_of_le (bottom_pos hne) (shortest_holds hne).1.bottom_le
  refine eq_of_magnitude hsign ?_
  cases hzero : isZero bits with
  | true =>
    rw [Spelling.magnitude_ofDouble_zero hzero] at hmagnitude
    cases hzero' : isZero bits' with
    | true => exact (eq_of_beq hzero).trans (eq_of_beq hzero').symm
    | false => exact absurd hmagnitude (hpositive hzero').ne
  | false =>
    cases hzero' : isZero bits' with
    | true =>
      rw [Spelling.magnitude_ofDouble_zero hzero'] at hmagnitude
      exact absurd hmagnitude (hpositive hzero).ne'
    | false =>
      rw [Spelling.magnitude_ofDouble hzero, Spelling.magnitude_ofDouble hzero'] at hmagnitude
      have hholds := (shortest_holds hzero).1
      rw [hmagnitude] at hholds
      exact magnitude_eq_of_holds hholds (shortest_holds hzero').1

/-! ## Reading a numeral -/

theorem accumulate_eq {cs : List Char} :
    ∀ {s : Nat}, s * 10 ^ cs.length + Numeral.value cs < UInt64.size →
      accumulate s cs = (s * 10 ^ cs.length + Numeral.value cs, []) := by
  induction cs with
  | nil => intro s _; simp [accumulate, Numeral.value]
  | cons c cs ih =>
    intro s h
    have htotal : (10 * s + Numeral.worth c) * 10 ^ cs.length + Numeral.value cs =
        s * 10 ^ (c :: cs).length + Numeral.value (c :: cs) := by
      rw [Numeral.value_cons, List.length_cons, Nat.pow_succ]
      ring
    rw [← htotal] at h ⊢
    have hnext : 10 * s + Numeral.worth c < UInt64.size := by
      have hpow : 10 * s + Numeral.worth c ≤
          (10 * s + Numeral.worth c) * 10 ^ cs.length :=
        Nat.le_mul_of_pos_right _ (Nat.pow_pos (by decide))
      omega
    rw [accumulate]
    simp only [hnext, if_true]
    exact ih h

/-- Digits that all fit are read as one natural, which is then scaled. -/
theorem Spelling.double?_eq {n : Spelling} (h : n.significand < UInt64.size)
    (hpower : n.power ≤ exponentLimit) (hpower' : -exponentLimit ≤ n.power) :
    n.double? = scale (Binary64.ofNat n.significand) n.place := by
  have hsplit : n.significand = Numeral.value n.whole * 10 ^ (n.fraction.getD []).length +
      Numeral.value (n.fraction.getD []) := Numeral.value_append _ _
  have hwhole : accumulate 0 n.whole = (Numeral.value n.whole, []) := by
    have hle : Numeral.value n.whole ≤
        Numeral.value n.whole * 10 ^ (n.fraction.getD []).length :=
      Nat.le_mul_of_pos_right _ (Nat.pow_pos (by decide))
    rw [accumulate_eq (by omega), Nat.zero_mul, Nat.zero_add]
  have hafter : accumulate (Numeral.value n.whole) (n.fraction.getD []) = (n.significand, []) := by
    rw [hsplit] at h ⊢
    exact accumulate_eq h
  simp only [double?, hwhole, hafter]
  rw [place]
  unfold power at hpower hpower' ⊢
  cases hexponent : n.exponent with
  | none => simp
  | some e =>
    obtain ⟨negative, ds⟩ := e
    rw [hexponent] at hpower hpower'
    have hlimit : ¬ exponentLimit < Numeral.value ds := by
      cases negative <;> simp at hpower hpower' <;> omega
    simp only [hlimit, if_false]
    congr 1
    cases negative <;> simp <;> omega

/-! ## Scaling -/

/-- A negative power of ten is always divided out. -/
theorem scale_isSome_of_neg {x : UInt64} {e : Int} (he : e < 0) : (scale x e).isSome := by
  induction x, e using scale.induct with
  | case1 x e hsmall hpos => omega
  | case2 x e hsmall hpos => omega
  | case3 x e hsmall hneg => rw [scale, if_pos hsmall, if_neg hneg]; rfl
  | case4 x e hlarge hzero => rw [scale, if_neg hlarge, if_pos hzero]; rfl
  | case5 x e hlarge hzero hpos => omega
  | case6 x e hlarge hzero hneg ih =>
    rw [scale, if_neg hlarge, if_neg hzero, if_neg hneg]
    exact ih (by omega)

theorem accumulate_lt {cs : List Char} :
    ∀ {s : Nat}, s < UInt64.size → (accumulate s cs).1 < UInt64.size := by
  induction cs with
  | nil => exact fun h => h
  | cons c cs ih =>
    intro s hs
    simp only [accumulate]
    split
    · next hnext => exact ih hnext
    · exact hs

theorem isFinite_ofNat {s : Nat} (h : s < UInt64.size) : isFinite (Binary64.ofNat s) = true := by
  refine isFinite_nearest Nat.one_pos ?_
  have hcast : (s : ℚ) < (UInt64.size : Nat) := Nat.cast_lt.2 h
  have hunit : (2 : ℚ) ^ (11 : Int) ≤ 2 ^ (970 : Int) :=
    zpow_le_zpow_right₀ one_le_two (by norm_num)
  calc (s : ℚ) / (1 : Nat) = s := by rw [Nat.cast_one, div_one]
    _ < (UInt64.size : Nat) := hcast
    _ ≤ (2 ^ 54 - 1) * 2 ^ (11 : Int) := by rw [UInt64.size]; norm_num
    _ ≤ overflow := mul_le_mul_of_nonneg_left hunit (by norm_num)

/-- A power of ten that is not below one rounds to a double that is not. -/
theorem one_le_value_ofDecimal {e : Int} (he : 0 ≤ e) :
    1 ≤ (parts (ofDecimal 1 e)).value := by
  refine one_le_value_nearest (Nat.pow_pos (by decide)) ?_
  rw [Nat.one_mul, pow_div_pow, Nat.cast_ofNat]
  exact one_le_zpow₀ (by norm_num) he

/-- **Scaling leaves no infinity.** -/
theorem isFinite_scale {x y : UInt64} {e : Int} (hx : isFinite x = true) (h : scale x e = some y) :
    isFinite y = true := by
  induction x, e using scale.induct with
  | case1 x e hsmall hpos | case2 x e hsmall hpos =>
    rw [scale, if_pos hsmall, if_pos hpos] at h
    simp only [Option.ite_none_right_eq_some] at h
    exact Option.some.inj h.2 ▸ h.1
  | case3 x e hsmall hneg =>
    rw [scale, if_pos hsmall, if_neg hneg] at h
    exact Option.some.inj h ▸ isFinite_div hx (one_le_value_ofDecimal (by omega))
  | case4 x e hlarge hzero =>
    rw [scale, if_neg hlarge, if_pos hzero] at h
    exact Option.some.inj h ▸ hx
  | case5 x e hlarge hzero hpos =>
    rw [scale, if_neg hlarge, if_neg hzero, if_pos hpos] at h
    cases h
  | case6 x e hlarge hzero hneg ih =>
    rw [scale, if_neg hlarge, if_neg hzero, if_neg hneg] at h
    exact ih (isFinite_div hx (one_le_value_ofDecimal (by decide))) h

theorem isFinite_negate (x : UInt64) : isFinite (negate x) = isFinite x := by
  have hsame : magnitude (negate x) = magnitude x := by
    have hsign : (0x8000000000000000 : UInt64).toNat % 2 ^ 63 = 0 := rfl
    have hbit : signBit = 2 ^ 63 := rfl
    rw [← UInt64.toNat_inj, toNat_magnitude, toNat_magnitude, negate, UInt64.toNat_xor, hbit,
      Nat.xor_mod_two_pow, hsign, Nat.xor_zero]
  rw [isFinite, hsame, isFinite]

/-- **A numeral is never read as an infinity.** -/
theorem Spelling.isFinite_of_double? {n : Spelling} {x : UInt64} (h : n.double? = some x) :
    isFinite x = true := by
  have hwhole : (accumulate 0 n.whole).1 < UInt64.size := accumulate_lt (by decide)
  have hall : (accumulate (accumulate 0 n.whole).1 (n.fraction.getD [])).1 < UInt64.size :=
    accumulate_lt hwhole
  simp only [double?] at h
  split at h
  · exact isFinite_scale (isFinite_ofNat hall) h
  · split at h
    · split at h
      · cases h
      · exact Option.some.inj h ▸ rfl
    · exact isFinite_scale (isFinite_ofNat hall) h

/-- Scaling rounds three times, so it stays finite with a little room below the middle to the next
power of two. -/
def room : ℚ := (2 ^ 54 - 5) * 2 ^ (970 : Int)

theorem two_pow_lt : (2 : ℚ) ^ (1024 : Int) < 10 ^ (309 : Int) := by
  have hpowers : (2 : Nat) ^ 1024 < 10 ^ 309 := by decide +kernel
  have hcast : ((2 ^ 1024 : Nat) : ℚ) < (10 ^ 309 : Nat) := Nat.cast_lt.2 hpowers
  rw [Nat.cast_pow, Nat.cast_pow, Nat.cast_ofNat, Nat.cast_ofNat] at hcast
  rw [zpow_ofNat, zpow_ofNat]
  exact hcast

theorem room_lt : room < 10 ^ (309 : Int) := by
  calc room < 2 ^ 54 * 2 ^ (970 : Int) := by
        rw [room]
        gcongr
        norm_num
    _ = 2 ^ (1024 : Int) := by
        rw [show (1024 : Int) = 54 + 970 from rfl, zpow_add₀ two_ne_zero, zpow_ofNat 2 54]
    _ < 10 ^ (309 : Int) := two_pow_lt

theorem scale_isSome_of_le {s : Nat} {e : Int} (hs : 0 < s) (h : (s : ℚ) * 10 ^ e ≤ room) :
    (scale (Binary64.ofNat s) e).isSome := by
  rcases lt_or_ge e 0 with hneg | hpos
  · exact scale_isSome_of_neg hneg
  have hs' : (1 : ℚ) ≤ s := by exact_mod_cast hs
  have hpower : (10 : ℚ) ^ e ≤ room := by
    calc (10 : ℚ) ^ e = 1 * 10 ^ e := (one_mul _).symm
      _ ≤ s * 10 ^ e := by gcongr
      _ ≤ room := h
  -- the natural is one at least, so the power of ten alone is in range
  have hsmall : e < 309 := by
    by_contra hlarge
    have hpower' : (10 : ℚ) ^ (309 : Int) ≤ 10 ^ e :=
      zpow_le_zpow_right₀ (by norm_num) (not_lt.1 hlarge)
    exact absurd (hpower'.trans hpower) (not_le.2 room_lt)
  have hnat : (parts (Binary64.ofNat s)).value ≤ s * (1 + 1 / 2 ^ 53) := by
    have hone : (1 : ℚ) ≤ s / (1 : Nat) := by simpa using hs'
    simpa [Binary64.ofNat] using value_nearest_le_mul Nat.one_pos hone
  have hten : (parts (Binary64.ofDecimal 1 e)).value ≤ 10 ^ e * (1 + 1 / 2 ^ 53) := by
    have hquotient := pow_div_pow 10 e
    have hdown : 0 < Nat.pow 10 (-e).toNat := Nat.pow_pos (by decide)
    rw [Nat.cast_ofNat] at hquotient
    have hone : (1 : ℚ) ≤ (Nat.pow 10 e.toNat : Nat) / (Nat.pow 10 (-e).toNat : Nat) := by
      rw [hquotient]
      exact one_le_zpow₀ (by norm_num) hpos
    have hround := value_nearest_le_mul hdown hone
    rw [hquotient] at hround
    rw [ofDecimal, Nat.one_mul]
    exact hround
  -- the natural, the power and the product are rounded, and the room is left for that
  have hfinite : isFinite (mul (Binary64.ofNat s) (Binary64.ofDecimal 1 e)) = true := by
    apply isFinite_mul
    calc (parts (Binary64.ofNat s)).value * (parts (Binary64.ofDecimal 1 e)).value
        ≤ (s * (1 + 1 / 2 ^ 53)) * (10 ^ e * (1 + 1 / 2 ^ 53)) := by
          gcongr
          exact Parts.value_nonneg _
      _ = s * 10 ^ e * (1 + 1 / 2 ^ 53) ^ 2 := by ring
      _ ≤ room * (1 + 1 / 2 ^ 53) ^ 2 := by gcongr
      _ < overflow := by
        rw [room, overflow, mul_right_comm]
        gcongr
        norm_num
  rw [scale, if_pos (by omega), if_pos hpos]
  simp only [hfinite, if_true]
  rfl

/-! ## Doubles that are read back -/

namespace Spelling

theorem double?_isSome {n : Spelling} (hsize : n.significand < UInt64.size)
    (hpower : n.power ≤ exponentLimit) (hpower' : -exponentLimit ≤ n.power)
    (h : n.place < 0 ∨ 0 < n.significand ∧ n.magnitude ≤ room) : n.double?.isSome := by
  rw [double?_eq hsize hpower hpower']
  rcases h with hneg | ⟨hpos, hle⟩
  · exact scale_isSome_of_neg hneg
  · exact scale_isSome_of_le hpos hle

/-- The numeral of a double has a point or a power of ten, so it is no integer. -/
theorem number?_ofDouble (bits : UInt64) : (ofDouble bits).number? =
    (ofDouble bits).double?.map fun x =>
      .double (if (ofDouble bits).negative then negate x else x) := by
  have hmarked : (ofDouble bits).fraction ≠ none ∨ (ofDouble bits).exponent ≠ none := by
    unfold ofDouble
    split
    · exact .inl (by simp)
    · split
      · unfold positional
        refine .inl ?_
        split
        · simp
        · split <;> simp
      · exact .inr (by simp [scientific])
  unfold number?
  cases hfraction : (ofDouble bits).fraction with
  | some ds => rfl
  | none =>
    cases hexponent : (ofDouble bits).exponent with
    | some e => rfl
    | none => exact absurd hmarked (by simp [hfraction, hexponent])

section Nonzero

variable {bits : UInt64} (h : isZero bits = false)

include h

theorem power_ofDouble : (ofDouble bits).power = 0 ∨
    (ofDouble bits).power = (shortest bits).exponent := by
  rw [ofDouble, h, if_neg Bool.false_ne_true]
  split
  · refine .inl ?_
    unfold positional
    split
    · rfl
    · split <;> rfl
  · exact .inr (power_scientific _ _)

theorem significand_ofDouble_lt : (ofDouble bits).significand < UInt64.size := by
  obtain ⟨c, tail, hd, hc, hdigits⟩ := shortest_digits h
  obtain ⟨-, hfew⟩ := shortest_holds h
  have hsize : UInt64.size = 2 ^ 64 := rfl
  rw [ofDouble, h, if_neg Bool.false_ne_true]
  split
  · next hplaced =>
    -- a point is placed among the digits only if few zeros are to be added
    have hmost : (shortest bits).exponent ≤ 15 := by
      simp only [Bool.and_eq_true, decide_eq_true_eq] at hplaced
      exact hplaced.2
    rw [← hd] at hdigits
    simp only [positional]
    split
    · rw [significand, Option.getD_some, value_zero_append]
      omega
    · split
      · -- the zeros fill sixteen places at most, and one more stands after the point
        have hall : ∀ x ∈ (shortest bits).digits ++ List.replicate
            ((shortest bits).exponent + 1 - (shortest bits).digits.length).toNat '0' ++ ['0'],
            Numeral.isDigit x = true := by
          intro x hx
          rw [List.append_assoc, List.mem_append] at hx
          rcases hx with hx | hx
          · exact hdigits x hx
          · exact isDigit_of_mem_zeros (k := _ + 1) (List.replicate_succ' ▸ hx)
        have hless := Numeral.value_lt_pow hall
        have hlength : ((shortest bits).digits ++ List.replicate
            ((shortest bits).exponent + 1 - (shortest bits).digits.length).toNat '0' ++
              ['0']).length ≤ 17 := by
          rw [List.length_append, List.length_append, List.length_replicate, List.length_singleton]
          omega
        have hpow := Nat.pow_le_pow_right (n := 10) (by decide) hlength
        rw [significand, Option.getD_some]
        exact lt_of_lt_of_le (lt_of_lt_of_le hless hpow) (by decide)
      · rw [significand, Option.getD_some, List.take_append_drop]
        omega
  · obtain ⟨hwhole, hfraction⟩ := scientific_fraction (isNegative bits) hd
    have hvalue : (scientific (isNegative bits) (shortest bits)).significand =
        Numeral.value (shortest bits).digits := by
      rw [significand, hwhole, hfraction, hd]
      rfl
    omega

theorem significand_ofDouble_pos : 0 < (ofDouble bits).significand := by
  have hpos : 0 < (ofDouble bits).magnitude := by
    rw [magnitude_ofDouble h]
    exact lt_of_lt_of_le (bottom_pos h) (shortest_holds h).1.bottom_le
  refine Nat.pos_of_ne_zero fun hzero => ?_
  rw [magnitude, hzero, Nat.cast_zero, zero_mul] at hpos
  exact lt_irrefl 0 hpos

omit h in
theorem top_le (hfinite : isFinite bits = true) : (interval bits).top ≤ 2 ^ (1024 : Int) := by
  have hexponent := exponent_le hfinite
  have hmantissa := mantissa_lt bits
  have hquarters : ((4 * (parts bits).mantissa + 2 : Nat) : ℚ) ≤ 2 ^ (55 : Int) := by
    have hnat : 4 * (parts bits).mantissa + 2 ≤ 2 ^ 55 := by omega
    exact (Nat.cast_le.2 hnat).trans_eq (by norm_num)
  rw [interval_top]
  calc ((4 * (parts bits).mantissa + 2 : Nat) : ℚ) * 2 ^ ((parts bits).exponent - 2)
      ≤ 2 ^ (55 : Int) * 2 ^ (969 : Int) := by
        gcongr
        · exact one_le_two
        · omega
    _ = 2 ^ (1024 : Int) := by
      rw [← zpow_add₀ two_ne_zero]
      rfl

/-- The power of ten of the first digit is in the range of doubles. -/
theorem exponent_bounds (hfinite : isFinite bits = true) :
    -400 ≤ (shortest bits).exponent ∧ (shortest bits).exponent ≤ 400 := by
  obtain ⟨c, tail, hd, hc, hdigits⟩ := shortest_digits h
  obtain ⟨hholds, -⟩ := shortest_holds h
  have hlow := lt_of_le_of_lt hholds.bottom_le (Digits.value_lt (hd ▸ hdigits))
  have hhigh := (Digits.le_value hd hc hdigits).trans hholds.le_top
  constructor
  · by_contra hless
    have hleast := le_exponent bits
    have hmantissa := mantissa_pos h
    have hbelow := below_le bits
    have hpowers : (2 : Nat) ^ 1076 < 10 ^ 400 := by decide +kernel
    have hcast : ((2 ^ 1076 : Nat) : ℚ) < (10 ^ 400 : Nat) := Nat.cast_lt.2 hpowers
    rw [Nat.cast_pow, Nat.cast_pow, Nat.cast_ofNat, Nat.cast_ofNat] at hcast
    have hbottom : (2 : ℚ) ^ (-1076 : Int) ≤ (interval bits).bottom := by
      have hone : (1 : ℚ) ≤ (4 * (parts bits).mantissa - below bits : Nat) := by
        exact_mod_cast (by omega : 1 ≤ 4 * (parts bits).mantissa - below bits)
      calc (2 : ℚ) ^ (-1076 : Int) ≤ 2 ^ ((parts bits).exponent - 2) :=
            zpow_le_zpow_right₀ one_le_two (by omega)
        _ = 1 * 2 ^ ((parts bits).exponent - 2) := (one_mul _).symm
        _ ≤ (interval bits).bottom := by
          rw [interval_bottom]
          gcongr
    have hten : (10 : ℚ) ^ ((shortest bits).exponent + 1) ≤ 10 ^ (-400 : Int) :=
      zpow_le_zpow_right₀ (by norm_num) (by omega)
    have hcontra := (hbottom.trans_lt hlow).trans_le hten
    rw [zpow_neg, zpow_neg, zpow_ofNat, zpow_ofNat,
      inv_lt_inv₀ (by positivity) (by positivity)] at hcontra
    exact lt_asymm hcast hcontra
  · have hpower := (hhigh.trans (top_le hfinite)).trans_lt two_pow_lt
    have hless := (zpow_lt_zpow_iff_right₀ (by norm_num : (1 : ℚ) < 10)).1 hpower
    omega

end Nonzero

/-- A double other than the two largest leaves room for what reading rounds. -/
theorem top_le_room {bits : UInt64} (hfinite : isFinite bits = true)
    (h : (parts bits).exponent = 971 → (parts bits).mantissa ≤ 2 ^ 53 - 3) :
    (interval bits).top ≤ room := by
  have hmantissa := mantissa_lt bits
  rcases (exponent_le hfinite).eq_or_lt with hlast | hless
  · have hle := h hlast
    have hquarters : ((4 * (parts bits).mantissa + 2 : Nat) : ℚ) ≤ (2 ^ 54 - 5) * 2 := by
      have hnat : 4 * (parts bits).mantissa + 2 ≤ (2 ^ 54 - 5) * 2 := by omega
      exact (Nat.cast_le.2 hnat).trans_eq (by norm_num)
    rw [interval_top, hlast]
    calc ((4 * (parts bits).mantissa + 2 : Nat) : ℚ) * 2 ^ ((971 : Int) - 2)
        ≤ (2 ^ 54 - 5) * 2 * 2 ^ ((971 : Int) - 2) := by gcongr
      _ = room := by
        rw [room, mul_assoc, ← zpow_one_add₀ two_ne_zero]
        rfl
  · have hquarters :
        ((4 * (parts bits).mantissa + 2 : Nat) : ℚ) ≤ (2 ^ 54 - 5) * 2 ^ (2 : Int) := by
      have hnat : 4 * (parts bits).mantissa + 2 ≤ (2 ^ 54 - 5) * 2 ^ 2 := by omega
      exact (Nat.cast_le.2 hnat).trans_eq (by norm_num)
    rw [interval_top]
    calc ((4 * (parts bits).mantissa + 2 : Nat) : ℚ) * 2 ^ ((parts bits).exponent - 2)
        ≤ (2 ^ 54 - 5) * 2 ^ (2 : Int) * 2 ^ ((970 : Int) - 2) := by
          gcongr
          · exact one_le_two
          · omega
      _ = room := by
        rw [room, mul_assoc, ← zpow_add₀ two_ne_zero]
        rfl

end Spelling

theorem shortest_congr {bits bits' : UInt64}
    (hmantissa : (parts bits).mantissa = (parts bits').mantissa)
    (hexponent : (parts bits).exponent = (parts bits').exponent) :
    shortest bits = shortest bits' := by
  have hinterval : roundingInterval (parts bits) = roundingInterval (parts bits') := by
    rw [roundingInterval, roundingInterval, hmantissa, hexponent]
  rw [shortest, shortest, hinterval]

/-- The two largest doubles have digits that reading still takes. -/
theorem double?_largest (bits : UInt64)
    (h : bits = 0x7fefffffffffffff ∨ bits = 0x7feffffffffffffe) :
    (Spelling.scientific false (shortest bits)).double?.isSome ∧
      (shortest bits).exponent = 308 := by
  rcases h with rfl | rfl <;> decide +kernel

theorem double?_ofDouble {bits : UInt64} (h : isFinite bits = true) :
    (Spelling.ofDouble bits).double?.isSome := by
  cases hzero : isZero bits with
  | true =>
    rw [Spelling.ofDouble, if_pos hzero]
    show (Spelling.double? ⟨false, ['0'], some ['0'], none⟩).isSome = true
    decide +kernel
  | false =>
    -- the two largest doubles are too near the end of the range for the bound, so their numerals
    -- are read outright
    by_cases hlargest : (parts bits).exponent = 971 ∧ 2 ^ 53 - 2 ≤ (parts bits).mantissa
    · obtain ⟨hexponent, hmantissa⟩ := hlargest
      have hless := mantissa_lt bits
      have hsame : shortest bits = shortest 0x7fefffffffffffff ∨
          shortest bits = shortest 0x7feffffffffffffe := by
        rcases Nat.lt_or_ge (parts bits).mantissa (2 ^ 53 - 1) with hsecond | hfirst
        · have heq : (parts bits).mantissa = 2 ^ 53 - 2 := by omega
          exact .inr (shortest_congr (heq.trans rfl) (hexponent.trans rfl))
        · have heq : (parts bits).mantissa = 2 ^ 53 - 1 := by omega
          exact .inl (shortest_congr (heq.trans rfl) (hexponent.trans rfl))
      have hlargest : (Spelling.scientific false (shortest bits)).double?.isSome ∧
          (shortest bits).exponent = 308 := by
        rcases hsame with hsame | hsame
        · rw [hsame]
          exact double?_largest _ (.inl rfl)
        · rw [hsame]
          exact double?_largest _ (.inr rfl)
      rw [Spelling.ofDouble, hzero, if_neg Bool.false_ne_true, hlargest.2, if_neg (by decide)]
      exact hlargest.1
    · obtain ⟨hlow, hhigh⟩ := Spelling.exponent_bounds hzero h
      have htop := Spelling.top_le_room h fun hexponent => by
        rw [not_and] at hlargest
        have hmantissa := hlargest hexponent
        omega
      have hpower : -400 ≤ (Spelling.ofDouble bits).power ∧
          (Spelling.ofDouble bits).power ≤ 400 := by
        rcases Spelling.power_ofDouble hzero with heq | heq <;> omega
      have hlimit : exponentLimit = 0x7fffffff := rfl
      refine Spelling.double?_isSome (Spelling.significand_ofDouble_lt hzero) (by omega) (by omega)
        (.inr ⟨Spelling.significand_ofDouble_pos hzero, ?_⟩)
      rw [Spelling.magnitude_ofDouble hzero]
      exact (shortest_holds hzero).1.le_top.trans htop

/-- **A finite double is read back as a finite double.** -/
theorem rereadNumber_double {bits : UInt64} (h : isFinite bits = true) :
    ∃ x, isFinite x = true ∧ rereadNumber (.double bits) = .number (.double x) := by
  obtain ⟨x, hx⟩ := Option.isSome_iff_exists.1 (double?_ofDouble h)
  have hfinite := Spelling.isFinite_of_double? hx
  have hread := Spelling.spelling?_text (Spelling.ofDouble_sound bits) ends_nil
  rw [List.append_nil, Spelling.ofDouble_text] at hread
  rw [rereadNumber, hread]
  simp only [Spelling.number?_ofDouble, hx, Option.map_some]
  refine ⟨_, ?_, rfl⟩
  split
  · rw [isFinite_negate, hfinite]
  · exact hfinite

end AnalysisGate.Json
