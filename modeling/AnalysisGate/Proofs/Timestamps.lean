import AnalysisGate.Timestamp
import AnalysisGate.Proofs.Numerals
import AnalysisGate.Proofs.Trimming
import Mathlib

/-!
Timestamps in text.

A point in time that there is, in a year of the calendar and a second of the day, is read from its
text as itself (`Timestamp.parse_text`). Each scanner is taken with what follows the part that it
reads, so the parts are put together one by one.
-/
namespace AnalysisGate

/-! ## Padded numerals -/

namespace Numeral

theorem isDigit_of_mem_padded {width n : Nat} {c : Char} (h : c ∈ padded width n) :
    isDigit c = true := by
  rw [padded, List.mem_append] at h
  rcases h with h | h
  · obtain ⟨-, rfl⟩ := List.mem_replicate.1 h
    rfl
  · exact isDigit_of_mem_digits h

theorem value_padded (width n : Nat) : value (padded width n) = n := by
  rw [padded, value_zeros_append, value_digits]

theorem length_padded {width n : Nat} (hwidth : 0 < width) (h : n < 10 ^ width) :
    (padded width n).length = width := by
  have hdigits : (digits n).length ≤ width := by
    rcases Nat.eq_zero_or_pos n with rfl | hn
    · rw [digits_of_lt (by decide)]
      exact hwidth
    · by_contra hlong
      have hpow := Nat.pow_le_pow_right (n := 10) (by decide)
        (show width ≤ (digits n).length - 1 by omega)
      have hle := pow_length_digits_le (Nat.ne_of_gt hn)
      omega
  rw [padded, List.length_append, List.length_replicate]
  omega

theorem padded_eq_cons (width n : Nat) : ∃ c cs, padded width n = c :: cs ∧ isDigit c = true := by
  cases h : padded width n with
  | nil => exact absurd (List.append_eq_nil_iff.1 h).2 (digits_ne_nil n)
  | cons c cs => exact ⟨c, cs, rfl, isDigit_of_mem_padded (h ▸ List.mem_cons_self ..)⟩

end Numeral

namespace Timestamp

open Numeral

/-- There is such a point in time: a day of the calendar, a second of the day, and less than a
second of nanoseconds, or less than two in the last second of a minute. -/
structure Valid (t : Timestamp) : Prop where
  date : t.date.isValid = true
  second : t.second < daySeconds
  nano : t.nano < 2 * secondNanos
  leap : secondNanos ≤ t.nano → t.second % 60 = 59

theorem valid_epoch : epoch.Valid := ⟨by decide, by decide, by decide, by decide⟩

variable {c : Char} {n least most width : Nat} {rest : List Char}

/-! ## Scanners -/

theorem trimStart_padded : Text.trimStart (padded width n ++ rest) = padded width n ++ rest := by
  obtain ⟨c, cs, hcs, hc⟩ := padded_eq_cons width n
  rw [hcs]
  exact Text.trimStart_cons (Text.isBlank_of_isDigit hc)

theorem separator_cons (h : Text.isBlank c = false) : separator c (c :: rest) = .ok rest := by
  rw [separator, Text.trimStart_cons h]
  exact if_pos rfl

/-- What follows a number is no digit of it. -/
theorem number_padded (hwidth : (padded width n).length ≤ most)
    (hc : isDigit c = false) :
    number most (padded width n ++ c :: rest) = .ok (n, c :: rest) := by
  have hrun : ((padded width n ++ c :: rest).take most).takeWhile isDigit = padded width n := by
    rw [List.take_append, List.take_of_length_le hwidth,
      List.takeWhile_append_of_pos fun _ h => isDigit_of_mem_padded h]
    cases most - (padded width n).length <;> simp [hc]
  obtain ⟨d, cs, hcs, hd⟩ := padded_eq_cons width n
  rw [hcs, List.cons_append] at hrun ⊢
  have hdrop : ((d :: cs) ++ c :: rest).drop (d :: cs).length = c :: rest := List.drop_left
  rw [List.cons_append] at hdrop
  rw [number.eq_def]
  simp only [hd, Bool.not_true, Bool.false_eq_true, if_false, hrun, hdrop]
  rw [← hcs, value_padded]

theorem part_padded (hleast : least ≤ n) (hmost : n ≤ most) (hn : n < 100)
    (hc : isDigit c = false) : part least most (padded 2 n ++ c :: rest) = .ok (n, c :: rest) := by
  have hlength : (padded 2 n).length ≤ 2 := (length_padded (by decide) hn).le
  rw [part, trimStart_padded, number_padded hlength hc]
  simp only [bind, Except.bind, hleast, hmost, and_self, if_true]
  rfl

/-! ## Dates -/

theorem scanYear_yearText {year : Int} (hleast : Date.leastYear ≤ year)
    (hmost : year ≤ Date.mostYear) :
    scanYear (yearText year ++ '-' :: rest) = .ok (year, '-' :: rest) := by
  have hlow : -262143 ≤ year := hleast
  have hhigh : year ≤ 262142 := hmost
  have hbounds : -0x80000000 ≤ year ∧ year < 0x80000000 := by omega
  have hlong (n : Nat) : number (padded 4 n ++ '-' :: rest).length (padded 4 n ++ '-' :: rest) =
      .ok (n, '-' :: rest) := number_padded (by simp) rfl
  unfold yearText
  -- four digits without a sign, or as many as it takes after one
  split
  · next h =>
    obtain ⟨c, cs, hcs, hc⟩ := padded_eq_cons 4 year.toNat
    have hplus : c ≠ '+' := by rintro rfl; cases hc
    have hminus : c ≠ '-' := by rintro rfl; cases hc
    have hlength : (padded 4 year.toNat).length ≤ 4 :=
      (length_padded (by decide) (by omega)).le
    have hnumber : number 4 (padded 4 year.toNat ++ '-' :: rest) =
        .ok (year.toNat, '-' :: rest) := number_padded hlength rfl
    have hyear : (year.toNat : Int) = year := by omega
    rw [scanYear, trimStart_padded]
    rw [hcs, List.cons_append] at hnumber ⊢
    simp only [hnumber, Except.map, bind, Except.bind, hyear, hbounds, and_self, if_true]
    split
    · next heq => exact absurd (List.cons.inj heq).1 hminus
    · next heq => exact absurd (List.cons.inj heq).1 hplus
    · rfl
  · next h =>
    split
    · next hnegative =>
      have hyear : -(year.natAbs : Int) = year := by omega
      rw [List.cons_append, scanYear, Text.trimStart_cons (by decide)]
      simp only [hlong, Except.map, bind, Except.bind, hyear, hbounds, and_self, if_true]
      rfl
    · next hpositive =>
      have hyear : (year.natAbs : Int) = year := by omega
      rw [List.cons_append, scanYear, Text.trimStart_cons (by decide)]
      simp only [hlong, Except.map, bind, Except.bind, hyear, hbounds, and_self, if_true]
      rfl

theorem scanDate_date {d : Date} (h : d.isValid = true) :
    scanDate (yearText d.year ++ '-' :: (padded 2 d.month ++ '-' :: (padded 2 d.day ++
      'T' :: rest))) = .ok (d, 'T' :: rest) := by
  simp only [Date.isValid, Bool.and_eq_true, decide_eq_true_eq] at h
  obtain ⟨⟨⟨⟨⟨hleast, hmost⟩, hmonth⟩, hmonth'⟩, hday⟩, hday'⟩ := h
  have hlength : Date.monthLength d.year d.month ≤ 31 := by
    unfold Date.monthLength
    split
    · split <;> decide
    · split <;> decide
  have hmonths {rest : List Char} :
      part 1 12 (padded 2 d.month ++ '-' :: rest) = .ok (d.month, '-' :: rest) :=
    part_padded hmonth hmonth' (by omega) rfl
  have hdays : part 1 31 (padded 2 d.day ++ 'T' :: rest) = .ok (d.day, 'T' :: rest) :=
    part_padded hday (hday'.trans hlength) (by omega) rfl
  rw [scanDate, scanYear_yearText hleast hmost]
  simp only [bind, Except.bind, separator_cons (show Text.isBlank '-' = false from rfl), hmonths,
    hdays]
  rfl

/-! ## Times of day -/

theorem scanFraction_fractionText {nano : Nat} (h : nano < secondNanos) :
    scanFraction (fractionText nano ++ ['Z']) = .ok (nano, ['Z']) := by
  have hnanos : secondNanos = 1000000000 := rfl
  -- three, six or nine digits give as many nanoseconds as the zeros left out of them say
  have hdigits {width n : Nat} (hwidth : 0 < width) (hwidth' : width ≤ 9) (hn : n < 10 ^ width) :
      scanFraction ('.' :: (padded width n ++ ['Z'])) = .ok (n * 10 ^ (9 - width), ['Z']) := by
    have hlength := length_padded hwidth hn
    have hnumber : number 9 (padded width n ++ ['Z']) = .ok (n, ['Z']) :=
      number_padded (by omega) rfl
    have hread : (padded width n ++ ['Z']).length - ['Z'].length = width := by simp [hlength]
    simp only [scanFraction, hnumber, bind, Except.bind, hread]
    rfl
  unfold fractionText
  split
  · next hzero =>
    rw [hzero]
    rfl
  · split
    · have hwhole : nano / 1000000 * 10 ^ (9 - 3) = nano := by omega
      rw [List.cons_append, hdigits (by decide) (by decide) (by omega), hwhole]
    · split
      · have hwhole : nano / 1000 * 10 ^ (9 - 6) = nano := by omega
        rw [List.cons_append, hdigits (by decide) (by decide) (by omega), hwhole]
      · rw [List.cons_append, hdigits (by decide) (by decide) (by omega)]
        simp

/-- The seconds are followed by a point or by the end. -/
theorem fractionText_eq_cons (nano : Nat) :
    ∃ c rest, fractionText nano ++ ['Z'] = c :: rest ∧ isDigit c = false := by
  unfold fractionText
  split
  · exact ⟨_, _, rfl, rfl⟩
  · split
    · exact ⟨_, _, rfl, rfl⟩
    · split <;> exact ⟨_, _, rfl, rfl⟩

theorem scanTime_time {t : Timestamp} (h : t.Valid) :
    scanTime (padded 2 (t.second / 3600) ++ ':' :: (padded 2 (t.second / 60 % 60) ++
      ':' :: (padded 2 (t.second % 60 + t.nano / secondNanos) ++
        (fractionText (t.nano % secondNanos) ++ ['Z'])))) =
      .ok ((t.second, t.nano), ['Z']) := by
  have hday : daySeconds = 86400 := rfl
  have hnanos : secondNanos = 1000000000 := rfl
  have hsecond := hday ▸ h.second
  have hnano := hnanos ▸ h.nano
  have hleap := hnanos ▸ h.leap
  have hhours {rest : List Char} : part 0 23 (padded 2 (t.second / 3600) ++ ':' :: rest) =
      .ok (t.second / 3600, ':' :: rest) := part_padded (Nat.zero_le _) (by omega) (by omega) rfl
  have hminutes {rest : List Char} : part 0 59 (padded 2 (t.second / 60 % 60) ++ ':' :: rest) =
      .ok (t.second / 60 % 60, ':' :: rest) :=
    part_padded (Nat.zero_le _) (by omega) (by omega) rfl
  have hseconds : part 0 60 (padded 2 (t.second % 60 + t.nano / secondNanos) ++
      (fractionText (t.nano % secondNanos) ++ ['Z'])) =
      .ok (t.second % 60 + t.nano / secondNanos,
        fractionText (t.nano % secondNanos) ++ ['Z']) := by
    obtain ⟨c, rest, hrest, hc⟩ := fractionText_eq_cons (t.nano % secondNanos)
    rw [hrest, hnanos]
    exact part_padded (Nat.zero_le _) (by omega) (by omega) hc
  have hfraction := scanFraction_fractionText (Nat.mod_lt t.nano (show 0 < secondNanos by decide))
  rw [scanTime]
  simp only [bind, Except.bind, separator_cons (show Text.isBlank ':' = false from rfl), hhours,
    hminutes, hseconds, hfraction]
  -- a leap second is written as a sixtieth one, and kept as more nanoseconds than a second has
  split
  · next hsixty =>
    rw [hnanos] at hsixty
    have heq : t.second / 3600 * 3600 + t.second / 60 % 60 * 60 + 59 = t.second := by omega
    have hnano' : t.nano % secondNanos + secondNanos = t.nano := by rw [hnanos]; omega
    rw [heq, hnano']
    rfl
  · next hsixty =>
    rw [hnanos] at hsixty
    have heq : t.second / 3600 * 3600 + t.second / 60 % 60 * 60 +
        (t.second % 60 + t.nano / secondNanos) = t.second := by rw [hnanos]; omega
    have hnano' : t.nano % secondNanos = t.nano := by rw [hnanos]; omega
    rw [heq, hnano']
    rfl

/-! ## Points in time -/

theorem ofLocal_zero {t : Timestamp} (h : t.Valid) :
    ofLocal t.date t.second t.nano 0 = .ok t := by
  have hday : daySeconds = 86400 := rfl
  have hsecond := h.second
  have hnegative : ¬ ((t.second : Int) - 0 < 0) := by omega
  have hnext : ¬ ((daySeconds : Int) ≤ (t.second : Int) - 0) := by omega
  have hsame : (((t.second : Int) - 0) % (daySeconds : Int)).toNat = t.second := by rw [hday]; omega
  rw [ofLocal, h.date]
  simp only [hnegative, hnext, hsame, if_false]
  rfl

/-- **A point in time is read from its text as itself.** -/
theorem parse_text {t : Timestamp} (h : t.Valid) : parse t.text = .ok t := by
  have htext : t.text.toList = yearText t.date.year ++ '-' :: (padded 2 t.date.month ++
      '-' :: (padded 2 t.date.day ++ 'T' :: (padded 2 (t.second / 3600) ++
        ':' :: (padded 2 (t.second / 60 % 60) ++
          ':' :: (padded 2 (t.second % 60 + t.nano / secondNanos) ++
            (fractionText (t.nano % secondNanos) ++ ['Z'])))))) := by
    rw [text, String.toList_ofList]
    simp only [List.append_assoc, List.cons_append]
  rw [parse, htext, parseChars, scanDate_date h.date]
  simp only [bind, Except.bind, or_true, true_or, if_true, scanTime_time h]
  exact ofLocal_zero h

end Timestamp

end AnalysisGate
