import AnalysisGate.Json.Reader
import AnalysisGate.Json.Writer
import AnalysisGate.Proofs.Numerals
import Mathlib

/-!
Numbers in text.

Every number is written as a numeral, a double as `Spelling.ofDouble`, and a numeral that nothing
lengthens is read as what it spells (`spelling?_text`). For the integers that is the number itself.
What a double is read back as is `rereadNumber`; nothing here says that it is the same double.
-/
namespace AnalysisGate.Json

/-! ## Numerals -/

namespace Spelling

/-- A fraction as it is written. -/
def fractionText : Option (List Char) → List Char
  | none => []
  | some ds => '.' :: ds

/-- A power of ten as it is written, with its sign. -/
def exponentText : Option (Bool × List Char) → List Char
  | none => []
  | some (negative, ds) => 'e' :: (if negative then '-' else '+') :: ds

def text (n : Spelling) : List Char :=
  (if n.negative then ['-'] else []) ++ n.whole ++ fractionText n.fraction ++
    exponentText n.exponent

/-- One or more digits. -/
def Run (cs : List Char) : Prop := cs ≠ [] ∧ ∀ c ∈ cs, Numeral.isDigit c = true

/-- The parts are runs of digits, and the whole part has no leading zero. -/
structure Sound (n : Spelling) : Prop where
  whole : Run n.whole
  head : 1 < n.whole.length → n.whole.head? ≠ some '0'
  fraction : ∀ ds, n.fraction = some ds → Run ds
  exponent : ∀ e ds, n.exponent = some (e, ds) → Run ds

end Spelling

/-- Nothing that could lengthen a numeral comes next. -/
def Ends (rest : List Char) : Prop :=
  ∀ c ∈ rest.head?, Numeral.isDigit c = false ∧ c ≠ '.' ∧ c ≠ 'e' ∧ c ≠ 'E'

theorem ends_nil : Ends [] := by simp [Ends]

/-- A text that does not go on with a digit ends a run of digits. -/
theorem digitRun_append {ds rest : List Char} (hds : ∀ c ∈ ds, Numeral.isDigit c = true)
    (hrest : ∀ c ∈ rest.head?, Numeral.isDigit c = false) : digitRun (ds ++ rest) = (ds, rest) := by
  unfold digitRun
  rw [List.takeWhile_append_of_pos hds, List.dropWhile_append_of_pos hds]
  cases rest with
  | nil => simp
  | cons c rest => simp [hrest c rfl]

theorem Ends.digit {rest : List Char} (h : Ends rest) :
    ∀ c ∈ rest.head?, Numeral.isDigit c = false := fun c hc => (h c hc).1

namespace Spelling

theorem power?_append {ds rest : List Char} (hds : Run ds) (hrest : Ends rest) (negative : Bool) :
    power? negative (ds ++ rest) = some (some (negative, ds), rest) := by
  simp [power?, digitRun_append hds.2 hrest.digit, hds.1]

theorem exponent?_append {e : Option (Bool × List Char)}
    (he : ∀ negative ds, e = some (negative, ds) → Run ds) {rest : List Char} (hrest : Ends rest) :
    exponent? (exponentText e ++ rest) = some (e, rest) := by
  cases e with
  | none =>
    cases rest with
    | nil => rfl
    | cons c rest =>
      obtain ⟨-, -, he, hE⟩ := hrest c rfl
      simp only [exponentText, List.nil_append]
      unfold exponent?
      split <;> simp_all
  | some e =>
    obtain ⟨negative, ds⟩ := e
    have hds := he negative ds rfl
    cases negative
    · exact power?_append hds hrest false
    · exact power?_append hds hrest true

/-- A power of ten does not start as a fraction does, nor with a digit. -/
theorem exponentText_head {e : Option (Bool × List Char)} {rest : List Char} (hrest : Ends rest) :
    ∀ c ∈ (exponentText e ++ rest).head?, Numeral.isDigit c = false ∧ c ≠ '.' := by
  intro c hc
  cases e with
  | none => exact ⟨(hrest c hc).1, (hrest c hc).2.1⟩
  | some e =>
    obtain rfl : 'e' = c := by simpa [exponentText] using hc
    decide

theorem fraction?_append {f : Option (List Char)} (hf : ∀ ds, f = some ds → Run ds)
    {rest : List Char} (hrest : ∀ c ∈ rest.head?, Numeral.isDigit c = false ∧ c ≠ '.') :
    fraction? (fractionText f ++ rest) = some (f, rest) := by
  cases f with
  | none =>
    cases rest with
    | nil => rfl
    | cons c rest =>
      have hc := (hrest c rfl).2
      simp only [fractionText, List.nil_append]
      unfold fraction?
      split <;> simp_all
  | some ds =>
    have hds := hf ds rfl
    have hrun := digitRun_append hds.2 fun c hc => (hrest c hc).1
    simp [fractionText, fraction?, hrun, hds.1]

/-- The head of what follows the whole part is no digit. -/
theorem fractionText_head {f : Option (List Char)} {rest : List Char}
    (hrest : ∀ c ∈ rest.head?, Numeral.isDigit c = false ∧ c ≠ '.') :
    ∀ c ∈ (fractionText f ++ rest).head?, Numeral.isDigit c = false := by
  intro c hc
  cases f with
  | none => exact (hrest c hc).1
  | some ds =>
    obtain rfl : '.' = c := by simpa [fractionText] using hc
    decide

/-- The first character of a numeral is its sign or a digit. -/
theorem text_head {n : Spelling} (hn : n.Sound) (rest : List Char) :
    ∃ c tail, n.text ++ rest = c :: tail ∧ (c = '-' ∨ Numeral.isDigit c = true) := by
  obtain ⟨c, cs, hcs⟩ := List.exists_cons_of_ne_nil hn.whole.1
  have hc := hn.whole.2 c (hcs ▸ List.mem_cons_self)
  unfold text
  cases n.negative with
  | true => exact ⟨'-', _, rfl, .inl rfl⟩
  | false => exact ⟨c, _, by rw [hcs]; rfl, .inr hc⟩

/-- What a numeral spells after its sign. -/
def magnitude? (negative : Bool) (cs : List Char) : Option (Spelling × List Char) := do
  let (whole, rest) := digitRun cs
  if whole.isEmpty || (whole.length > 1 && whole.head? == some '0') then none
  else
    let (fraction, rest) ← fraction? rest
    let (exponent, rest) ← exponent? rest
    return (⟨negative, whole, fraction, exponent⟩, rest)

theorem spelling?_minus (cs : List Char) : spelling? ('-' :: cs) = magnitude? true cs := rfl

theorem spelling?_cons {c : Char} (hc : c ≠ '-') (cs : List Char) :
    spelling? (c :: cs) = magnitude? false (c :: cs) := by
  simp only [spelling?]
  split
  · next heq => exact absurd (List.cons.inj heq).1 hc
  · rfl

/-- The sign of a numeral is taken off first. -/
theorem spelling?_signed {n : Spelling} (hn : n.Sound) (rest : List Char) :
    spelling? (n.text ++ rest) = magnitude? n.negative (n.whole ++ (fractionText n.fraction ++
      (exponentText n.exponent ++ rest))) := by
  obtain ⟨c, cs, hcs⟩ := List.exists_cons_of_ne_nil hn.whole.1
  have hc := hn.whole.2 c (hcs ▸ List.mem_cons_self)
  have hminus : c ≠ '-' := by
    rintro rfl
    exact absurd hc (by decide)
  simp only [text, hcs, List.append_assoc, List.cons_append]
  cases n.negative with
  | true => exact spelling?_minus _
  | false => exact spelling?_cons hminus _

/-- **A numeral is read as what it spells.** -/
theorem spelling?_text {n : Spelling} (hn : n.Sound) {rest : List Char} (hrest : Ends rest) :
    spelling? (n.text ++ rest) = some (n, rest) := by
  have htail := exponentText_head (e := n.exponent) hrest
  have hrun := digitRun_append hn.whole.2 (fractionText_head (f := n.fraction) htail)
  have hfraction := fraction?_append hn.fraction htail
  have hexponent := exponent?_append hn.exponent hrest
  have hzero : (n.whole.isEmpty ||
      (decide (n.whole.length > 1) && n.whole.head? == some '0')) = false := by
    simp only [Bool.or_eq_false_iff, Bool.and_eq_false_iff, List.isEmpty_eq_false_iff,
      decide_eq_false_iff_not, beq_eq_false_iff_ne]
    refine ⟨hn.whole.1, ?_⟩
    by_cases hlong : 1 < n.whole.length
    · exact .inr (hn.head hlong)
    · exact .inl hlong
  rw [spelling?_signed hn, magnitude?, hrun]
  simp [hzero, hfraction, hexponent]

end Spelling

/-! ## Numbers -/

namespace Spelling

theorem run_digits (n : Nat) : Run (Numeral.digits n) :=
  ⟨Numeral.digits_ne_nil n, fun _ hc => Numeral.isDigit_of_mem_digits hc⟩

theorem run_zero : Run ['0'] := by
  refine ⟨by simp, fun c hc => ?_⟩
  obtain rfl := List.mem_singleton.1 hc
  decide

theorem isDigit_of_mem_zeros {k : Nat} {c : Char} (h : c ∈ List.replicate k '0') :
    Numeral.isDigit c = true := by
  obtain rfl := List.eq_of_mem_replicate h
  decide

theorem sound_digits (negative : Bool) (n : Nat) :
    Sound ⟨negative, Numeral.digits n, none, none⟩ where
  whole := run_digits n
  head := Numeral.digits_head n
  fraction := by simp
  exponent := by simp

/-! ## Doubles -/

/-- Digits with the point before them, after them, or among them. -/
def positional (negative : Bool) (d : Decimal.Digits) : Spelling :=
  if d.exponent < 0 then
    ⟨negative, ['0'], some (List.replicate (-d.exponent - 1).toNat '0' ++ d.digits), none⟩
  else if d.digits.length ≤ d.exponent + 1 then
    ⟨negative, d.digits ++ List.replicate (d.exponent + 1 - d.digits.length).toNat '0',
      some ['0'], none⟩
  else
    ⟨negative, d.digits.take (d.exponent + 1).toNat,
      some (d.digits.drop (d.exponent + 1).toNat), none⟩

/-- One digit, the others as a fraction, and a signed power of ten. -/
def scientific (negative : Bool) (d : Decimal.Digits) : Spelling :=
  ⟨negative, d.digits.take 1, if (d.digits.drop 1).isEmpty then none else some (d.digits.drop 1),
    some (decide (d.exponent < 0), Numeral.digits d.exponent.natAbs)⟩

/-- The numeral of a double. -/
def ofDouble (bits : UInt64) : Spelling :=
  if Binary64.isZero bits then ⟨Binary64.isNegative bits, ['0'], some ['0'], none⟩
  else if doubleStyle.leastPositional ≤ (Decimal.shortest bits).exponent &&
      (Decimal.shortest bits).exponent ≤ doubleStyle.mostPositional then
    positional (Binary64.isNegative bits) (Decimal.shortest bits)
  else scientific (Binary64.isNegative bits) (Decimal.shortest bits)

theorem positional_text (negative : Bool) (d : Decimal.Digits) :
    (positional negative d).text =
      (if negative then ['-'] else []) ++ Decimal.positional true d := by
  simp only [positional, Decimal.positional]
  split
  · simp [text, fractionText, exponentText]
  · split <;> simp [text, fractionText, exponentText]

theorem scientific_text (negative : Bool) (d : Decimal.Digits) :
    (scientific negative d).text =
      (if negative then ['-'] else []) ++ Decimal.scientific d := by
  have hfraction : fractionText (if (d.digits.drop 1).isEmpty then none else
      some (d.digits.drop 1)) =
      if (d.digits.drop 1).isEmpty then [] else '.' :: d.digits.drop 1 := by
    split <;> rfl
  simp only [scientific, Decimal.scientific, text, exponentText, hfraction, decide_eq_true_eq,
    List.append_assoc]
  rfl

theorem ofDouble_text (bits : UInt64) : (ofDouble bits).text = numberText (.double bits) := by
  simp only [ofDouble, numberText, Decimal.write]
  split
  · simp [text, fractionText, exponentText, doubleStyle]
  · split
    · exact positional_text _ _
    · exact scientific_text _ _

section Digits

variable {d : Decimal.Digits} {c : Char} {tail : List Char} (negative : Bool)

theorem scientific_sound (hd : d.digits = c :: tail)
    (hdigits : ∀ x ∈ c :: tail, Numeral.isDigit x = true) : (scientific negative d).Sound := by
  have hafter : (d.digits.drop 1).isEmpty = false → Run (d.digits.drop 1) := by
    intro hne
    exact ⟨List.isEmpty_eq_false_iff.1 hne, fun x hx => hdigits x (hd ▸ List.mem_of_mem_drop hx)⟩
  refine ⟨⟨by simp [scientific, hd], fun x hx => hdigits x (hd ▸ List.mem_of_mem_take hx)⟩,
    by simp [scientific, hd], fun ds hds => ?_, fun e ds hds => ?_⟩
  · simp only [scientific] at hds
    split at hds
    · cases hds
    · next hne =>
      cases hds
      exact hafter (Bool.eq_false_iff.2 hne)
  · cases hds
    exact run_digits _

theorem positional_sound (hd : d.digits = c :: tail) (hc : c ≠ '0')
    (hdigits : ∀ x ∈ c :: tail, Numeral.isDigit x = true) : (positional negative d).Sound := by
  -- of any two runs of digits with a point between, the first is to be free of needless zeros
  have hpoint {whole after : List Char} (hwhole : Run whole)
      (hhead : 1 < whole.length → whole.head? ≠ some '0') (hafter : Run after) :
      Sound ⟨negative, whole, some after, none⟩ := by
    refine ⟨hwhole, hhead, fun ds hds => ?_, nofun⟩
    cases hds
    exact hafter
  rw [← hd] at hdigits
  have hne : d.digits ≠ [] := by simp [hd]
  simp only [positional]
  split
  · refine hpoint run_zero (by simp) ⟨by simp [hne], fun x hx => ?_⟩
    rcases List.mem_append.1 hx with hx | hx
    · exact isDigit_of_mem_zeros hx
    · exact hdigits x hx
  · split
    · refine hpoint ⟨by simp [hne], fun x hx => ?_⟩ (by simp [hd, hc]) run_zero
      rcases List.mem_append.1 hx with hx | hx
      · exact hdigits x hx
      · exact isDigit_of_mem_zeros hx
    · next hpos hshort =>
      have hless : (d.exponent + 1).toNat < d.digits.length := by omega
      obtain ⟨k, hk⟩ : ∃ k, (d.exponent + 1).toNat = k + 1 := ⟨d.exponent.toNat, by omega⟩
      rw [hk] at hless ⊢
      refine hpoint ⟨by simp [hd], fun x hx => hdigits x (List.mem_of_mem_take hx)⟩
        (by simp [hd, hc]) ⟨?_, fun x hx => hdigits x (List.mem_of_mem_drop hx)⟩
      rw [Ne, List.drop_eq_nil_iff]
      omega

end Digits

theorem ofDouble_sound (bits : UInt64) : (ofDouble bits).Sound := by
  unfold ofDouble
  split
  · refine ⟨run_zero, by simp, fun ds hds => ?_, nofun⟩
    cases hds
    exact run_zero
  · next hne =>
    obtain ⟨c, tail, hd, hc, hdigits⟩ := Decimal.shortest_digits (Bool.eq_false_iff.2 hne)
    split
    · exact positional_sound _ hd hc hdigits
    · exact scientific_sound _ hd hdigits

end Spelling

/-- Every number is written as a numeral. -/
theorem exists_spelling (n : Number) : ∃ sp : Spelling, sp.Sound ∧ numberText n = sp.text := by
  cases n with
  | natural n =>
    exact ⟨_, Spelling.sound_digits false n.toNat, by
      simp [numberText, Spelling.text, Spelling.fractionText, Spelling.exponentText]⟩
  | negative n =>
    exact ⟨_, Spelling.sound_digits true (n.val + 1), by
      simp [numberText, Spelling.text, Spelling.fractionText, Spelling.exponentText]⟩
  | double bits => exact ⟨_, Spelling.ofDouble_sound bits, (Spelling.ofDouble_text bits).symm⟩

/-- What a number is read back as: an integer as itself, and a double as its numeral says. -/
def rereadNumber (n : Number) : Json :=
  match spelling? (numberText n) with
  | some (sp, _) =>
    match sp.number? with
    | some x => .number x
    | none => .beyond
  | none => .beyond

theorem isDigit_not_word {c : Char} (h : c = '-' ∨ Numeral.isDigit c = true) :
    c ≠ 'n' ∧ c ≠ 't' ∧ c ≠ 'f' := by
  rcases h with rfl | h
  · decide
  · refine ⟨?_, ?_, ?_⟩ <;> rintro rfl <;> exact absurd h (by decide)

/-- A number that nothing lengthens is read, and nothing after it is. -/
theorem scalar?_numberText (n : Number) {rest : List Char} (hrest : Ends rest) :
    scalar? (numberText n ++ rest) = some (rereadNumber n, rest) := by
  obtain ⟨sp, hsp, htext⟩ := exists_spelling n
  have hall := Spelling.spelling?_text hsp hrest
  have halone := Spelling.spelling?_text hsp ends_nil
  rw [List.append_nil] at halone
  obtain ⟨c, tail, hcons, hc⟩ := Spelling.text_head hsp rest
  obtain ⟨hn, ht, hf⟩ := isDigit_not_word hc
  rw [hcons] at hall
  rw [rereadNumber, htext, halone, hcons]
  simp only [scalar?, word?]
  cases hnumber : sp.number? <;> simp [hn.symm, ht.symm, hf.symm, hall, hnumber]

/-- An integer kind gives back the number of the integer that it stands for. -/
theorem ofInt?_int? {n : Number} {i : Int} (h : n.int? = some i) : Number.ofInt? i = some n := by
  cases n with
  | natural n =>
    obtain rfl : (n.toNat : Int) = i := by simpa [Number.int?] using h
    have hlt : (n.toNat : Int) < (UInt64.size : Int) := by exact_mod_cast n.toNat_lt_size
    rw [Number.ofInt?, if_pos (Int.natCast_nonneg _), if_pos hlt, Int.toNat_natCast,
      UInt64.ofNat_toNat]
  | negative n =>
    obtain rfl : -(n.val : Int) - 1 = i := by simpa [Number.int?] using h
    have hback : (-(-(n.val : Int) - 1) - 1).toNat = n.val := by omega
    rw [Number.ofInt?, if_neg (by omega)]
    simp only [hback]
    rw [dif_pos n.isLt]
  | double bits => cases h

/-- The numeral of an integer stands for it. -/
theorem Spelling.number?_digits (negative : Bool) (m : Nat) (hm : negative = true → m ≠ 0)
    {x : Number} (hx : Number.ofInt? (if negative then -(m : Int) else m) = some x) :
    Spelling.number? ⟨negative, Numeral.digits m, none, none⟩ = some x := by
  have hzero : (negative && decide (m = 0)) = false := by
    cases negative with
    | false => rfl
    | true => simpa using hm rfl
  simp only [Spelling.number?, Numeral.value_digits, hzero, hx, Option.some_or,
    Bool.false_eq_true, if_false]

theorem rereadNumber_digits {n : Number} (negative : Bool) (m : Nat)
    (htext : numberText n = (if negative then ['-'] else []) ++ Numeral.digits m)
    (hm : negative = true → m ≠ 0)
    (hn : Number.ofInt? (if negative then -(m : Int) else m) = some n) :
    rereadNumber n = .number n := by
  have hread := Spelling.spelling?_text (Spelling.sound_digits negative m) ends_nil
  simp only [Spelling.text, Spelling.fractionText, Spelling.exponentText, List.append_nil,
    ← htext] at hread
  rw [rereadNumber, hread]
  simp only [Spelling.number?_digits negative m hm hn]

/-- An integer is read back as itself. -/
theorem rereadNumber_int {n : Number} {i : Int} (h : n.int? = some i) :
    rereadNumber n = .number n := by
  have hof := ofInt?_int? h
  cases n with
  | natural n =>
    obtain rfl : (n.toNat : Int) = i := by simpa [Number.int?] using h
    exact rereadNumber_digits false n.toNat rfl (by simp) (by simpa using hof)
  | negative n =>
    obtain rfl : -(n.val : Int) - 1 = i := by simpa [Number.int?] using h
    have hcast : -((n.val + 1 : Nat) : Int) = -(n.val : Int) - 1 := by omega
    exact rereadNumber_digits true (n.val + 1) rfl (fun _ => Nat.succ_ne_zero _)
      (by rw [if_pos rfl, hcast]; exact hof)
  | double bits => cases h

end AnalysisGate.Json
