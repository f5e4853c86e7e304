import AnalysisGate.Proofs.Json.Parts
import Mathlib

/-!
Texts of values tell the values apart.

The compact text of a value is never the start of another one's, whatever follows the two
(`compact_append_inj`), so values of one text are one value (`compactText_inj`). Doubles are the
one kind of part whose numerals are not looked into: those that occur are taken to be written apart.
-/
namespace AnalysisGate

namespace Json

/-! ## Doubles of a document -/

/-- The numeral of a double. -/
def doubleText (bits : UInt64) : List Char := numberText (.double bits)

mutual

/-- The doubles that a document has. -/
def doubles : Json → List UInt64
  | .number (.double bits) => [bits]
  | .array l => doublesItems l
  | .object l => doublesMembers l
  | .number (.natural _) | .number (.negative _) | .null | .bool _ | .string _ | .beyond => []

def doublesItems : List Json → List UInt64
  | [] => []
  | j :: rest => doubles j ++ doublesItems rest

def doublesMembers : List (String × Json) → List UInt64
  | [] => []
  | (_, j) :: rest => doubles j ++ doublesMembers rest

end

theorem doublesItems_eq (l : List Json) : doublesItems l = l.flatMap doubles := by
  induction l with
  | nil => rfl
  | cons j l ih => rw [doublesItems, ih, List.flatMap_cons]

theorem doublesMembers_eq (l : List (String × Json)) :
    doublesMembers l = l.flatMap fun e => doubles e.2 := by
  induction l with
  | nil => rfl
  | cons e l ih => rw [doublesMembers, ih, List.flatMap_cons]

/-- A value whose doubles are in a set. -/
structure Over (D : Set UInt64) (j : Json) : Prop where
  normal : j.Normal
  doubles : ∀ x ∈ j.doubles, x ∈ D

namespace Over

variable {D : Set UInt64}

theorem item {l : List Json} (h : Over D (.array l)) : ∀ j ∈ l, Over D j := by
  intro j hj
  refine ⟨normal_item h.normal j hj, fun x hx => h.doubles x ?_⟩
  rw [Json.doubles, doublesItems_eq]
  exact List.mem_flatMap_of_mem hj hx

theorem member {l : List (String × Json)} (h : Over D (.object l)) : ∀ e ∈ l, Over D e.2 := by
  intro e he
  refine ⟨(normal_member h.normal).2 e he, fun x hx => h.doubles x ?_⟩
  rw [Json.doubles, doublesMembers_eq]
  exact List.mem_flatMap.2 ⟨e, he, hx⟩

end Over

/-! ## Numbers -/

theorem point_mem_positional (d : Decimal.Digits) : '.' ∈ Decimal.positional true d := by
  rw [Decimal.positional]
  split
  · simp
  · split <;> simp

theorem power_mem_scientific (d : Decimal.Digits) : 'e' ∈ Decimal.scientific d := by
  simp [Decimal.scientific]

/-- A double is written with a point or with a power of ten. -/
theorem mark_mem_doubleText (bits : UInt64) : '.' ∈ doubleText bits ∨ 'e' ∈ doubleText bits := by
  rw [doubleText, numberText, Decimal.write]
  split
  · exact .inl (by simp [doubleStyle])
  · simp only [List.mem_append]
    generalize hplaced : (doubleStyle.leastPositional ≤ (Decimal.shortest bits).exponent &&
      (Decimal.shortest bits).exponent ≤ doubleStyle.mostPositional : Bool) = placed
    cases placed with
    | true => exact .inl (.inr (point_mem_positional _))
    | false => exact .inr (.inr (power_mem_scientific _))

/-- The text of an integer is a sign and digits. -/
theorem mark_not_mem {n : Number} {i : Int} (h : n.int? = some i) :
    '.' ∉ numberText n ∧ 'e' ∉ numberText n := by
  have hdigits (m : Nat) : '.' ∉ Numeral.digits m ∧ 'e' ∉ Numeral.digits m :=
    ⟨fun hmem => absurd (Numeral.isDigit_of_mem_digits hmem) (by decide),
      fun hmem => absurd (Numeral.isDigit_of_mem_digits hmem) (by decide)⟩
  cases n with
  | natural n => exact hdigits n.toNat
  | negative n => simpa [numberText] using hdigits (n.val + 1)
  | double bits => cases h

theorem double_ne_int {bits : UInt64} {n : Number} {i : Int} (h : n.int? = some i) :
    numberText (.double bits) ≠ numberText n := by
  intro htext
  obtain ⟨hpoint, hpower⟩ := mark_not_mem h
  rcases mark_mem_doubleText bits with hmark | hmark
  · exact hpoint (htext ▸ hmark)
  · exact hpower (htext ▸ hmark)

theorem digits_inj {m n : Nat} (h : Numeral.digits m = Numeral.digits n) : m = n := by
  calc m = Numeral.value (Numeral.digits m) := (Numeral.value_digits m).symm
    _ = Numeral.value (Numeral.digits n) := by rw [h]
    _ = n := Numeral.value_digits n

theorem digits_ne_minus (m : Nat) (cs : List Char) : Numeral.digits m ≠ '-' :: cs := by
  intro h
  have hdigit : Numeral.isDigit '-' = true :=
    Numeral.isDigit_of_mem_digits (n := m) (h ▸ List.mem_cons_self)
  exact absurd hdigit (by decide)

/-- Numbers of one text are one number. -/
theorem numberText_inj {D : Set UInt64} (hprint : D.InjOn doubleText) {a b : Number}
    (ha : ∀ x, a = .double x → x ∈ D) (hb : ∀ x, b = .double x → x ∈ D)
    (h : numberText a = numberText b) : a = b := by
  cases a with
  | natural m =>
    cases b with
    | natural n => rw [UInt64.toNat_inj.1 (digits_inj h)]
    | negative n => exact absurd h (digits_ne_minus _ _)
    | double y => exact absurd h.symm (double_ne_int (i := m.toNat) rfl)
  | negative m =>
    cases b with
    | natural n => exact absurd h.symm (digits_ne_minus _ _)
    | negative n =>
      have hsucc := digits_inj (List.cons.inj h).2
      rw [Fin.ext (Nat.succ.inj hsucc)]
    | double y => exact absurd h.symm (double_ne_int (i := -(m.val : Int) - 1) rfl)
  | double x =>
    cases b with
    | natural n => exact absurd h (double_ne_int (i := n.toNat) rfl)
    | negative n => exact absurd h (double_ne_int (i := -(n.val : Int) - 1) rfl)
    | double y => rw [hprint (ha x rfl) (hb y rfl) h]

/-! ## Kinds -/

/-- What the first character of a text tells. -/
inductive Kind
  | null
  | bool (b : Bool)
  | number
  | string
  | array
  | object
  deriving DecidableEq

def kind : Json → Kind
  | .null | .beyond => .null
  | .bool b => .bool b
  | .number _ => .number
  | .string _ => .string
  | .array _ => .array
  | .object _ => .object

/-- The kind of a document whose text starts with a character. -/
def kindOf? (c : Char) : Option Kind :=
  if c = 'n' then some .null
  else if c = 't' then some (.bool true)
  else if c = 'f' then some (.bool false)
  else if c = '"' then some .string
  else if c = '[' then some .array
  else if c = '\x7b' then some .object
  else if c = '-' ∨ Numeral.isDigit c = true then some .number
  else none

theorem kindOf?_number {c : Char} (h : c = '-' ∨ Numeral.isDigit c = true) :
    kindOf? c = some .number := by
  obtain ⟨hn, ht, hf⟩ := isDigit_not_word h
  have hmark : c ≠ '"' ∧ c ≠ '[' ∧ c ≠ '\x7b' := by
    rcases h with rfl | h
    · decide
    · refine ⟨?_, ?_, ?_⟩ <;> intro heq <;> exact absurd (heq ▸ h) (by decide)
  obtain ⟨hquote, harray, hobject⟩ := hmark
  rw [kindOf?, if_neg hn, if_neg ht, if_neg hf, if_neg hquote, if_neg harray, if_neg hobject,
    if_pos h]

theorem compact_head (j : Json) :
    ∃ c tail, compact j = c :: tail ∧ kindOf? c = some j.kind := by
  cases j with
  | null | beyond => exact ⟨'n', _, rfl, rfl⟩
  | bool b => cases b <;> exact ⟨_, _, rfl, by decide⟩
  | string s => exact ⟨'"', _, rfl, rfl⟩
  | array l => cases l <;> exact ⟨'[', _, rfl, rfl⟩
  | object l => cases l <;> exact ⟨'\x7b', _, rfl, rfl⟩
  | number n =>
    obtain ⟨sp, hsp, htext⟩ := exists_spelling n
    obtain ⟨c, tail, hcons, hc⟩ := Spelling.text_head hsp []
    rw [List.append_nil, ← htext] at hcons
    exact ⟨c, tail, hcons, kindOf?_number hc⟩

variable {j j' : Json} {r r' : List Char}

theorem kind_eq_of_append (h : compact j ++ r = compact j' ++ r') : j.kind = j'.kind := by
  obtain ⟨c, tail, hcons, hc⟩ := compact_head j
  obtain ⟨c', tail', hcons', hc'⟩ := compact_head j'
  rw [hcons, hcons', List.cons_append, List.cons_append] at h
  rw [(List.cons.inj h).1, hc'] at hc
  exact (Option.some.inj hc).symm

/-- No text starts with the end of a container. -/
theorem compact_ne_closer {c : Char} (hc : kindOf? c = none) {cs : List Char} :
    compact j ++ r ≠ c :: cs := by
  obtain ⟨d, tail, hcons, hd⟩ := compact_head j
  intro h
  rw [hcons, List.cons_append] at h
  rw [(List.cons.inj h).1, hc] at hd
  cases hd

/-! ## Texts that nothing lengthens -/

/-- No other value over the doubles has this one's text, whatever follows. -/
def StandsOut (D : Set UInt64) (j : Json) : Prop :=
  ∀ {j' : Json} {r r' : List Char}, Over D j' → Ends r → Ends r' →
    compact j ++ r = compact j' ++ r' → j = j' ∧ r = r'

theorem stringText_append_inj {s s' : String}
    (h : stringText s ++ r = stringText s' ++ r') : s = s' ∧ r = r' := by
  have htail : s.toList.flatMap escape ++ '"' :: r = s'.toList.flatMap escape ++ '"' :: r' := by
    simpa [stringText] using h
  have hread := text?_escape s r
  rw [htail, text?_escape] at hread
  simpa [eq_comm] using hread

theorem ends_items (l : List Json) (r : List Char) : Ends (compactItems l ++ r) := by
  cases l with
  | nil => exact ends_closer (by decide) r
  | cons j l => exact ends_closer (by decide) _

theorem ends_members (l : List (String × Json)) (r : List Char) :
    Ends (compactMembers l ++ r) := by
  cases l with
  | nil =>
    intro c hc
    obtain rfl : '\x7d' = c := by simpa [compactMembers] using hc
    decide
  | cons e l => exact ends_closer (by decide) _

section

variable {D : Set UInt64}

theorem compactItems_append_inj {l : List Json} (hl : ∀ j ∈ l, StandsOut D j) :
    ∀ {l' : List Json} {r r' : List Char}, (∀ j ∈ l', Over D j) →
      compactItems l ++ r = compactItems l' ++ r' → l = l' ∧ r = r' := by
  induction l with
  | nil =>
    intro l' r r' _ h
    cases l' with
    | nil => exact ⟨rfl, by simpa [compactItems] using h⟩
    | cons j' l' => simp [compactItems] at h
  | cons j l ih =>
    intro l' r r' hl' h
    cases l' with
    | nil => simp [compactItems] at h
    | cons j' l' =>
      rw [List.forall_mem_cons] at hl hl'
      simp only [compactItems, List.cons_append, List.append_assoc, List.cons.injEq,
        true_and] at h
      obtain ⟨rfl, hrest⟩ := hl.1 hl'.1 (ends_items l r) (ends_items l' r') h
      obtain ⟨rfl, rfl⟩ := ih hl.2 hl'.2 hrest
      exact ⟨rfl, rfl⟩

theorem compactMembers_append_inj {l : List (String × Json)} (hl : ∀ e ∈ l, StandsOut D e.2) :
    ∀ {l' : List (String × Json)} {r r' : List Char}, (∀ e ∈ l', Over D e.2) →
      compactMembers l ++ r = compactMembers l' ++ r' → l = l' ∧ r = r' := by
  induction l with
  | nil =>
    intro l' r r' _ h
    cases l' with
    | nil => exact ⟨rfl, by simpa [compactMembers] using h⟩
    | cons e' l' => simp [compactMembers] at h
  | cons e l ih =>
    intro l' r r' hl' h
    cases l' with
    | nil => simp [compactMembers] at h
    | cons e' l' =>
      obtain ⟨k, j⟩ := e
      obtain ⟨k', j'⟩ := e'
      rw [List.forall_mem_cons] at hl hl'
      simp only [compactMembers, List.cons_append, List.append_assoc, List.cons.injEq,
        true_and] at h
      obtain ⟨rfl, hvalue⟩ := stringText_append_inj h
      obtain ⟨rfl, hrest⟩ := hl.1 hl'.1 (ends_members l r) (ends_members l' r')
        (List.cons.inj hvalue).2
      obtain ⟨rfl, rfl⟩ := ih hl.2 hl'.2 hrest
      exact ⟨rfl, rfl⟩

theorem standsOut_number (hprint : D.InjOn doubleText) {n : Number} (hn : Over D (.number n)) :
    StandsOut D (.number n) := by
  intro j' r r' hj' hr hr' h
  cases j' with
  | number n' =>
    obtain ⟨sp, hsp, htext⟩ := exists_spelling n
    obtain ⟨sp', hsp', htext'⟩ := exists_spelling n'
    have hread := Spelling.spelling?_text hsp hr
    have hread' := Spelling.spelling?_text hsp' hr'
    have hsame : sp.text ++ r = sp'.text ++ r' := by
      rw [← htext, ← htext']
      exact h
    rw [hsame, hread'] at hread
    obtain ⟨rfl, rfl⟩ := Prod.mk.inj (Option.some.inj hread)
    have hin {m : Number} (hm : Over D (.number m)) (x : UInt64) (heq : m = .double x) :
        x ∈ D := by
      subst heq
      exact hm.doubles x (List.mem_singleton.2 rfl)
    have hnumbers : n = n' :=
      numberText_inj hprint (hin hn) (hin hj') (htext.trans htext'.symm)
    exact ⟨by rw [hnumbers], rfl⟩
  | null | bool | string | array | object | beyond => cases kind_eq_of_append h

theorem standsOut_array {l : List Json} (hl : ∀ j ∈ l, StandsOut D j) :
    StandsOut D (.array l) := by
  intro j' r r' hj' hr hr' h
  cases j' with
  | array l' =>
    have hitems := hj'.item
    cases l with
    | nil =>
      cases l' with
      | nil => exact ⟨rfl, by simpa [compact] using h⟩
      | cons i' l' =>
        simp only [compact, List.cons_append, List.append_assoc, List.cons.injEq, true_and,
          List.nil_append] at h
        exact absurd h.symm (compact_ne_closer (by decide))
    | cons i l =>
      cases l' with
      | nil =>
        simp only [compact, List.cons_append, List.append_assoc, List.cons.injEq, true_and,
          List.nil_append] at h
        exact absurd h (compact_ne_closer (by decide))
      | cons i' l' =>
        -- the first item has no comma before it, and the others are as many steps alike
        have hall : compactItems (i :: l) ++ r = compactItems (i' :: l') ++ r' := by
          simpa [compact, compactItems] using h
        obtain ⟨heq, rfl⟩ := compactItems_append_inj hl hitems hall
        exact ⟨by rw [heq], rfl⟩
  | null | bool | string | number | object | beyond => cases kind_eq_of_append h

/-- Objects whose values stand out have the same members, in whatever order they are written. -/
theorem object_append_inj {l l' : List (String × Json)} (hl : ∀ e ∈ l, StandsOut D e.2)
    (hl' : ∀ e ∈ l', Over D e.2) (h : compact (.object l) ++ r = compact (.object l') ++ r') :
    l = l' ∧ r = r' := by
  cases l with
  | nil =>
    cases l' with
    | nil => exact ⟨rfl, by simpa [compact] using h⟩
    | cons e' l' => simp [compact, stringText] at h
  | cons e l =>
    cases l' with
    | nil => simp [compact, stringText] at h
    | cons e' l' =>
      -- the first member has no comma before it, and the others are as many steps alike
      have hall : compactMembers (e :: l) ++ r = compactMembers (e' :: l') ++ r' := by
        simpa [compact, compactMembers] using h
      exact compactMembers_append_inj hl hl' hall

theorem standsOut_object {l : List (String × Json)} (hl : ∀ e ∈ l, StandsOut D e.2) :
    StandsOut D (.object l) := by
  intro j' r r' hj' hr hr' h
  cases j' with
  | object l' =>
    obtain ⟨rfl, rfl⟩ := object_append_inj hl hj'.member h
    exact ⟨rfl, rfl⟩
  | null | bool | string | number | array | beyond => cases kind_eq_of_append h

/-- **No text of a value is the start of another one's**, if doubles are written apart. -/
theorem compact_append_inj (hprint : D.InjOn doubleText) (hj : Over D j) : StandsOut D j := by
  induction j using induct with
  | number n => exact standsOut_number hprint hj
  | array l ih => exact standsOut_array fun i hi => ih i hi (hj.item i hi)
  | object l ih => exact standsOut_object fun e he => ih e he (hj.member e he)
  | beyond => exact absurd hj.normal not_normal_beyond
  | null =>
    intro j' r r' hj' hr hr' h
    cases j' with
    | null => exact ⟨rfl, by simpa [compact] using h⟩
    | beyond => exact absurd hj'.normal not_normal_beyond
    | bool | number | string | array | object => cases kind_eq_of_append h
  | bool b =>
    intro j' r r' hj' hr hr' h
    cases j' with
    | bool b' =>
      obtain rfl : b = b' := by simpa [kind] using kind_eq_of_append h
      exact ⟨rfl, by simpa using h⟩
    | null | number | string | array | object | beyond => cases kind_eq_of_append h
  | string s =>
    intro j' r r' hj' hr hr' h
    cases j' with
    | string s' =>
      have htext : stringText s ++ r = stringText s' ++ r' := h
      obtain ⟨rfl, rfl⟩ := stringText_append_inj htext
      exact ⟨rfl, rfl⟩
    | null | bool | number | array | object | beyond => cases kind_eq_of_append h

/-- Objects of one text have the same members, in whatever order they are written. -/
theorem members_inj {l l' : List (String × Json)} (hprint : D.InjOn doubleText)
    (hl : ∀ e ∈ l, Over D e.2) (hl' : ∀ e ∈ l', Over D e.2)
    (h : (Json.object l).compactText = (Json.object l').compactText) : l = l' := by
  have htext : compact (.object l) ++ [] = compact (.object l') ++ [] := by
    rw [List.append_nil, List.append_nil]
    exact String.ofList_injective h
  exact (object_append_inj (fun e he => compact_append_inj hprint (hl e he)) hl' htext).1

/-- Values of one text are one value. -/
theorem compactText_inj (hprint : D.InjOn doubleText) (hj : Over D j) (hj' : Over D j')
    (h : j.compactText = j'.compactText) : j = j' := by
  have htext : compact j ++ [] = compact j' ++ [] := by
    rw [List.append_nil, List.append_nil]
    exact String.ofList_injective h
  exact (compact_append_inj hprint hj hj' ends_nil ends_nil htext).1

end

end Json

end AnalysisGate
