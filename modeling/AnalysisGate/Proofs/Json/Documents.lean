import AnalysisGate.Proofs.Json.Quoting
import AnalysisGate.Proofs.Json.Spelling
import Mathlib

/-!
Documents as text.

Every text that is written for a document, with or without white space, is read as one document:
`reread` is the one (`read?_write`). It differs from what was written only where a number is
spelled back as another, where a part stands for no value, and where containers nest too deep.
-/
namespace AnalysisGate.Json

/-! ## Induction -/

/-- Induction on a document: what holds of all items or members holds of their container. -/
@[elab_as_elim]
theorem induct {P : Json → Prop} (null : P .null) (bool : ∀ b, P (.bool b))
    (number : ∀ n, P (.number n)) (string : ∀ s, P (.string s))
    (array : ∀ l : List Json, (∀ j ∈ l, P j) → P (.array l))
    (object : ∀ l : List (String × Json), (∀ e ∈ l, P e.2) → P (.object l))
    (beyond : P .beyond) (j : Json) : P j :=
  @Json.rec P (fun l => ∀ j ∈ l, P j) (fun l => ∀ e ∈ l, P e.2) (fun e => P e.2)
    null bool number string array object beyond
    (by simp) (fun _ _ hj hl => List.forall_mem_cons.2 ⟨hj, hl⟩)
    (by simp) (fun _ _ he hl => List.forall_mem_cons.2 ⟨he, hl⟩) (fun _ _ h => h) j

/-! ## Layouts -/

/-- The white space of a text: what stands before an item at a depth, and after a colon. -/
structure Layout where
  gap : Nat → List Char
  colon : List Char

namespace Layout

def pretty : Layout := ⟨newline, [' ']⟩

def compact : Layout := ⟨fun _ => [], []⟩

/-- There is white space only. -/
structure Blank (s : Layout) : Prop where
  gap : ∀ d, ∀ c ∈ s.gap d, isSpace c = true
  colon : ∀ c ∈ s.colon, isSpace c = true

theorem blank_pretty : pretty.Blank where
  gap d c hc := by
    simp only [pretty, newline, List.mem_cons, List.mem_replicate] at hc
    rcases hc with rfl | ⟨-, rfl⟩ <;> rfl
  colon c hc := by
    obtain rfl : c = ' ' := by simpa [pretty] using hc
    rfl

theorem blank_compact : compact.Blank := ⟨by simp [compact], by simp [compact]⟩

end Layout

mutual

/-- The text of a document for a container at a depth. -/
def write (s : Layout) (depth : Nat) : Json → List Char
  | .array [] => ['[', ']']
  | .array (j :: rest) =>
    '[' :: (s.gap (depth + 1) ++ write s (depth + 1) j ++ writeItems s depth rest)
  | .object [] => ['\x7b', '\x7d']
  | .object ((k, j) :: rest) =>
    '\x7b' :: (s.gap (depth + 1) ++ stringText k ++ ':' :: s.colon ++ write s (depth + 1) j ++
      writeMembers s depth rest)
  | .null => ['n', 'u', 'l', 'l']
  | .bool true => ['t', 'r', 'u', 'e']
  | .bool false => ['f', 'a', 'l', 's', 'e']
  | .number n => numberText n
  | .string t => stringText t
  | .beyond => ['n', 'u', 'l', 'l']

/-- The items after the first, and the end of the array. -/
def writeItems (s : Layout) (depth : Nat) : List Json → List Char
  | [] => s.gap depth ++ [']']
  | j :: rest =>
    ',' :: (s.gap (depth + 1) ++ write s (depth + 1) j ++ writeItems s depth rest)

/-- The members after the first, and the end of the object. -/
def writeMembers (s : Layout) (depth : Nat) : List (String × Json) → List Char
  | [] => s.gap depth ++ ['\x7d']
  | (k, j) :: rest =>
    ',' :: (s.gap (depth + 1) ++ stringText k ++ ':' :: s.colon ++ write s (depth + 1) j ++
      writeMembers s depth rest)

end

theorem prettyItems_eq {l : List Json}
    (h : ∀ j ∈ l, ∀ depth, prettyAt depth j = write .pretty depth j) (depth : Nat) :
    prettyItems depth l = writeItems .pretty depth l := by
  induction l with
  | nil => rfl
  | cons j l ih =>
    rw [List.forall_mem_cons] at h
    simp [prettyItems, writeItems, h.1, ih h.2, Layout.pretty]

theorem prettyMembers_eq {l : List (String × Json)}
    (h : ∀ e ∈ l, ∀ depth, prettyAt depth e.2 = write .pretty depth e.2) (depth : Nat) :
    prettyMembers depth l = writeMembers .pretty depth l := by
  induction l with
  | nil => rfl
  | cons e l ih =>
    rw [List.forall_mem_cons] at h
    simp [prettyMembers, writeMembers, h.1, ih h.2, Layout.pretty]

theorem prettyAt_eq (j : Json) : ∀ depth, prettyAt depth j = write .pretty depth j := by
  induction j using induct with
  | null | number n | string s | beyond => intro depth; rfl
  | bool b => intro depth; cases b <;> rfl
  | array l ih =>
    intro depth
    cases l with
    | nil => rfl
    | cons j l =>
      rw [List.forall_mem_cons] at ih
      simp [prettyAt, write, ih.1, prettyItems_eq ih.2, Layout.pretty]
  | object l ih =>
    intro depth
    cases l with
    | nil => rfl
    | cons e l =>
      rw [List.forall_mem_cons] at ih
      simp [prettyAt, write, ih.1, prettyMembers_eq ih.2, Layout.pretty]

theorem compactItems_eq {l : List Json}
    (h : ∀ j ∈ l, ∀ depth, compact j = write .compact depth j) (depth : Nat) :
    compactItems l = writeItems .compact depth l := by
  induction l with
  | nil => rfl
  | cons j l ih =>
    rw [List.forall_mem_cons] at h
    simp [compactItems, writeItems, h.1 (depth + 1), ih h.2, Layout.compact]

theorem compactMembers_eq {l : List (String × Json)}
    (h : ∀ e ∈ l, ∀ depth, compact e.2 = write .compact depth e.2) (depth : Nat) :
    compactMembers l = writeMembers .compact depth l := by
  induction l with
  | nil => rfl
  | cons e l ih =>
    rw [List.forall_mem_cons] at h
    simp [compactMembers, writeMembers, h.1 (depth + 1), ih h.2, Layout.compact]

theorem compact_eq (j : Json) : ∀ depth, compact j = write .compact depth j := by
  induction j using induct with
  | null | number n | string s | beyond => intro depth; rfl
  | bool b => intro depth; cases b <;> rfl
  | array l ih =>
    intro depth
    cases l with
    | nil => rfl
    | cons j l =>
      rw [List.forall_mem_cons] at ih
      simp [compact, write, ih.1 (depth + 1), compactItems_eq ih.2 depth, Layout.compact]
  | object l ih =>
    intro depth
    cases l with
    | nil => rfl
    | cons e l =>
      rw [List.forall_mem_cons] at ih
      simp [compact, write, ih.1 (depth + 1), compactMembers_eq ih.2 depth, Layout.compact]

theorem toList_prettyText (j : Json) : j.prettyText.toList = write .pretty 0 j := by
  rw [prettyText, String.toList_ofList, prettyAt_eq]

theorem toList_compactText (j : Json) : j.compactText.toList = write .compact 0 j := by
  rw [compactText, String.toList_ofList, compact_eq]

/-! ## What is read back -/

mutual

/-- What the text of a document is read back as, for a container at a depth. -/
def reread (depth : Nat) : Json → Json
  | .array l => nested depth (.array (rereadItems (depth + 1) l))
  | .object l => nested depth (.object (rereadMembers (depth + 1) l))
  | .number n => rereadNumber n
  | .null => .null
  | .bool b => .bool b
  | .string s => .string s
  | .beyond => .null

def rereadItems (depth : Nat) : List Json → List Json
  | [] => []
  | j :: rest => reread depth j :: rereadItems depth rest

def rereadMembers (depth : Nat) : List (String × Json) → List (String × Json)
  | [] => []
  | (k, j) :: rest => (k, reread depth j) :: rereadMembers depth rest

end

theorem rereadItems_eq (depth : Nat) (l : List Json) :
    rereadItems depth l = l.map (reread depth) := by
  induction l with
  | nil => rfl
  | cons j l ih => rw [rereadItems, ih, List.map_cons]

theorem rereadMembers_eq (depth : Nat) (l : List (String × Json)) :
    rereadMembers depth l = l.map fun e => (e.1, reread depth e.2) := by
  induction l with
  | nil => rfl
  | cons e l ih => rw [rereadMembers, ih, List.map_cons]

/-! ## White space -/

theorem skip_append {lead : List Char} (h : ∀ c ∈ lead, isSpace c = true) (cs : List Char) :
    skip (lead ++ cs) = skip cs :=
  List.dropWhile_append_of_pos h

theorem skip_cons {c : Char} (h : isSpace c = false) (cs : List Char) : skip (c :: cs) = c :: cs :=
  List.dropWhile_cons_of_neg (by simp [h])

/-- White space and what separates or closes items cannot lengthen a numeral. -/
theorem ends_append {lead : List Char} (h : ∀ c ∈ lead, isSpace c = true) {rest : List Char}
    (hrest : Ends rest) : Ends (lead ++ rest) := by
  cases lead with
  | nil => exact hrest
  | cons c lead =>
    intro x hx
    obtain rfl : c = x := by simpa using hx
    have hspace := h c (List.mem_cons_self ..)
    simp only [isSpace, Bool.or_eq_true, beq_iff_eq] at hspace
    rcases hspace with ((rfl | rfl) | rfl) | rfl <;> decide

/-- The characters that a scalar other than a text can start with. -/
def OpensScalar (c : Char) : Prop := c ∈ ['n', 't', 'f', '-'] ∨ Numeral.isDigit c = true

theorem OpensScalar.not_mark {c : Char} (h : OpensScalar c) :
    isSpace c = false ∧ c ∉ ['"', '[', ']', '\x7b', '\x7d'] := by
  rcases h with h | h
  · simp only [List.mem_cons, List.not_mem_nil, or_false] at h
    rcases h with rfl | rfl | rfl | rfl <;> decide
  · refine ⟨?_, fun hmark => ?_⟩
    · by_contra hspace
      simp only [isSpace, Bool.not_eq_false, Bool.or_eq_true, beq_iff_eq] at hspace
      rcases hspace with ((rfl | rfl) | rfl) | rfl <;> exact absurd h (by decide)
    · simp only [List.mem_cons, List.not_mem_nil, or_false] at hmark
      rcases hmark with rfl | rfl | rfl | rfl | rfl <;> exact absurd h (by decide)

theorem numberText_head (n : Number) : ∃ c tail, numberText n = c :: tail ∧ OpensScalar c := by
  obtain ⟨sp, hsp, htext⟩ := exists_spelling n
  obtain ⟨c, tail, hcons, hc⟩ := Spelling.text_head hsp []
  rw [List.append_nil] at hcons
  refine ⟨c, tail, htext.trans hcons, ?_⟩
  rcases hc with rfl | hc
  · exact .inl (by decide)
  · exact .inr hc

/-- A document starts neither with white space nor with the end of a container. -/
theorem write_head (s : Layout) (depth : Nat) (j : Json) :
    ∃ c tail, write s depth j = c :: tail ∧ isSpace c = false ∧ c ∉ [']', '\x7d'] := by
  cases j with
  | null | beyond => exact ⟨'n', _, rfl, by decide⟩
  | bool b => cases b <;> exact ⟨_, _, rfl, by decide⟩
  | string t => exact ⟨'"', _, rfl, by decide⟩
  | array l => cases l <;> exact ⟨'[', _, rfl, by decide⟩
  | object l => cases l <;> exact ⟨'\x7b', _, rfl, by decide⟩
  | number n =>
    obtain ⟨c, tail, hcons, hc⟩ := numberText_head n
    obtain ⟨hspace, hmark⟩ := hc.not_mark
    refine ⟨c, tail, hcons, hspace, fun h => hmark ?_⟩
    simp only [List.mem_cons, List.not_mem_nil, or_false] at h ⊢
    rcases h with rfl | rfl <;> simp

theorem write_length_pos (s : Layout) (depth : Nat) (j : Json) : 0 < (write s depth j).length := by
  obtain ⟨c, tail, hcons, -⟩ := write_head s depth j
  simp [hcons]

/-! ## Reading back -/

section ReadBack

variable {s : Layout}

/-- The text of a document is read back at every depth, whatever white space comes before it and
whatever follows that cannot lengthen it. -/
def ReadsBack (s : Layout) (j : Json) : Prop :=
  ∀ {fuel depth d : Nat} {lead rest : List Char}, (∀ c ∈ lead, isSpace c = true) →
    (write s d j).length ≤ fuel → Ends rest →
      document? fuel depth (lead ++ (write s d j ++ rest)) = some (reread depth j, rest)

theorem ends_closer {c : Char} (h : c ∈ [',', ']', '\x7d']) (rest : List Char) :
    Ends (c :: rest) := by
  intro x hx
  obtain rfl : c = x := by simpa using hx
  simp only [List.mem_cons, List.not_mem_nil, or_false] at h
  rcases h with rfl | rfl | rfl <;> decide

theorem items?_writeItems (hs : s.Blank) {depth d : Nat} {rest : List Char} {l : List Json} :
    ∀ {j : Json} (fuel : Nat) {lead : List Char}, (∀ c ∈ lead, isSpace c = true) →
      ReadsBack s j → (∀ j ∈ l, ReadsBack s j) →
        (write s (d + 1) j).length + (writeItems s d l).length ≤ fuel →
          items? fuel depth (lead ++ (write s (d + 1) j ++ (writeItems s d l ++ rest))) =
            some (reread depth j :: l.map (reread depth), rest) := by
  induction l with
  | nil =>
    intro j fuel lead hlead hj _ hfuel
    simp only [writeItems, List.length_append, List.length_cons, List.length_nil] at hfuel
    obtain ⟨fuel, rfl⟩ : ∃ n, fuel = n + 1 := ⟨fuel - 1, by omega⟩
    have hclose : Ends (writeItems s d [] ++ rest) := by
      simp only [writeItems, List.append_assoc, List.singleton_append]
      exact ends_append (hs.gap d) (ends_closer (by decide) rest)
    rw [items?, hj hlead (by omega) hclose]
    simp [writeItems, skip_append (hs.gap d), skip_cons (c := ']') (by decide)]
  | cons j' l ih =>
    intro j fuel lead hlead hj hl hfuel
    rw [List.forall_mem_cons] at hl
    simp only [writeItems, List.length_append, List.length_cons] at hfuel
    obtain ⟨fuel, rfl⟩ : ∃ n, fuel = n + 1 := ⟨fuel - 1, by omega⟩
    have hnext := ih fuel (hs.gap (d + 1)) hl.1 hl.2 (by omega)
    rw [items?, writeItems, List.cons_append,
      hj hlead (by omega) (ends_closer (by decide) _)]
    simp [skip_cons (c := ',') (by decide), hnext]

/-- A member is read up to the comma after its value. -/
theorem members?_comma {fuel depth : Nat} {lead tail r r' : List Char} {k : String} {j : Json}
    (hlead : ∀ c ∈ lead, isSpace c = true) (hvalue : document? fuel depth tail = some (j, r))
    (hr : skip r = ',' :: r') :
    members? (fuel + 1) depth (lead ++ (stringText k ++ ':' :: tail)) =
      (members? fuel depth r').map fun (l, rest) => (do return (k, j) :: (← l), rest) := by
  simp [members?, stringText, skip_append hlead, skip_cons (c := '"') (by decide), text?_escape,
    skip_cons (c := ':') (by decide), hvalue, hr]

/-- The last member is read up to the end of its object. -/
theorem members?_close {fuel depth : Nat} {lead tail r rest : List Char} {k : String} {j : Json}
    (hlead : ∀ c ∈ lead, isSpace c = true) (hvalue : document? fuel depth tail = some (j, r))
    (hr : skip r = '\x7d' :: rest) :
    members? (fuel + 1) depth (lead ++ (stringText k ++ ':' :: tail)) =
      some (some [(k, j)], rest) := by
  simp [members?, stringText, skip_append hlead, skip_cons (c := '"') (by decide), text?_escape,
    skip_cons (c := ':') (by decide), hvalue, hr]

theorem members?_writeMembers (hs : s.Blank) {depth d : Nat} {rest : List Char}
    {l : List (String × Json)} :
    ∀ {e : String × Json} (fuel : Nat) {lead : List Char}, (∀ c ∈ lead, isSpace c = true) →
      ReadsBack s e.2 → (∀ e ∈ l, ReadsBack s e.2) →
        (write s (d + 1) e.2).length + (writeMembers s d l).length ≤ fuel →
          members? fuel depth (lead ++ (stringText e.1 ++ (':' :: (s.colon ++
              (write s (d + 1) e.2 ++ (writeMembers s d l ++ rest)))))) =
            some (some ((e.1, reread depth e.2) :: l.map fun e => (e.1, reread depth e.2)),
              rest) := by
  -- each member takes one unit of fuel, and there are no more of them than characters
  induction l with
  | nil =>
    intro e fuel lead hlead he _ hfuel
    simp only [writeMembers, List.length_append, List.length_cons, List.length_nil] at hfuel
    obtain ⟨fuel, rfl⟩ : ∃ n, fuel = n + 1 := ⟨fuel - 1, by omega⟩
    have hclose : Ends (writeMembers s d [] ++ rest) := by
      simp only [writeMembers, List.append_assoc, List.singleton_append]
      exact ends_append (hs.gap d) (ends_closer (by decide) rest)
    have hend : skip (writeMembers s d [] ++ rest) = '\x7d' :: rest := by
      simp [writeMembers, skip_append (hs.gap d), skip_cons (c := '\x7d') (by decide)]
    exact members?_close hlead (he hs.colon (by omega) hclose) hend
  | cons e' l ih =>
    intro e fuel lead hlead he hl hfuel
    rw [List.forall_mem_cons] at hl
    simp only [writeMembers, List.length_append, List.length_cons] at hfuel
    obtain ⟨fuel, rfl⟩ : ∃ n, fuel = n + 1 := ⟨fuel - 1, by omega⟩
    have hnext := ih fuel (hs.gap (d + 1)) hl.1 hl.2 (by omega)
    rw [writeMembers, List.cons_append,
      members?_comma hlead (he hs.colon (by omega) (ends_closer (c := ',') (by decide) _))
        (skip_cons (by decide) _)]
    simp [hnext]

theorem readsBack_scalar {j : Json}
    (hopen : ∀ d, ∃ c tail, write s d j = c :: tail ∧ OpensScalar c)
    (hscalar : ∀ d depth {rest}, Ends rest →
      scalar? (write s d j ++ rest) = some (reread depth j, rest)) : ReadsBack s j := by
  intro fuel depth d lead rest hlead hfuel hrest
  have hpos := write_length_pos s d j
  obtain ⟨fuel, rfl⟩ : ∃ n, fuel = n + 1 := ⟨fuel - 1, by omega⟩
  obtain ⟨c, tail, hcons, hc⟩ := hopen d
  obtain ⟨hspace, hmark⟩ := hc.not_mark
  have hread := hscalar d depth hrest
  rw [hcons, List.cons_append] at hread ⊢
  rw [document?, skip_append hlead, skip_cons hspace]
  split
  · next heq => exact absurd (by simp [(List.cons.inj heq).1]) hmark
  · next heq => exact absurd (by simp [(List.cons.inj heq).1]) hmark
  · next heq => exact absurd (by simp [(List.cons.inj heq).1]) hmark
  · exact hread

theorem document?_items {fuel depth : Nat} {lead r : List Char}
    (hlead : ∀ c ∈ lead, isSpace c = true) {c : Char} {tail : List Char} (hr : skip r = c :: tail)
    (hc : c ≠ ']') :
    document? (fuel + 1) depth (lead ++ '[' :: r) =
      (items? fuel (depth + 1) (skip r)).map fun (l, rest) => (nested depth (.array l), rest) := by
  rw [document?, skip_append hlead, skip_cons (by decide)]
  simp only [hr]
  split
  · next heq => exact absurd (List.cons.inj heq).1 hc
  · rfl

theorem document?_members {fuel depth : Nat} {lead r : List Char}
    (hlead : ∀ c ∈ lead, isSpace c = true) {c : Char} {tail : List Char} (hr : skip r = c :: tail)
    (hc : c ≠ '\x7d') :
    document? (fuel + 1) depth (lead ++ '\x7b' :: r) =
      (members? fuel (depth + 1) (skip r)).map fun (l, rest) =>
        (match l with
          | some l => nested depth (.object l)
          | none => .beyond, rest) := by
  rw [document?, skip_append hlead, skip_cons (by decide)]
  simp only [hr]
  split
  · next heq => exact absurd (List.cons.inj heq).1 hc
  · rfl

theorem readsBack_array (hs : s.Blank) {l : List Json} (h : ∀ j ∈ l, ReadsBack s j) :
    ReadsBack s (.array l) := by
  intro fuel depth d lead rest hlead hfuel hrest
  cases l with
  | nil =>
    obtain ⟨fuel, rfl⟩ : ∃ n, fuel = n + 1 := ⟨fuel - 1, by simp [write] at hfuel; omega⟩
    simp [write, document?, skip_append hlead, skip_cons (c := '[') (by decide),
      skip_cons (c := ']') (by decide), reread, rereadItems]
  | cons j l =>
    rw [List.forall_mem_cons] at h
    simp only [write, List.length_append, List.length_cons] at hfuel
    obtain ⟨fuel, rfl⟩ : ∃ n, fuel = n + 1 := ⟨fuel - 1, by omega⟩
    obtain ⟨c, tail, hhead, hspace, hc⟩ := write_head s (d + 1) j
    have hitems : items? fuel (depth + 1)
        ([] ++ (write s (d + 1) j ++ (writeItems s d l ++ rest))) =
          some (reread (depth + 1) j :: l.map (reread (depth + 1)), rest) :=
      items?_writeItems hs fuel (by simp) h.1 h.2 (by omega)
    have hskip : skip (s.gap (d + 1) ++ write s (d + 1) j ++ writeItems s d l ++ rest) =
        write s (d + 1) j ++ (writeItems s d l ++ rest) := by
      simp only [List.append_assoc, skip_append (hs.gap _), hhead, List.cons_append,
        skip_cons hspace]
    have hfirst : skip (s.gap (d + 1) ++ write s (d + 1) j ++ writeItems s d l ++ rest) =
        c :: (tail ++ (writeItems s d l ++ rest)) := by
      rw [hskip, hhead, List.cons_append]
    rw [write, List.cons_append, document?_items hlead hfirst (by rintro rfl; simp at hc), hskip]
    rw [List.nil_append] at hitems
    rw [hitems, reread, rereadItems_eq]
    rfl

theorem readsBack_object (hs : s.Blank) {l : List (String × Json)} (h : ∀ e ∈ l, ReadsBack s e.2) :
    ReadsBack s (.object l) := by
  intro fuel depth d lead rest hlead hfuel hrest
  cases l with
  | nil =>
    obtain ⟨fuel, rfl⟩ : ∃ n, fuel = n + 1 := ⟨fuel - 1, by simp [write] at hfuel; omega⟩
    simp [write, document?, skip_append hlead, skip_cons (c := '\x7b') (by decide),
      skip_cons (c := '\x7d') (by decide), reread, rereadMembers]
  | cons e l =>
    rw [List.forall_mem_cons] at h
    simp only [write, List.length_append, List.length_cons] at hfuel
    obtain ⟨fuel, rfl⟩ : ∃ n, fuel = n + 1 := ⟨fuel - 1, by omega⟩
    have hmembers : members? fuel (depth + 1) ([] ++ (stringText e.1 ++ ':' :: (s.colon ++
        (write s (d + 1) e.2 ++ (writeMembers s d l ++ rest))))) = some (some
          ((e.1, reread (depth + 1) e.2) :: l.map fun e => (e.1, reread (depth + 1) e.2)), rest) :=
      members?_writeMembers hs fuel (by simp) h.1 h.2 (by omega)
    rw [List.nil_append] at hmembers
    have hskip : skip (s.gap (d + 1) ++ stringText e.1 ++ ':' :: s.colon ++
        write s (d + 1) e.2 ++ writeMembers s d l ++ rest) =
        stringText e.1 ++ ':' :: (s.colon ++ (write s (d + 1) e.2 ++
          (writeMembers s d l ++ rest))) := by
      simp only [List.append_assoc, skip_append (hs.gap _), stringText, List.cons_append,
        skip_cons (c := '"') (by decide)]
    rw [write, List.cons_append, document?_members hlead (hskip.trans rfl) (by decide), hskip,
      hmembers, reread, rereadMembers_eq]
    rfl

/-- **The text of every document is read back**, in every layout. -/
theorem readsBack (hs : s.Blank) (j : Json) : ReadsBack s j := by
  induction j using induct with
  | array l ih => exact readsBack_array hs ih
  | object l ih => exact readsBack_object hs ih
  | null | beyond =>
    exact readsBack_scalar (fun _ => ⟨'n', _, rfl, .inl (by decide)⟩) fun _ _ _ _ => rfl
  | bool b =>
    refine readsBack_scalar (fun _ => ?_) fun _ _ _ _ => ?_
    · cases b <;> exact ⟨_, _, rfl, .inl (by decide)⟩
    · cases b <;> rfl
  | number n =>
    refine readsBack_scalar (j := .number n) (fun _ => numberText_head n)
      fun _ depth _ hrest => ?_
    rw [write, scalar?_numberText n hrest, reread]
  | string t =>
    intro fuel depth d lead rest hlead hfuel hrest
    have hpos := write_length_pos s d (.string t)
    obtain ⟨fuel, rfl⟩ : ∃ n, fuel = n + 1 := ⟨fuel - 1, by omega⟩
    simp [write, document?, stringText, skip_append hlead, skip_cons (c := '"') (by decide),
      text?_escape, reread]

theorem read?_write (hs : s.Blank) (j : Json) {rest : List Char}
    (hrest : ∀ c ∈ rest, isSpace c = true) :
    read? (write s 0 j ++ rest) = some (reread 1 j) := by
  have hends : Ends rest := by simpa using ends_append hrest ends_nil
  have hall : document? (2 * (write s 0 j ++ rest).length + 2) 1 ([] ++ (write s 0 j ++ rest)) =
      some (reread 1 j, rest) := readsBack hs j (by simp) (by simp; omega) hends
  have hskip : skip rest = [] := by simpa [skip] using hrest
  rw [List.nil_append] at hall
  rw [read?, hall]
  simp [hskip]

end ReadBack

end AnalysisGate.Json
