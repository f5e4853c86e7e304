import AnalysisGate.Json.Fault
import Mathlib

/-!
How a document is read, step by step.

A document is a list, an object or a part that is no container (`document?_succ`). A list is read
item by item and an object member by member, each with what is left after it (`items?_succ`,
`members?_succ`), so what is said of reading a part, and then of reading what is left, is said of
the whole.
-/
namespace AnalysisGate.Json

variable {fuel depth : Nat} {cs r rest : List Char}

theorem skip_skip (cs : List Char) : skip (skip cs) = skip cs := by
  rw [skip, skip, List.dropWhile_idempotent]

/-! ## Parts that are no containers -/

/-- A scalar is no container. -/
theorem scalar?_cases {j : Json} (h : scalar? cs = some (j, rest)) :
    j = .null ∨ (∃ b, j = .bool b) ∨ (∃ n, j = .number n) ∨ j = .beyond := by
  rw [scalar?] at h
  split at h
  · cases h
    exact .inl rfl
  · split at h
    · cases h
      exact .inr (.inl ⟨true, rfl⟩)
    · split at h
      · cases h
        exact .inr (.inl ⟨false, rfl⟩)
      · obtain ⟨⟨n, rest'⟩, -, heq⟩ := Option.map_eq_some_iff.1 h
        obtain ⟨rfl, -⟩ := Prod.mk.inj heq
        cases n.number? with
        | some x => exact .inr (.inr (.inl ⟨x, rfl⟩))
        | none => exact .inr (.inr (.inr rfl))

theorem scalarPart?_of_ne (h : ∀ r, cs ≠ '"' :: r) : scalarPart? cs = scalar? cs := by
  rw [scalarPart?]
  exact h

theorem scalarPart?_cases {j : Json} (h : scalarPart? cs = some (j, rest)) :
    j = .null ∨ (∃ b, j = .bool b) ∨ (∃ n, j = .number n) ∨ (∃ t, j = .string t) ∨
      j = .beyond := by
  unfold scalarPart? at h
  split at h
  · obtain ⟨⟨t, rest'⟩, -, heq⟩ := Option.map_eq_some_iff.1 h
    obtain ⟨rfl, -⟩ := Prod.mk.inj heq
    cases t with
    | some t => exact .inr (.inr (.inr (.inl ⟨t, rfl⟩)))
    | none => exact .inr (.inr (.inr (.inr rfl)))
  · rcases scalar?_cases h with hnull | hbool | hnumber | hbeyond
    · exact .inl hnull
    · exact .inr (.inl hbool)
    · exact .inr (.inr (.inl hnumber))
    · exact .inr (.inr (.inr (.inr hbeyond)))

/-! ## Containers -/

/-- What a list holds after its opening bracket, and what follows it. -/
def inList? (fuel depth : Nat) (cs : List Char) : Option (List Json × List Char) :=
  match skip cs with
  | ']' :: rest => some ([], rest)
  | r => items? fuel depth r

theorem inList?_close (h : skip cs = ']' :: rest) : inList? fuel depth cs = some ([], rest) := by
  simp only [inList?, h]

theorem inList?_item (h : ∀ rest, skip cs ≠ ']' :: rest) :
    inList? fuel depth cs = items? fuel depth (skip cs) := by
  rw [inList?]
  split
  · next rest hskip => exact absurd hskip (h rest)
  · rfl

/-- What an object holds after its opening brace, and what follows it. -/
def inObject? (fuel depth : Nat) (cs : List Char) :
    Option (Option (List (String × Json)) × List Char) :=
  match skip cs with
  | '\x7d' :: rest => some (some [], rest)
  | r => members? fuel depth r

theorem inObject?_close (h : skip cs = '\x7d' :: rest) :
    inObject? fuel depth cs = some (some [], rest) := by
  simp only [inObject?, h]

theorem inObject?_member (h : ∀ rest, skip cs ≠ '\x7d' :: rest) :
    inObject? fuel depth cs = members? fuel depth (skip cs) := by
  rw [inObject?]
  split
  · next rest hskip => exact absurd hskip (h rest)
  · rfl

/-- An object at a depth. It stands for no value where a key is no text. -/
def nestedObject (depth : Nat) : Option (List (String × Json)) → Json
  | some l => nested depth (.object l)
  | none => .beyond

theorem document?_list (h : skip cs = '[' :: r) :
    document? (fuel + 1) depth cs =
      (inList? fuel (depth + 1) r).map fun p => (nested depth (.array p.1), p.2) := by
  rw [document?, h]
  simp only
  split
  · next rest hskip => rw [inList?_close hskip]; rfl
  · next hclose => rw [inList?_item hclose]

theorem document?_object (h : skip cs = '\x7b' :: r) :
    document? (fuel + 1) depth cs =
      (inObject? fuel (depth + 1) r).map fun p => (nestedObject depth p.1, p.2) := by
  rw [document?, h]
  simp only
  split
  · next rest hskip => rw [inObject?_close hskip]; rfl
  · next hclose => rw [inObject?_member hclose]; rfl

theorem document?_scalar (hlist : ∀ r, skip cs ≠ '[' :: r) (hobject : ∀ r, skip cs ≠ '\x7b' :: r) :
    document? (fuel + 1) depth cs = scalarPart? (skip cs) := by
  rw [document?]
  split
  · next r h => rw [h]; rfl
  · next r h => exact absurd h (hlist r)
  · next r h => exact absurd h (hobject r)
  · next hquote _ _ => rw [scalarPart?_of_ne hquote]

/-- A document is a list, an object or a part that is no container. -/
theorem document?_succ (fuel depth : Nat) (cs : List Char) :
    document? (fuel + 1) depth cs =
      match skip cs with
      | '[' :: r => (inList? fuel (depth + 1) r).map fun p => (nested depth (.array p.1), p.2)
      | '\x7b' :: r => (inObject? fuel (depth + 1) r).map fun p => (nestedObject depth p.1, p.2)
      | r => scalarPart? r := by
  split
  · next r h => exact document?_list h
  · next r h => exact document?_object h
  · next hlist hobject => exact document?_scalar hlist hobject

theorem document?_skip (fuel depth : Nat) (cs : List Char) :
    document? fuel depth (skip cs) = document? fuel depth cs := by
  cases fuel with
  | zero => rfl
  | succ fuel => rw [document?_succ, document?_succ, skip_skip]

theorem items?_skip (fuel depth : Nat) (cs : List Char) :
    items? fuel depth (skip cs) = items? fuel depth cs := by
  cases fuel with
  | zero => rfl
  | succ fuel => rw [items?, items?, document?_skip]

/-- No document starts where the text ends, or where a list does. -/
theorem document?_eq_none (h : skip cs = [] ∨ ∃ r, skip cs = ']' :: r) (fuel depth : Nat) :
    document? fuel depth cs = none := by
  cases fuel with
  | zero => rfl
  | succ fuel =>
    rcases h with h | ⟨r, h⟩
    · rw [document?_succ, h]
      rfl
    · rw [document?_succ, h]
      rfl

theorem items?_eq_none (h : skip cs = [] ∨ ∃ r, skip cs = ']' :: r) (fuel depth : Nat) :
    items? fuel depth cs = none := by
  cases fuel with
  | zero => rfl
  | succ fuel =>
    rw [items?, document?_eq_none h]
    rfl

/-- No member starts where there is no quote. -/
theorem members?_eq_none (h : ∀ r, skip cs ≠ '"' :: r) (fuel depth : Nat) :
    members? fuel depth cs = none := by
  cases fuel with
  | zero => rfl
  | succ fuel =>
    rw [members?]
    split
    · next r hskip => exact absurd hskip (h r)
    · rfl

theorem members?_skip (fuel depth : Nat) (cs : List Char) :
    members? fuel depth (skip cs) = members? fuel depth cs := by
  cases fuel with
  | zero => rfl
  | succ fuel => rw [members?, members?, skip_skip]

/-! ## Items and members -/

/-- What is left of a list after an item. -/
def afterItem? (fuel depth : Nat) (cs : List Char) : Option (List Json × List Char) :=
  match skip cs with
  | ',' :: r => items? fuel depth r
  | ']' :: rest => some ([], rest)
  | _ => none

theorem afterItem?_comma (h : skip cs = ',' :: r) :
    afterItem? fuel depth cs = items? fuel depth r := by
  simp only [afterItem?, h]

theorem afterItem?_close (h : skip cs = ']' :: rest) :
    afterItem? fuel depth cs = some ([], rest) := by
  simp only [afterItem?, h]

theorem afterItem?_eq_none (hcomma : ∀ r, skip cs ≠ ',' :: r)
    (hclose : ∀ rest, skip cs ≠ ']' :: rest) : afterItem? fuel depth cs = none := by
  rw [afterItem?]
  split
  · next r h => exact absurd h (hcomma r)
  · next rest h => exact absurd h (hclose rest)
  · rfl

/-- A list is an item and what is left after it. -/
theorem items?_succ (fuel depth : Nat) (cs : List Char) :
    items? (fuel + 1) depth cs = (document? fuel depth cs).bind fun p =>
      (afterItem? fuel depth p.2).map fun q => (p.1 :: q.1, q.2) := by
  rw [items?]
  apply congrArg
  funext p
  obtain ⟨j, r⟩ := p
  simp only
  split
  · next r h => rw [afterItem?_comma h]
  · next rest h => rw [afterItem?_close h]; rfl
  · next hcomma hclose => rw [afterItem?_eq_none hcomma hclose]; rfl

/-- What is left of an object after a member. -/
def afterMember? (fuel depth : Nat) (cs : List Char) :
    Option (Option (List (String × Json)) × List Char) :=
  match skip cs with
  | ',' :: r => members? fuel depth r
  | '\x7d' :: rest => some (some [], rest)
  | _ => none

theorem afterMember?_comma (h : skip cs = ',' :: r) :
    afterMember? fuel depth cs = members? fuel depth r := by
  simp only [afterMember?, h]

theorem afterMember?_close (h : skip cs = '\x7d' :: rest) :
    afterMember? fuel depth cs = some (some [], rest) := by
  simp only [afterMember?, h]

theorem afterMember?_eq_none (hcomma : ∀ r, skip cs ≠ ',' :: r)
    (hclose : ∀ rest, skip cs ≠ '\x7d' :: rest) : afterMember? fuel depth cs = none := by
  rw [afterMember?]
  split
  · next r h => exact absurd h (hcomma r)
  · next rest h => exact absurd h (hclose rest)
  · rfl

/-- What a key stands before, and what is left of the object after it. -/
def afterKey? (fuel depth : Nat) (cs : List Char) :
    Option ((Json × Option (List (String × Json))) × List Char) :=
  match skip cs with
  | ':' :: r => (document? fuel depth r).bind fun p =>
    (afterMember? fuel depth p.2).map fun q => ((p.1, q.1), q.2)
  | _ => none

theorem afterKey?_colon (h : skip cs = ':' :: r) :
    afterKey? fuel depth cs = (document? fuel depth r).bind fun p =>
      (afterMember? fuel depth p.2).map fun q => ((p.1, q.1), q.2) := by
  simp only [afterKey?, h]

theorem afterKey?_eq_none (hcolon : ∀ r, skip cs ≠ ':' :: r) :
    afterKey? fuel depth cs = none := by
  rw [afterKey?]
  split
  · next r h => exact absurd h (hcolon r)
  · rfl

/-- The members of an object with one before them; there are none where its key is no text. -/
def withMember (key : Option String) (q : Json × Option (List (String × Json))) :
    Option (List (String × Json)) :=
  do return (← key.map fun k => (k, q.1)) :: (← q.2)

/-- An object is a key, what it stands before, and what is left after that. -/
theorem members?_key (h : skip cs = '"' :: r) :
    members? (fuel + 1) depth cs = (text? r).bind fun p =>
      (afterKey? fuel depth p.2).map fun q => (withMember p.1 q.1, q.2) := by
  rw [members?, h]
  apply congrArg (Option.bind (text? r))
  funext p
  obtain ⟨key, r⟩ := p
  simp only
  split
  · next r h =>
    rw [afterKey?_colon h]
    cases document? fuel depth r with
    | none => rfl
    | some q =>
      show _ = ((afterMember? fuel depth q.2).map _).map _
      rw [Option.map_map]
      simp only [Option.bind_eq_bind, Option.bind_some]
      split
      · next r h => rw [afterMember?_comma h]; rfl
      · next rest h =>
        rw [afterMember?_close h]
        cases key <;> rfl
      · next hcomma hclose => rw [afterMember?_eq_none hcomma hclose]; rfl
  · next hcolon => rw [afterKey?_eq_none hcolon]; rfl

/-! ## Whole texts -/

theorem read?_eq_some_iff {j : Json} :
    read? cs = some j ↔
      ∃ rest, document? (2 * cs.length + 2) 1 cs = some (j, rest) ∧ skip rest = [] := by
  rw [read?]
  generalize document? (2 * cs.length + 2) 1 cs = read
  cases read with
  | none => simp
  | some p =>
    obtain ⟨j', rest⟩ := p
    simp only [List.isEmpty_iff, Option.some.injEq, Prod.mk.injEq]
    constructor
    · intro h
      split at h
      · next hrest => exact ⟨rest, ⟨Option.some.inj h, rfl⟩, hrest⟩
      · cases h
    · rintro ⟨_, ⟨rfl, rfl⟩, hrest⟩
      rw [if_pos hrest]

end AnalysisGate.Json
