import AnalysisGate.Proofs.Json.Documents
import AnalysisGate.Proofs.Json.Steps
import Mathlib

/-!
A text read part by part against a document read as a whole.

A text is read as a document as a whole, and what is wrong with it is found as it comes. Of a
document, `Sketch.verdict` is the first thing that is wrong with it, in the order in which it is
written; of a part that stands for no value only the text tells more than that it is wrong. What
is found in a text is the verdict on the document that it is (`Sketch.passes`), and where it is
no document something is found.
-/
namespace AnalysisGate.Json

variable {depth : Nat} {cs r rest : List Char} {s : Sketch}

/-- What is found of a part: that nothing is wrong, what is wrong, or that something is. -/
abbrev Finding := Except (Option Fault) Unit

namespace Sketch

/-! ## Verdicts -/

/-- What is wrong with the kind or the extent of a part, as a finding. -/
def found : Option DecodeError → Finding
  | some e => .error (some (.unfit e))
  | none => .ok ()

mutual

/-- The first thing that is wrong with a document. -/
def verdict (s : Sketch) : Json → Finding
  | .array l => found (s.refuse (.array [])) >>= fun _ => s.present.verdictItems 0 l
  | .object l => found (s.refuse (.object [])) >>= fun _ => s.present.verdictMembers [] l
  | .beyond => if s.isStrict then .error none else .ok ()
  | .null => found (s.refuse .null)
  | .bool b => found (s.refuse (.bool b))
  | .number n => found (s.refuse (.number n))
  | .string t => found (s.refuse (.string t))

/-- The first thing that is wrong with the items from a position on. -/
def verdictItems (s : Sketch) (i : Nat) : List Json → Finding
  | [] => found (s.shortAt i)
  | j :: rest =>
    match s.item? i with
    | none => .error (some .trailing)
    | some item => item.verdict j >>= fun _ => s.verdictItems (i + 1) rest

/-- The first thing that is wrong with members after those of the names in `seen`. -/
def verdictMembers (s : Sketch) (seen : List String) : List (String × Json) → Finding
  | [] => found (s.missing? seen)
  | (key, j) :: rest =>
    match s.member seen key with
    | .error e => .error (some (.unfit e))
    | .ok part => part.verdict j >>= fun _ => s.verdictMembers (key :: seen) rest

end

/-- The verdict on the members of an object; there are none where a key is no text. -/
def verdictObject (s : Sketch) (seen : List String) : Option (List (String × Json)) → Finding
  | some l => s.verdictMembers seen l
  | none => s.verdict .beyond

/-- Induction on what is asked for: of a part that may be null, and of any other. -/
theorem optional_induct {P : Sketch → Prop} (optional : ∀ part, P part → P part.optional)
    (other : ∀ s : Sketch, (∀ part, s ≠ .optional part) → P s) (s : Sketch) : P s := by
  induction s using present.induct with
  | case1 part ih => exact optional part ih
  | case2 s hs => exact other s hs

theorem present_eq (hs : ∀ part, s ≠ .optional part) : s.present = s := by
  cases s with
  | optional part => exact absurd rfl (hs part)
  | passed | value | scalar | list | record => rfl

theorem present_ne_optional (s part : Sketch) : s.present ≠ .optional part := by
  induction s using optional_induct with
  | optional part' ih => exact ih
  | other s hs =>
    rw [present_eq hs]
    exact hs part

theorem isStrict_present (s : Sketch) : s.present.isStrict = s.isStrict := by
  induction s using optional_induct with
  | optional part ih => exact ih
  | other s hs => rw [present_eq hs]

theorem eq_passed (hs : ∀ part, s ≠ .optional part) (h : s.isStrict = false) : s = .passed := by
  cases s with
  | passed => rfl
  | optional part => exact absurd rfl (hs part)
  | value | scalar | list | record => cases h

theorem refuse_of_lax (h : s.isStrict = false) (j : Json) : s.refuse j = none := by
  induction s using optional_induct with
  | optional part ih =>
    cases j with
    | null => rfl
    | bool | number | string | array | object | beyond => exact ih h
  | other s hs =>
    rw [eq_passed hs h]
    cases j <;> rfl

theorem verdictItems_passed {l : List Json} (h : ∀ j ∈ l, passed.verdict j = .ok ()) (i : Nat) :
    passed.verdictItems i l = .ok () := by
  induction l generalizing i with
  | nil => rfl
  | cons j l ih =>
    obtain ⟨hj, hl⟩ := List.forall_mem_cons.1 h
    rw [verdictItems]
    simp only [item?, hj]
    exact ih hl (i + 1)

theorem verdictMembers_passed {l : List (String × Json)}
    (h : ∀ e ∈ l, passed.verdict e.2 = .ok ()) (seen : List String) :
    passed.verdictMembers seen l = .ok () := by
  induction l generalizing seen with
  | nil => rfl
  | cons e l ih =>
    obtain ⟨he, hl⟩ := List.forall_mem_cons.1 h
    rw [verdictMembers]
    simp only [member, he]
    exact ih hl (e.1 :: seen)

/-- Nothing is wrong with what is passed over. -/
theorem verdict_of_lax (h : s.isStrict = false) (j : Json) : s.verdict j = .ok () := by
  have hpresent {s : Sketch} (h : s.isStrict = false) : s.present = .passed :=
    eq_passed (present_ne_optional s) (isStrict_present s ▸ h)
  induction j using Json.induct generalizing s with
  | array l ih =>
    rw [verdict, hpresent h, refuse_of_lax h]
    exact verdictItems_passed (fun j hj => ih j hj rfl) 0
  | object l ih =>
    rw [verdict, hpresent h, refuse_of_lax h]
    exact verdictMembers_passed (fun e he => ih e he rfl) []
  | null | bool | number | string =>
    rw [verdict, refuse_of_lax h]
    rfl
  | beyond =>
    rw [verdict, h]
    rfl

theorem verdictItems_of_lax (h : s.isStrict = false) (i : Nat) (l : List Json) :
    s.present.verdictItems i l = .ok () := by
  rw [eq_passed (present_ne_optional s) (isStrict_present s ▸ h)]
  exact verdictItems_passed (fun j _ => verdict_of_lax rfl j) i

theorem verdictObject_of_lax (h : s.isStrict = false) (seen : List String)
    (l : Option (List (String × Json))) : s.present.verdictObject seen l = .ok () := by
  rw [eq_passed (present_ne_optional s) (isStrict_present s ▸ h)]
  cases l with
  | some l => exact verdictMembers_passed (fun e _ => verdict_of_lax rfl e.2) seen
  | none => exact verdict_of_lax (s := .passed) rfl .beyond

/-! ## What a verdict says of a text -/

/-- What is found in a text bears a verdict out: the part is passed, or the fault is told. -/
def Bears (x : Except Fault (List Char)) (rest : List Char) : Finding → Prop
  | .ok () => x = .ok rest
  | .error (some f) => x = .error f
  | .error none => ∃ f, x = .error f

/-- What is found bears out the verdict on what is read, and is a fault if nothing is read. -/
def Tells {α : Type} (x : Except Fault (List Char)) (verdict : α → Finding) :
    Option (α × List Char) → Prop
  | some (a, rest) => Bears x rest (verdict a)
  | none => ∃ f, x = .error f

variable {α β γ : Type} {x : Except Fault (List Char)} {f : List Char → Except Fault (List Char)}

theorem Bears.weaken {v : Finding} (h : Bears x rest v) (hv : v ≠ .ok ()) :
    Bears x rest (.error none) := by
  match v, h with
  | .error (some f), h => exact ⟨f, h⟩
  | .error none, h => exact h
  | .ok (), h => exact absurd rfl hv

theorem Bears.of_ok {r : List Char} {v : Finding} (h : Bears (.ok r) rest v) :
    v = .ok () ∧ r = rest := by
  match v, h with
  | .ok (), h => exact ⟨rfl, Except.ok.inj h⟩
  | .error none, ⟨f, hf⟩ => cases hf

theorem bears_finish (e : Option DecodeError) (rest : List Char) :
    Bears (finish e rest) rest (found e) := by
  cases e <;> rfl

theorem tells_map {verdict : β → Finding} {f : α → β} {read : Option (α × List Char)} :
    Tells x verdict (read.map fun p => (f p.1, p.2)) ↔ Tells x (fun a => verdict (f a)) read := by
  cases read <;> exact Iff.rfl

theorem Tells.mono {first second : α → Finding} {read : Option (α × List Char)}
    (h : ∀ a rest, Bears x rest (first a) → Bears x rest (second a)) (hx : Tells x first read) :
    Tells x second read := by
  cases read with
  | none => exact hx
  | some p => exact h p.1 p.2 hx

/-- What is found first is told, and if it is nothing, what is found after it. -/
theorem Bears.tells {v : Finding} {second : β → Finding} {read : Option (β × List Char)}
    (hx : Bears x r v) (hf : Tells (f r) second read) :
    Tells (x >>= f) (fun b => v >>= fun _ => second b) read := by
  cases v with
  | ok u =>
    obtain rfl : x = .ok r := hx
    exact hf
  | error o =>
    obtain ⟨e, rfl⟩ : ∃ e, x = .error e := hx.weaken (by simp)
    cases read with
    | none => exact ⟨e, rfl⟩
    | some p =>
      cases o with
      | none => exact ⟨e, rfl⟩
      | some fault => exact congrArg (· >>= f) hx

/-- What is found of two parts that are read one after the other. -/
theorem Tells.bind {first : α → Finding} {second : β → Finding} {verdict : γ → Finding}
    {combine : α → β → γ} {read : Option (α × List Char)}
    {next : List Char → Option (β × List Char)} (hx : Tells x first read)
    (hf : ∀ r, Tells (f r) second (next r))
    (h : ∀ a b rest, Bears (x >>= f) rest (first a >>= fun _ => second b) →
      Bears (x >>= f) rest (verdict (combine a b))) :
    Tells (x >>= f) verdict
      (read.bind fun p => (next p.2).map fun q => (combine p.1 q.1, q.2)) := by
  cases read with
  | none =>
    obtain ⟨e, rfl⟩ := hx
    exact ⟨e, rfl⟩
  | some p =>
    obtain ⟨a, r⟩ := p
    rw [Option.bind_some, tells_map (f := combine a)]
    exact (Bears.tells hx (hf r)).mono (h a)

/-! ## How texts are passed -/

variable {fuel : Nat}

/-- Pass a list after its opening bracket. -/
def passList (fuel depth : Nat) (s : Sketch) (cs : List Char) : Except Fault (List Char) :=
  match skip cs with
  | [] => .error .endOfList
  | ']' :: rest => finish (s.shortAt 0) rest
  | r => passItems fuel depth s 0 r

/-- Pass an object after its opening brace. -/
def passObject (fuel depth : Nat) (s : Sketch) (cs : List Char) : Except Fault (List Char) :=
  match skip cs with
  | [] => .error .endOfObject
  | '\x7d' :: rest => finish (s.missing? []) rest
  | r => passMembers fuel depth s [] r

theorem pass_succ (fuel depth : Nat) (s : Sketch) (cs : List Char) :
    s.pass (fuel + 1) depth cs =
      match skip cs with
      | '[' :: r => s.enter depth (.array []) r >>= passList fuel (depth + 1) s.present
      | '\x7b' :: r => s.enter depth (.object []) r >>= passObject fuel (depth + 1) s.present
      | r => passScalar s.isStrict r >>= fun p => finish (s.refuse p.1) p.2 := by
  rw [pass]
  rfl

/-- Pass what is left of a list after the item before a position. -/
def passAfterItem (fuel depth : Nat) (s : Sketch) (i : Nat) (cs : List Char) :
    Except Fault (List Char) :=
  match skip cs with
  | [] => .error .endOfList
  | ',' :: r =>
    match skip r with
    | ']' :: _ => .error (if s.isStrict then .trailingComma else .value)
    | r => passItems fuel depth s i r
  | ']' :: rest => finish (s.shortAt i) rest
  | _ => .error (if (s.item? i).isSome then .listEnd else .trailing)

/-- Pass what is left of an object after a member. -/
def passAfterMember (fuel depth : Nat) (s : Sketch) (seen : List String) (cs : List Char) :
    Except Fault (List Char) :=
  match skip cs with
  | [] => .error .endOfObject
  | ',' :: r =>
    match skip r with
    | [] => .error (if s.isStrict then .endOfValue else .endOfObject)
    | '\x7d' :: _ => .error (if s.isStrict then .trailingComma else .key)
    | r => passMembers fuel depth s seen r
  | '\x7d' :: rest => finish (s.missing? seen) rest
  | _ => .error .objectEnd

/-- Pass what a key stands before, and what is left of the object after it. -/
def passAfterKey (fuel depth : Nat) (s part : Sketch) (seen : List String) (cs : List Char) :
    Except Fault (List Char) :=
  match skip cs with
  | [] => .error .endOfObject
  | ':' :: r => part.pass fuel depth r >>= passAfterMember fuel depth s seen
  | _ => .error .colon

theorem passItems_succ {item : Sketch} {i : Nat} (hitem : s.item? i = some item) :
    s.passItems (fuel + 1) depth i cs =
      item.pass fuel depth cs >>= passAfterItem fuel depth s (i + 1) := by
  rw [passItems, hitem]
  rfl

theorem passMembers_succ (fuel depth : Nat) (s : Sketch) (seen : List String) (cs : List Char) :
    s.passMembers (fuel + 1) depth seen cs =
      match cs with
      | '"' :: r => passKey s.isStrict r >>= fun p =>
        (s.member seen p.1).mapError .unfit >>= fun part =>
          passAfterKey fuel depth s part (p.1 :: seen) p.2
      | _ => .error .key := by
  rw [passMembers.eq_def]
  rfl

theorem verdict_scalar {j : Json} (h : scalarPart? cs = some (j, rest)) (s : Sketch) :
    s.verdict j = if s.isStrict && j = .beyond then .error none else found (s.refuse j) := by
  have hbeyond : s.verdict .beyond =
      if s.isStrict && (.beyond : Json) = .beyond then .error none
      else found (s.refuse .beyond) := by
    rw [verdict]
    cases hstrict : s.isStrict with
    | true => rfl
    | false => rw [refuse_of_lax hstrict]; rfl
  rcases scalarPart?_cases h with rfl | ⟨b, rfl⟩ | ⟨n, rfl⟩ | ⟨t, rfl⟩ | rfl
  · simp [verdict]
  · simp [verdict]
  · simp [verdict]
  · simp [verdict]
  · exact hbeyond

theorem tells_passScalar (s : Sketch) (cs : List Char) :
    Tells (passScalar s.isStrict cs >>= fun p => finish (s.refuse p.1) p.2) s.verdict
      (scalarPart? cs) := by
  rw [passScalar]
  cases hread : scalarPart? cs with
  | none => exact ⟨_, rfl⟩
  | some p =>
    obtain ⟨j, rest⟩ := p
    simp only [Tells, verdict_scalar hread]
    split
    · exact ⟨_, rfl⟩
    · exact bears_finish (s.refuse j) rest

/-! ### Containers -/

/-- What is found where a container starts. -/
def entry (s : Sketch) (depth : Nat) (empty : Json) : Finding :=
  found (s.refuse empty) >>= fun _ =>
    if s.isStrict && nestingLimit < depth then .error none else .ok ()

theorem bears_enter (s : Sketch) (depth : Nat) (empty : Json) (rest : List Char) :
    Bears (s.enter depth empty rest) rest (s.entry depth empty) := by
  rw [enter, entry]
  cases s.refuse empty with
  | some e => rfl
  | none =>
    cases s.isStrict && decide (nestingLimit < depth) with
    | true => exact ⟨.depth, rfl⟩
    | false => rfl

theorem entry_of_le (h : depth ≤ nestingLimit) (s : Sketch) (empty : Json) :
    s.entry depth empty = found (s.refuse empty) := by
  rw [entry, decide_eq_false (Nat.not_lt.2 h), Bool.and_false]
  cases s.refuse empty <;> rfl

theorem entry_of_lax (h : s.isStrict = false) (depth : Nat) (empty : Json) :
    s.entry depth empty = .ok () := by
  rw [entry, refuse_of_lax h, h]
  rfl

theorem entry_ne_ok (hstrict : s.isStrict = true) (h : ¬ depth ≤ nestingLimit) (empty : Json) :
    s.entry depth empty ≠ .ok () := by
  rw [entry, hstrict, decide_eq_true (Nat.lt_of_not_le h)]
  cases s.refuse empty <;> simp [found, bind, Except.bind]

/-- Of a part that stands for no value something is wrong exactly if it is not passed over. -/
theorem bears_beyond {v : Finding} (hv : v = .ok () ↔ s.isStrict = false) (h : Bears x rest v) :
    Bears x rest (s.verdict .beyond) := by
  rw [verdict]
  cases hstrict : s.isStrict with
  | true => exact h.weaken (by simp [hv, hstrict])
  | false => rwa [hv.2 hstrict] at h

/-- What is found of a container is what is found where it starts, and then in what it holds. -/
theorem bears_nested {j empty : Json} {holds : Finding}
    (hj : s.verdict j = found (s.refuse empty) >>= fun _ => holds)
    (hlax : s.isStrict = false → holds = .ok ())
    (h : Bears x rest (s.entry depth empty >>= fun _ => holds)) :
    Bears x rest (s.verdict (nested depth j)) := by
  rw [nested]
  split
  · next hdepth =>
    rw [entry_of_le hdepth] at h
    rwa [hj]
  · next hdepth =>
    apply bears_beyond _ h
    cases hstrict : s.isStrict with
    | true =>
      have hentry := entry_ne_ok hstrict hdepth empty
      cases he : s.entry depth empty with
      | error o => simp [bind, Except.bind]
      | ok u => exact absurd he hentry
    | false =>
      rw [entry_of_lax hstrict, hlax hstrict]
      exact iff_of_true rfl rfl

theorem bears_nestedObject {l : Option (List (String × Json))}
    (h : Bears x rest (s.entry depth (.object []) >>= fun _ => s.present.verdictObject [] l)) :
    Bears x rest (s.verdict (nestedObject depth l)) := by
  cases l with
  | some l =>
    apply bears_nested _ (fun hstrict => verdictObject_of_lax hstrict [] (some l)) h
    rw [verdict]
    rfl
  | none =>
    apply bears_beyond _ h
    cases hstrict : s.isStrict with
    | true =>
      rw [verdictObject, verdict, isStrict_present, hstrict]
      cases s.entry depth (.object []) <;> simp [bind, Except.bind]
    | false =>
      rw [entry_of_lax hstrict, verdictObject_of_lax hstrict]
      exact iff_of_true rfl rfl

/-! ### One step -/

/-- What is found of a part at an amount of fuel is the verdict on the document that it is. -/
def Passes (fuel : Nat) : Prop :=
  ∀ (depth : Nat) (s : Sketch) (cs : List Char),
    Tells (s.pass fuel depth cs) s.verdict (document? fuel depth cs)

def PassesItems (fuel : Nat) : Prop :=
  ∀ (depth : Nat) (s : Sketch) (i : Nat) (cs : List Char),
    Tells (s.passItems fuel depth i cs) (s.verdictItems i) (items? fuel depth cs)

def PassesMembers (fuel : Nat) : Prop :=
  ∀ (depth : Nat) (s : Sketch) (seen : List String) (cs : List Char),
    (∀ part, s ≠ .optional part) →
    Tells (s.passMembers fuel depth seen (skip cs)) (s.verdictObject seen)
      (members? fuel depth cs)

theorem tells_passList (hitems : PassesItems fuel) (depth : Nat) (s : Sketch) (cs : List Char) :
    Tells (passList fuel depth s cs) (s.verdictItems 0) (inList? fuel depth cs) := by
  rw [passList]
  split
  · next hskip =>
    rw [inList?_item (by simp [hskip]), items?_skip, items?_eq_none (.inl hskip)]
    exact ⟨_, rfl⟩
  · next rest hskip =>
    rw [inList?_close hskip]
    exact bears_finish (s.shortAt 0) rest
  · next hend hclose =>
    rw [inList?_item hclose]
    exact hitems depth s 0 (skip cs)

theorem tells_passObject (hmembers : PassesMembers fuel) (depth : Nat)
    (hs : ∀ part, s ≠ .optional part) (cs : List Char) :
    Tells (passObject fuel depth s cs) (s.verdictObject []) (inObject? fuel depth cs) := by
  rw [passObject]
  split
  · next hskip =>
    rw [inObject?_member (by simp [hskip]), members?_skip, members?_eq_none (by simp [hskip])]
    exact ⟨_, rfl⟩
  · next rest hskip =>
    rw [inObject?_close hskip]
    exact bears_finish (s.missing? []) rest
  · next hend hclose =>
    rw [inObject?_member hclose, members?_skip]
    exact hmembers depth s [] cs hs

theorem passes_succ (hitems : PassesItems fuel) (hmembers : PassesMembers fuel) :
    Passes (fuel + 1) := by
  intro depth s cs
  rw [pass_succ]
  split
  case h_1 r hskip =>
    rw [document?_list hskip, tells_map (f := fun l => nested depth (.array l))]
    apply (Bears.tells (bears_enter s depth (.array []) r)
      (tells_passList hitems (depth + 1) s.present r)).mono
    intro l rest h
    apply bears_nested _ (fun hstrict => verdictItems_of_lax hstrict 0 l) h
    rw [verdict]
  case h_2 r hskip =>
    rw [document?_object hskip, tells_map (f := nestedObject depth)]
    apply (Bears.tells (bears_enter s depth (.object []) r)
      (tells_passObject hmembers (depth + 1) (present_ne_optional s) r)).mono
    intro l rest h
    exact bears_nestedObject h
  case h_3 hlist hobject =>
    rw [document?_scalar hlist hobject]
    exact tells_passScalar s (skip cs)

theorem tells_passAfterItem (hitems : PassesItems fuel) (depth : Nat) (s : Sketch) (i : Nat)
    (cs : List Char) :
    Tells (passAfterItem fuel depth s i cs) (s.verdictItems i) (afterItem? fuel depth cs) := by
  rw [passAfterItem]
  split
  · next hskip =>
    rw [afterItem?_eq_none (by simp [hskip]) (by simp [hskip])]
    exact ⟨_, rfl⟩
  · next r hskip =>
    rw [afterItem?_comma hskip]
    split
    · next tail hclose =>
      rw [items?_eq_none (.inr ⟨tail, hclose⟩)]
      exact ⟨_, rfl⟩
    · rw [← items?_skip]
      exact hitems depth s i (skip r)
  · next rest hskip =>
    rw [afterItem?_close hskip]
    exact bears_finish (s.shortAt i) rest
  · next hend hcomma hclose =>
    rw [afterItem?_eq_none hcomma hclose]
    exact ⟨_, rfl⟩

theorem passesItems_succ (hpass : Passes fuel) (hitems : PassesItems fuel) :
    PassesItems (fuel + 1) := by
  intro depth s i cs
  rw [items?_succ]
  cases hitem : s.item? i with
  | none =>
    have hpassed : s.passItems (fuel + 1) depth i cs = .error .trailing := by
      rw [passItems, hitem]
    rw [hpassed]
    cases document? fuel depth cs with
    | none => exact ⟨_, rfl⟩
    | some p =>
      rw [Option.bind_some, tells_map (f := fun l => p.1 :: l)]
      cases afterItem? fuel depth p.2 with
      | none => exact ⟨_, rfl⟩
      | some q =>
        show Bears _ _ (s.verdictItems i (p.1 :: q.1))
        rw [verdictItems, hitem]
        rfl
  | some item =>
    rw [passItems_succ hitem]
    apply (hpass depth item cs).bind fun r => tells_passAfterItem hitems depth s (i + 1) r
    intro j l rest h
    rwa [verdictItems, hitem]

theorem tells_passAfterMember (hmembers : PassesMembers fuel) (depth : Nat)
    (hs : ∀ part, s ≠ .optional part) (seen : List String) (cs : List Char) :
    Tells (passAfterMember fuel depth s seen cs) (s.verdictObject seen)
      (afterMember? fuel depth cs) := by
  rw [passAfterMember]
  split
  · next hskip =>
    rw [afterMember?_eq_none (by simp [hskip]) (by simp [hskip])]
    exact ⟨_, rfl⟩
  · next r hskip =>
    rw [afterMember?_comma hskip]
    split
    · next hend =>
      rw [members?_eq_none (by simp [hend])]
      exact ⟨_, rfl⟩
    · next tail hclose =>
      rw [members?_eq_none (by simp [hclose])]
      exact ⟨_, rfl⟩
    · exact hmembers depth s seen r hs
  · next rest hskip =>
    rw [afterMember?_close hskip]
    exact bears_finish (s.missing? seen) rest
  · next hend hcomma hclose =>
    rw [afterMember?_eq_none hcomma hclose]
    exact ⟨_, rfl⟩

theorem tells_passAfterKey (hpass : Passes fuel) (hmembers : PassesMembers fuel)
    (depth : Nat) (hs : ∀ part, s ≠ .optional part) (part : Sketch) (seen : List String)
    (cs : List Char) :
    Tells (passAfterKey fuel depth s part seen cs)
      (fun q => part.verdict q.1 >>= fun _ => s.verdictObject seen q.2)
      (afterKey? fuel depth cs) := by
  rw [passAfterKey]
  split
  · next hskip =>
    rw [afterKey?_eq_none (by simp [hskip])]
    exact ⟨_, rfl⟩
  · next r hskip =>
    rw [afterKey?_colon hskip]
    apply (hpass depth part r).bind fun r => tells_passAfterMember hmembers depth hs seen r
    intro j l rest h
    exact h
  · next hend hcolon =>
    rw [afterKey?_eq_none hcolon]
    exact ⟨_, rfl⟩

/-- The verdict on a member, and then on what is left of the object. -/
def verdictMember (s : Sketch) (seen : List String) (k : String)
    (q : Json × Option (List (String × Json))) : Finding :=
  match s.member seen k with
  | .error e => .error (some (.unfit e))
  | .ok part => part.verdict q.1 >>= fun _ => s.verdictObject (k :: seen) q.2

theorem verdictMember_of_lax (hs : ∀ part, s ≠ .optional part) (h : s.isStrict = false)
    (seen : List String) (k : String) (q : Json × Option (List (String × Json))) :
    s.verdictMember seen k q = .ok () := by
  rw [eq_passed hs h, verdictMember]
  simp only [member, verdict_of_lax (s := .passed) rfl]
  exact verdictObject_of_lax (s := .passed) rfl (k :: seen) q.2

theorem bears_withMember (hs : ∀ part, s ≠ .optional part) {seen : List String} {k : String}
    {q : Json × Option (List (String × Json))} (h : Bears x rest (s.verdictMember seen k q)) :
    Bears x rest (s.verdictObject seen (withMember (some k) q)) := by
  obtain ⟨j, l⟩ := q
  cases l with
  | some l => exact h
  | none =>
    apply bears_beyond _ h
    cases hstrict : s.isStrict with
    | true =>
      rw [verdictMember]
      cases s.member seen k with
      | error e => simp
      | ok part =>
        simp only [verdictObject, verdict, hstrict, if_true]
        cases part.verdict j <;> simp [bind, Except.bind]
    | false =>
      rw [verdictMember_of_lax hs hstrict]
      exact iff_of_true rfl rfl

theorem tells_member (hpass : Passes fuel) (hmembers : PassesMembers fuel) (depth : Nat)
    (hs : ∀ part, s ≠ .optional part) (seen : List String) (k : String) (cs : List Char) :
    Tells
      ((s.member seen k).mapError .unfit >>= fun part =>
        passAfterKey fuel depth s part (k :: seen) cs)
      (s.verdictMember seen k) (afterKey? fuel depth cs) := by
  unfold verdictMember
  cases s.member seen k with
  | error e =>
    cases afterKey? fuel depth cs with
    | none => exact ⟨.unfit e, rfl⟩
    | some q => rfl
  | ok part => exact tells_passAfterKey hpass hmembers depth hs part (k :: seen) cs

theorem passesMembers_succ (hpass : Passes fuel) (hmembers : PassesMembers fuel) :
    PassesMembers (fuel + 1) := by
  intro depth s seen cs hs
  rw [passMembers_succ]
  split
  · next r hskip =>
    rw [members?_key hskip, passKey]
    cases text? r with
    | none => exact ⟨_, rfl⟩
    | some p =>
      obtain ⟨key, r⟩ := p
      rw [Option.bind_some, tells_map (f := withMember key)]
      cases key with
      | some k =>
        apply (tells_member hpass hmembers depth hs seen k r).mono
        intro q rest h
        exact bears_withMember hs h
      | none =>
        -- A key that is no text is a fault, or else the object is passed over whatever its keys.
        show Tells ((if s.isStrict then .error (textFault s.isStrict _) else .ok ("", r)) >>= _)
          (fun _ => s.verdict .beyond) _
        rw [verdict]
        cases hstrict : s.isStrict with
        | true => cases afterKey? fuel depth r <;> exact ⟨_, rfl⟩
        | false =>
          apply (tells_member hpass hmembers depth hs seen "" r).mono
          intro q rest h
          rwa [verdictMember_of_lax hs hstrict] at h
  · next hquote =>
    rw [members?_eq_none hquote]
    exact ⟨_, rfl⟩

/-- What is found in a text is the verdict on the document that it is, at any amount of fuel. -/
theorem passes (fuel : Nat) : Passes fuel ∧ PassesItems fuel ∧ PassesMembers fuel := by
  induction fuel with
  | zero =>
    refine ⟨?_, ?_, ?_⟩
    · intro depth s cs
      rw [pass]
      exact ⟨_, rfl⟩
    · intro depth s i cs
      rw [passItems]
      exact ⟨_, rfl⟩
    · intro depth s seen cs hs
      rw [passMembers]
      exact ⟨_, rfl⟩
  | succ fuel ih =>
    obtain ⟨hpass, hitems, hmembers⟩ := ih
    exact ⟨passes_succ hitems hmembers, passesItems_succ hpass hitems,
      passesMembers_succ hpass hmembers⟩

/-- What is passed is a document with which nothing is wrong. -/
theorem document_of_pass (h : s.pass fuel depth cs = .ok rest) :
    ∃ j, document? fuel depth cs = some (j, rest) ∧ s.verdict j = .ok () := by
  have hpass := (passes fuel).1 depth s cs
  rw [h] at hpass
  cases hread : document? fuel depth cs with
  | none =>
    rw [hread] at hpass
    obtain ⟨f, hf⟩ := hpass
    cases hf
  | some p =>
    obtain ⟨j, rest'⟩ := p
    rw [hread] at hpass
    obtain ⟨hv, rfl⟩ := Bears.of_ok hpass
    exact ⟨j, rfl, hv⟩

end Sketch

end AnalysisGate.Json
