import AnalysisGate.Proofs.Json.Passing
import Mathlib

/-!
Fuel that never runs out.

The readers of documents are given fuel, two units for each character of a text and two more. Each
part that is read takes a character at least, and an item or a member takes one unit of fuel before
the part in it, so the fuel outlasts the text: with more of it the same is read
(`document?_fuel`), and the same is found to be wrong (`Sketch.pass_fuel`).
-/
namespace AnalysisGate.Json

variable {α β : Type} {fuel fuel' depth : Nat} {cs r rest : List Char}

/-! ## What is taken from a text -/

theorem length_skip_le (cs : List Char) : (skip cs).length ≤ cs.length :=
  List.length_dropWhile_le isSpace cs

/-- Where something follows the blanks, less than the whole text does. -/
theorem lt_of_skip {c : Char} (h : skip cs = c :: r) : r.length < cs.length := by
  have hle := length_skip_le cs
  rw [h, List.length_cons] at hle
  omega

/-- A reading leaves less than so many characters. -/
def Leaves (n : Nat) (read : Option (α × List Char)) : Prop := ∀ p ∈ read, p.2.length < n

@[simp] theorem leaves_none (n : Nat) : Leaves n (none : Option (α × List Char)) := by
  intro p hp
  cases hp

@[simp] theorem leaves_some {n : Nat} {p : α × List Char} :
    Leaves n (some p) ↔ p.2.length < n := by
  simp [Leaves]

theorem Leaves.mono {n n' : Nat} {read : Option (α × List Char)} (h : Leaves n read)
    (hn : n ≤ n') : Leaves n' read :=
  fun p hp => Nat.lt_of_lt_of_le (h p hp) hn

theorem Leaves.map {n : Nat} {read : Option (α × List Char)} (h : Leaves n read)
    {f : α × List Char → β × List Char} (hf : ∀ p, (f p).2 = p.2) : Leaves n (read.map f) := by
  cases read with
  | none => simp
  | some p =>
    rw [leaves_some] at h
    rw [Option.map_some, leaves_some, hf]
    exact h

theorem Leaves.bind {n : Nat} {read : Option (α × List Char)}
    {next : α × List Char → Option (β × List Char)} (h : Leaves n read)
    (hnext : ∀ p, p.2.length < n → Leaves n (next p)) : Leaves n (read.bind next) := by
  cases read with
  | none => simp
  | some p => exact hnext p (leaves_some.1 h)

theorem Leaves.bind_congr {n : Nat} {read : Option (α × List Char)}
    {next next' : α × List Char → Option β} (h : Leaves n read)
    (hnext : ∀ p, p.2.length < n → next p = next' p) : read.bind next = read.bind next' := by
  cases read with
  | none => rfl
  | some p => exact hnext p (leaves_some.1 h)

/-! ## Parts that are no containers -/

theorem leaves_pieces (cs : List Char) : Leaves cs.length (pieces? cs) := by
  fun_induction pieces? cs with
  | case1 | case4 | case6 | case7 => simp
  | case2 r => simp
  | case3 a b c d r u hu ih => exact (ih.mono (by simp; omega)).map fun _ => rfl
  | case5 e r he c hc ih => exact (ih.mono (by simp; omega)).map fun _ => rfl
  | case8 c r h1 h2 h3 h4 ih => exact (ih.mono (by simp)).map fun _ => rfl

theorem leaves_text (cs : List Char) : Leaves cs.length (text? cs) := by
  rw [text?]
  exact (leaves_pieces cs).map fun _ => rfl

theorem length_digitRun (cs : List Char) :
    (digitRun cs).1.length + (digitRun cs).2.length = cs.length := by
  rw [← List.length_append, digitRun, List.takeWhile_append_dropWhile]

theorem leaves_fraction (cs : List Char) : Leaves (cs.length + 1) (fraction? cs) := by
  rw [fraction?.eq_def]
  split
  · next r =>
    have h := length_digitRun r
    simp only
    split
    · simp
    · simp only [leaves_some, List.length_cons]
      omega
  · simp

theorem leaves_power (negative : Bool) (cs : List Char) :
    Leaves (cs.length + 1) (power? negative cs) := by
  have h := length_digitRun cs
  rw [power?]
  simp only
  split
  · simp
  · simp only [leaves_some]
    omega

theorem leaves_exponent (cs : List Char) : Leaves (cs.length + 1) (exponent? cs) := by
  rw [exponent?.eq_def]
  split
  all_goals first
    | exact (leaves_power _ _).mono (by simp)
    | simp

theorem leaves_spelling (cs : List Char) : Leaves cs.length (spelling? cs) := by
  rw [spelling?.eq_def]
  split
  next negative body hsign =>
  have hbody : body.length ≤ cs.length := by
    split at hsign <;> cases hsign <;> simp
  have hrun := length_digitRun body
  simp only
  split
  · simp
  · next hwhole =>
    have hpos : 0 < (digitRun body).1.length := by
      rw [List.length_pos_iff]
      intro hnil
      simp [hnil] at hwhole
    apply ((leaves_fraction _).mono (by omega)).bind
    intro p hp
    apply ((leaves_exponent _).mono (by omega)).bind
    intro q hq
    exact leaves_some.2 hq

/-- A word that is read is taken from the text. -/
theorem word?_eq_some {word : List Char} (h : word? word cs = some r) : cs = word ++ r := by
  rw [word?] at h
  split at h
  · next hword =>
    obtain ⟨t, rfl⟩ := List.isPrefixOf_iff_prefix.1 hword
    simp only [List.drop_left, Option.some.injEq] at h
    rw [h]
  · cases h

theorem length_lt_of_word {word : List Char} (hword : 0 < word.length)
    (h : word? word cs = some r) : r.length < cs.length := by
  rw [word?_eq_some h, List.length_append]
  omega

theorem leaves_scalar (cs : List Char) : Leaves cs.length (scalar? cs) := by
  rw [scalar?]
  split
  · next r h => exact leaves_some.2 (length_lt_of_word (by decide) h)
  · split
    · next r h => exact leaves_some.2 (length_lt_of_word (by decide) h)
    · split
      · next r h => exact leaves_some.2 (length_lt_of_word (by decide) h)
      · exact (leaves_spelling cs).map fun _ => rfl

theorem leaves_scalarPart (cs : List Char) : Leaves cs.length (scalarPart? cs) := by
  unfold scalarPart?
  split
  · next r => exact ((leaves_text r).mono (Nat.le_succ r.length)).map fun _ => rfl
  · exact leaves_scalar cs

/-! ## Containers -/

/-- What is left of what follows the blanks is less than the whole text. -/
theorem leaves_skip {read : Option (α × List Char)} (h : Leaves (skip cs).length read) :
    Leaves cs.length read :=
  h.mono (length_skip_le cs)

def LeavesItems (fuel : Nat) : Prop := ∀ depth cs, Leaves cs.length (items? fuel depth cs)

def LeavesMembers (fuel : Nat) : Prop := ∀ depth cs, Leaves cs.length (members? fuel depth cs)

def LeavesDocument (fuel : Nat) : Prop := ∀ depth cs, Leaves cs.length (document? fuel depth cs)

theorem leaves_document_succ (hitems : LeavesItems fuel) (hmembers : LeavesMembers fuel) :
    LeavesDocument (fuel + 1) := by
  intro depth cs
  rw [document?_succ]
  apply leaves_skip
  generalize skip cs = cs
  split
  · next r =>
    have hlist : Leaves r.length (inList? fuel (depth + 1) r) := by
      unfold inList?
      apply leaves_skip
      split
      · next rest hskip => simp [hskip]
      · exact hitems (depth + 1) _
    exact (hlist.mono (Nat.le_succ r.length)).map fun _ => rfl
  · next r =>
    have hobject : Leaves r.length (inObject? fuel (depth + 1) r) := by
      unfold inObject?
      apply leaves_skip
      split
      · next rest hskip => simp [hskip]
      · exact hmembers (depth + 1) _
    exact (hobject.mono (Nat.le_succ r.length)).map fun _ => rfl
  · exact leaves_scalarPart cs

theorem leaves_afterItem (hitems : LeavesItems fuel) (depth : Nat) (cs : List Char) :
    Leaves cs.length (afterItem? fuel depth cs) := by
  unfold afterItem?
  apply leaves_skip
  generalize skip cs = cs
  split
  · next r => exact (hitems depth r).mono (Nat.le_succ r.length)
  · simp
  · simp

theorem leaves_items_succ (hdocument : LeavesDocument fuel) (hitems : LeavesItems fuel) :
    LeavesItems (fuel + 1) := by
  intro depth cs
  rw [items?_succ]
  apply (hdocument depth cs).bind
  intro p hp
  exact ((leaves_afterItem hitems depth p.2).mono (Nat.le_of_lt hp)).map fun _ => rfl

theorem leaves_afterMember (hmembers : LeavesMembers fuel) (depth : Nat) (cs : List Char) :
    Leaves cs.length (afterMember? fuel depth cs) := by
  unfold afterMember?
  apply leaves_skip
  generalize skip cs = cs
  split
  · next r => exact (hmembers depth r).mono (Nat.le_succ r.length)
  · simp
  · simp

theorem leaves_afterKey (hdocument : LeavesDocument fuel) (hmembers : LeavesMembers fuel)
    (depth : Nat) (cs : List Char) : Leaves cs.length (afterKey? fuel depth cs) := by
  unfold afterKey?
  apply leaves_skip
  generalize skip cs = cs
  split
  · next r =>
    apply ((hdocument depth r).mono (Nat.le_succ r.length)).bind
    intro p hp
    exact ((leaves_afterMember hmembers depth p.2).mono (Nat.le_of_lt hp)).map fun _ => rfl
  · simp

theorem leaves_members_succ (hdocument : LeavesDocument fuel) (hmembers : LeavesMembers fuel) :
    LeavesMembers (fuel + 1) := by
  intro depth cs
  by_cases hkey : ∃ r, skip cs = '"' :: r
  · obtain ⟨r, hskip⟩ := hkey
    have hlt := lt_of_skip hskip
    rw [members?_key hskip]
    apply ((leaves_text r).mono (Nat.le_of_lt hlt)).bind
    intro p hp
    exact ((leaves_afterKey hdocument hmembers depth p.2).mono (Nat.le_of_lt hp)).map
      fun _ => rfl
  · rw [members?_eq_none fun r hskip => hkey ⟨r, hskip⟩]
    exact leaves_none _

/-- Each part that is read takes something of the text. -/
theorem leaves_reading (fuel : Nat) :
    LeavesDocument fuel ∧ LeavesItems fuel ∧ LeavesMembers fuel := by
  induction fuel with
  | zero => exact ⟨fun _ _ => leaves_none _, fun _ _ => leaves_none _, fun _ _ => leaves_none _⟩
  | succ fuel ih =>
    obtain ⟨hdocument, hitems, hmembers⟩ := ih
    exact ⟨leaves_document_succ hitems hmembers, leaves_items_succ hdocument hitems,
      leaves_members_succ hdocument hmembers⟩

/-! ## More fuel -/

/-- Two amounts of fuel read the same of each text that both are enough for. -/
def SameDocument (n n' : Nat) : Prop :=
  ∀ depth cs, 2 * cs.length + 2 ≤ n → 2 * cs.length + 2 ≤ n' →
    document? n depth cs = document? n' depth cs

def SameItems (n n' : Nat) : Prop :=
  ∀ depth cs, 2 * cs.length + 3 ≤ n → 2 * cs.length + 3 ≤ n' →
    items? n depth cs = items? n' depth cs

def SameMembers (n n' : Nat) : Prop :=
  ∀ depth cs, 2 * cs.length + 3 ≤ n → 2 * cs.length + 3 ≤ n' →
    members? n depth cs = members? n' depth cs

variable {n n' : Nat}

theorem same_document_succ (hitems : SameItems n n') (hmembers : SameMembers n n') :
    SameDocument (n + 1) (n' + 1) := by
  intro depth cs hn hn'
  rw [document?_succ, document?_succ]
  have hle := length_skip_le cs
  generalize skip cs = cs' at hle
  split
  · next r =>
    have hr := length_skip_le r
    rw [List.length_cons] at hle
    congr 1
    unfold inList?
    split
    · rfl
    · exact hitems (depth + 1) (skip r) (by omega) (by omega)
  · next r =>
    have hr := length_skip_le r
    rw [List.length_cons] at hle
    congr 1
    unfold inObject?
    split
    · rfl
    · exact hmembers (depth + 1) (skip r) (by omega) (by omega)
  · rfl

theorem same_afterItem (hitems : SameItems n n') (hn : 2 * cs.length + 1 ≤ n)
    (hn' : 2 * cs.length + 1 ≤ n') : afterItem? n depth cs = afterItem? n' depth cs := by
  have hle := length_skip_le cs
  unfold afterItem?
  generalize skip cs = cs' at hle
  split
  · next r =>
    rw [List.length_cons] at hle
    exact hitems depth r (by omega) (by omega)
  · rfl
  · rfl

theorem same_items_succ (hdocument : SameDocument n n') (hitems : SameItems n n') :
    SameItems (n + 1) (n' + 1) := by
  intro depth cs hn hn'
  rw [items?_succ, items?_succ, hdocument depth cs (by omega) (by omega)]
  apply ((leaves_reading n').1 depth cs).bind_congr
  intro p hp
  rw [same_afterItem hitems (by omega) (by omega)]

theorem same_afterMember (hmembers : SameMembers n n') (hn : 2 * cs.length + 1 ≤ n)
    (hn' : 2 * cs.length + 1 ≤ n') : afterMember? n depth cs = afterMember? n' depth cs := by
  have hle := length_skip_le cs
  unfold afterMember?
  generalize skip cs = cs' at hle
  split
  · next r =>
    rw [List.length_cons] at hle
    exact hmembers depth r (by omega) (by omega)
  · rfl
  · rfl

theorem same_afterKey (hdocument : SameDocument n n') (hmembers : SameMembers n n')
    (hn : 2 * cs.length + 1 ≤ n) (hn' : 2 * cs.length + 1 ≤ n') :
    afterKey? n depth cs = afterKey? n' depth cs := by
  have hle := length_skip_le cs
  unfold afterKey?
  generalize skip cs = cs' at hle
  split
  · next r =>
    rw [List.length_cons] at hle
    rw [hdocument depth r (by omega) (by omega)]
    apply ((leaves_reading n').1 depth r).bind_congr
    intro p hp
    rw [same_afterMember hmembers (by omega) (by omega)]
  · rfl

theorem same_members_succ (hdocument : SameDocument n n') (hmembers : SameMembers n n') :
    SameMembers (n + 1) (n' + 1) := by
  intro depth cs hn hn'
  by_cases hkey : ∃ r, skip cs = '"' :: r
  · obtain ⟨r, hskip⟩ := hkey
    have hlt := lt_of_skip hskip
    rw [members?_key hskip, members?_key hskip]
    apply (leaves_text r).bind_congr
    intro p hp
    rw [same_afterKey hdocument hmembers (by omega) (by omega)]
  · have hnone (r : List Char) : skip cs ≠ '"' :: r := fun hskip => hkey ⟨r, hskip⟩
    rw [members?_eq_none hnone, members?_eq_none hnone]

theorem same_reading (n : Nat) : ∀ n', SameDocument n n' ∧ SameItems n n' ∧ SameMembers n n' := by
  induction n with
  | zero =>
    intro n'
    exact ⟨fun _ _ h => by omega, fun _ _ h => by omega, fun _ _ h => by omega⟩
  | succ n ih =>
    intro n'
    cases n' with
    | zero => exact ⟨fun _ _ _ h => by omega, fun _ _ _ h => by omega, fun _ _ _ h => by omega⟩
    | succ n' =>
      obtain ⟨hdocument, hitems, hmembers⟩ := ih n'
      exact ⟨same_document_succ hitems hmembers, same_items_succ hdocument hitems,
        same_members_succ hdocument hmembers⟩

/-- With more fuel the same document is read. -/
theorem document?_fuel (hfuel : 2 * cs.length + 2 ≤ fuel) :
    document? fuel depth cs = document? (2 * cs.length + 2) depth cs :=
  (same_reading fuel (2 * cs.length + 2)).1 depth cs hfuel (Nat.le_refl _)

/-! ## More fuel for what is found -/

namespace Sketch

/-- A part that is passed takes something of the text. -/
theorem length_lt_of_pass {s : Sketch} (h : s.pass fuel depth cs = .ok rest) :
    rest.length < cs.length := by
  obtain ⟨j, hread, -⟩ := document_of_pass h
  have hleaves := (leaves_reading fuel).1 depth cs
  rw [hread, leaves_some] at hleaves
  exact hleaves

theorem enter_eq_ok {s : Sketch} {empty : Json} (h : s.enter depth empty cs = .ok r) : cs = r := by
  rw [enter] at h
  split at h
  · cases h
  · split at h
    · cases h
    · exact Except.ok.inj h

theorem length_lt_of_passKey {strict : Bool} {p : String × List Char}
    (h : passKey strict cs = .ok p) : p.2.length < cs.length := by
  have htext := leaves_text cs
  rw [passKey] at h
  split at h
  · next hread =>
    rw [hread, leaves_some] at htext
    cases h
    exact htext
  · next hread =>
    rw [hread, leaves_some] at htext
    split at h
    · cases h
    · cases h
      exact htext
  · cases h

theorem bind_congr {β γ ε : Type} {x : Except ε β} {f f' : β → Except ε γ}
    (h : ∀ b, x = .ok b → f b = f' b) : x >>= f = x >>= f' := by
  cases x with
  | error e => rfl
  | ok b => exact h b rfl

/-- Two amounts of fuel find the same in each text that both are enough for. -/
def SamePass (n n' : Nat) : Prop :=
  ∀ depth (s : Sketch) cs, 2 * cs.length + 2 ≤ n → 2 * cs.length + 2 ≤ n' →
    s.pass n depth cs = s.pass n' depth cs

def SamePassItems (n n' : Nat) : Prop :=
  ∀ depth (s : Sketch) i cs, 2 * cs.length + 3 ≤ n → 2 * cs.length + 3 ≤ n' →
    s.passItems n depth i cs = s.passItems n' depth i cs

def SamePassMembers (n n' : Nat) : Prop :=
  ∀ depth (s : Sketch) seen cs, 2 * cs.length + 3 ≤ n → 2 * cs.length + 3 ≤ n' →
    s.passMembers n depth seen cs = s.passMembers n' depth seen cs

theorem same_pass_succ (hitems : SamePassItems n n') (hmembers : SamePassMembers n n') :
    SamePass (n + 1) (n' + 1) := by
  intro depth s cs hn hn'
  rw [pass_succ, pass_succ]
  have hle := length_skip_le cs
  generalize skip cs = cs' at hle
  split
  · next r =>
    have hr := length_skip_le r
    rw [List.length_cons] at hle
    apply bind_congr
    intro r' henter
    obtain rfl := enter_eq_ok henter
    unfold passList
    split
    · rfl
    · rfl
    · exact hitems (depth + 1) s.present 0 (skip r) (by omega) (by omega)
  · next r =>
    have hr := length_skip_le r
    rw [List.length_cons] at hle
    apply bind_congr
    intro r' henter
    obtain rfl := enter_eq_ok henter
    unfold passObject
    split
    · rfl
    · rfl
    · exact hmembers (depth + 1) s.present [] (skip r) (by omega) (by omega)
  · rfl

theorem same_passAfterItem (hitems : SamePassItems n n') {s : Sketch} {i : Nat}
    (hn : 2 * cs.length + 1 ≤ n) (hn' : 2 * cs.length + 1 ≤ n') :
    passAfterItem n depth s i cs = passAfterItem n' depth s i cs := by
  have hle := length_skip_le cs
  unfold passAfterItem
  generalize skip cs = cs' at hle
  split
  · rfl
  · next r =>
    have hr := length_skip_le r
    rw [List.length_cons] at hle
    split
    · rfl
    · exact hitems depth s i (skip r) (by omega) (by omega)
  · rfl
  · rfl

theorem same_passItems_succ (hpass : SamePass n n') (hitems : SamePassItems n n') :
    SamePassItems (n + 1) (n' + 1) := by
  intro depth s i cs hn hn'
  cases hitem : s.item? i with
  | none => rw [passItems, passItems, hitem]
  | some item =>
    rw [passItems_succ hitem, passItems_succ hitem, hpass depth item cs (by omega) (by omega)]
    apply bind_congr
    intro r hr
    have hlt := length_lt_of_pass hr
    exact same_passAfterItem hitems (by omega) (by omega)

theorem same_passAfterMember (hmembers : SamePassMembers n n') {s : Sketch} {seen : List String}
    (hn : 2 * cs.length + 1 ≤ n) (hn' : 2 * cs.length + 1 ≤ n') :
    passAfterMember n depth s seen cs = passAfterMember n' depth s seen cs := by
  have hle := length_skip_le cs
  unfold passAfterMember
  generalize skip cs = cs' at hle
  split
  · rfl
  · next r =>
    have hr := length_skip_le r
    rw [List.length_cons] at hle
    split
    · rfl
    · rfl
    · exact hmembers depth s seen (skip r) (by omega) (by omega)
  · rfl
  · rfl

theorem same_passAfterKey (hpass : SamePass n n') (hmembers : SamePassMembers n n')
    {s part : Sketch} {seen : List String} (hn : 2 * cs.length + 1 ≤ n)
    (hn' : 2 * cs.length + 1 ≤ n') :
    passAfterKey n depth s part seen cs = passAfterKey n' depth s part seen cs := by
  have hle := length_skip_le cs
  unfold passAfterKey
  generalize skip cs = cs' at hle
  split
  · rfl
  · next r =>
    rw [List.length_cons] at hle
    rw [hpass depth part r (by omega) (by omega)]
    apply bind_congr
    intro rest hrest
    have hlt := length_lt_of_pass hrest
    exact same_passAfterMember hmembers (by omega) (by omega)
  · rfl

theorem same_passMembers_succ (hpass : SamePass n n') (hmembers : SamePassMembers n n') :
    SamePassMembers (n + 1) (n' + 1) := by
  intro depth s seen cs hn hn'
  rw [passMembers_succ, passMembers_succ]
  split
  · next r =>
    rw [List.length_cons] at hn hn'
    apply bind_congr
    intro p hp
    have hkey := length_lt_of_passKey hp
    apply bind_congr
    intro part _
    exact same_passAfterKey hpass hmembers (by omega) (by omega)
  · rfl

theorem same_pass (n : Nat) : ∀ n', SamePass n n' ∧ SamePassItems n n' ∧ SamePassMembers n n' := by
  induction n with
  | zero =>
    intro n'
    exact ⟨fun _ _ _ h => by omega, fun _ _ _ _ h => by omega, fun _ _ _ _ h => by omega⟩
  | succ n ih =>
    intro n'
    cases n' with
    | zero =>
      exact ⟨fun _ _ _ _ h => by omega, fun _ _ _ _ _ h => by omega,
        fun _ _ _ _ _ h => by omega⟩
    | succ n' =>
      obtain ⟨hpass, hitems, hmembers⟩ := ih n'
      exact ⟨same_pass_succ hitems hmembers, same_passItems_succ hpass hitems,
        same_passMembers_succ hpass hmembers⟩

/-- With more fuel the same is found. -/
theorem pass_fuel {s : Sketch} (hfuel : 2 * cs.length + 2 ≤ fuel) :
    s.pass fuel depth cs = s.pass (2 * cs.length + 2) depth cs :=
  (same_pass fuel (2 * cs.length + 2)).1 depth s cs hfuel (Nat.le_refl _)

end Sketch

end AnalysisGate.Json
