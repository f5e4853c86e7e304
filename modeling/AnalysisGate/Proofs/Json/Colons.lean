import AnalysisGate.Proofs.Json.Documents
import Mathlib

/-!
Colons in compact texts.

A colon in the text of a document stands between quotes or inside a container, so what follows it
is never the whole text of a document: it would close more than it opens, or it would have its
quotes the wrong way round (`compact_ne_after_colon`). A name, a colon and a text can therefore be
taken apart again, whatever characters the name has (`named_append_inj`).
-/
namespace AnalysisGate.Json

/-! ## Scans -/

/-- Where a scan stands: between tokens, between quotes, after a backslash between quotes, or
after a backslash that no quote comes before. -/
inductive Mode
  | plain
  | quoted
  | escaped
  | stuck
  deriving DecidableEq

/-- A scan has a mode, and a level that every container raises while it is open. -/
structure Scan where
  mode : Mode
  level : Int

namespace Scan

def step (s : Scan) (c : Char) : Scan :=
  match s.mode with
  | .plain =>
    if c = '"' then ⟨.quoted, s.level⟩
    else if c = '\\' then ⟨.stuck, s.level⟩
    else if c = '[' ∨ c = '\x7b' then ⟨.plain, s.level + 1⟩
    else if c = ']' ∨ c = '\x7d' then ⟨.plain, s.level - 1⟩
    else s
  | .quoted =>
    if c = '"' then ⟨.plain, s.level⟩
    else if c = '\\' then ⟨.escaped, s.level⟩
    else s
  | .escaped => ⟨.quoted, s.level⟩
  | .stuck => s

def run (s : Scan) (cs : List Char) : Scan := cs.foldl step s

theorem run_append (s : Scan) (a b : List Char) : s.run (a ++ b) = (s.run a).run b :=
  List.foldl_append

/-- Where a scan stands after each colon. -/
def afterColons (s : Scan) : List Char → List Scan
  | [] => []
  | c :: rest => (if c = ':' then [s.step c] else []) ++ afterColons (s.step c) rest

theorem afterColons_append (s : Scan) (a b : List Char) :
    s.afterColons (a ++ b) = s.afterColons a ++ (s.run a).afterColons b := by
  induction a generalizing s with
  | nil => rfl
  | cons c a ih =>
    rw [List.cons_append, afterColons, ih, afterColons, List.append_assoc]
    rfl

/-- Between quotes, or inside a container that is opened at a level. -/
def Inside (n : Int) (s : Scan) : Prop := s.mode = .quoted ∨ s.mode = .plain ∧ n < s.level

/-- A text takes a scan from one state to another, and all its colons are inside. -/
structure Passes (n : Int) (s : Scan) (cs : List Char) (t : Scan) : Prop where
  run : s.run cs = t
  colons : ∀ u ∈ s.afterColons cs, Inside n u

namespace Passes

variable {m n : Int} {s t u : Scan} {a b : List Char} {c : Char}

theorem nil (n : Int) (s : Scan) : Passes n s [] s := ⟨rfl, by simp [afterColons]⟩

theorem append (ha : Passes n s a t) (hb : Passes n t b u) : Passes n s (a ++ b) u where
  run := by rw [run_append, ha.run, hb.run]
  colons v hv := by
    rw [afterColons_append, List.mem_append, ha.run] at hv
    exact hv.elim (ha.colons v) (hb.colons v)

theorem cons (hc : Passes n s [c] t) (hb : Passes n t b u) : Passes n s (c :: b) u :=
  hc.append hb

/-- A character that is no colon only moves the scan. -/
theorem char (hc : c ≠ ':') : Passes n s [c] (s.step c) := ⟨rfl, by simp [afterColons, hc]⟩

theorem colon (h : Inside n (s.step ':')) : Passes n s [':'] (s.step ':') :=
  ⟨rfl, by simpa [afterColons] using h⟩

/-- What is inside a container is inside those around it. -/
theorem mono (h : Passes m s a t) (hle : n ≤ m) : Passes n s a t :=
  ⟨h.run, fun u hu => (h.colons u hu).imp id fun ⟨hmode, hlevel⟩ =>
    ⟨hmode, Int.lt_of_le_of_lt hle hlevel⟩⟩

/-- Characters that leave the scan where it is. -/
theorem still (h : ∀ c ∈ a, c ≠ ':' ∧ s.step c = s) : Passes n s a s := by
  induction a with
  | nil => exact nil n s
  | cons c a ih =>
    rw [List.forall_mem_cons] at h
    have hc : Passes n s [c] (s.step c) := char h.1.1
    rw [h.1.2] at hc
    exact hc.cons (ih h.2)

end Passes

/-! ## Scalars -/

/-- A character that tells nothing between tokens. -/
def Neutral (c : Char) : Prop := c ∉ ['"', '\\', '[', ']', '\x7b', '\x7d', ':']

theorem step_neutral {c : Char} (hc : Neutral c) (n : Int) :
    c ≠ ':' ∧ step ⟨.plain, n⟩ c = ⟨.plain, n⟩ := by
  simp only [Neutral, List.mem_cons, List.not_mem_nil, or_false, not_or] at hc
  obtain ⟨hquote, hslash, hopen, hclose, hopen', hclose', hcolon⟩ := hc
  exact ⟨hcolon, by simp [step, hquote, hslash, hopen, hclose, hopen', hclose']⟩

theorem neutral_digit {c : Char} (h : Numeral.isDigit c = true) : Neutral c := by
  intro hmem
  simp only [List.mem_cons, List.not_mem_nil, or_false] at hmem
  rcases hmem with rfl | rfl | rfl | rfl | rfl | rfl | rfl <;> exact absurd h (by decide)

/-- The text of a number has digits, a point, signs and the letter of a power only. -/
theorem neutral_numeral {sp : Spelling} (hsp : sp.Sound) {c : Char} (hc : c ∈ sp.text) :
    Neutral c := by
  simp only [Spelling.text, List.mem_append] at hc
  rcases hc with ((hc | hc) | hc) | hc
  · split at hc
    · obtain rfl := List.mem_singleton.1 hc
      simp [Neutral]
    · cases hc
  · exact neutral_digit (hsp.whole.2 c hc)
  · cases hf : sp.fraction with
    | none => simp [hf, Spelling.fractionText] at hc
    | some ds =>
      rw [hf, Spelling.fractionText, List.mem_cons] at hc
      rcases hc with rfl | hc
      · simp [Neutral]
      · exact neutral_digit ((hsp.fraction ds hf).2 c hc)
  · cases he : sp.exponent with
    | none => simp [he, Spelling.exponentText] at hc
    | some e =>
      obtain ⟨negative, ds⟩ := e
      rw [he, Spelling.exponentText, List.mem_cons, List.mem_cons] at hc
      rcases hc with rfl | rfl | hc
      · simp [Neutral]
      · cases negative <;> simp [Neutral]
      · exact neutral_digit ((hsp.exponent negative ds he).2 c hc)

theorem inside_quoted (n m : Int) : Inside n ⟨.quoted, m⟩ := .inl rfl

/-- Between quotes the spelling of a character comes back to where it starts. -/
theorem passes_escape (n m : Int) (c : Char) :
    Passes n ⟨.quoted, m⟩ (escape c) ⟨.quoted, m⟩ := by
  -- an escape by a letter, one by a code, or the character itself, which may be a colon
  by_cases hletter : c ∈ ['"', '\\', '\n', '\r', '\t', '\x08', '\x0c']
  · have hpair : ∃ d, escape c = ['\\', d] ∧ d ≠ ':' := by
      simp only [List.mem_cons, List.not_mem_nil, or_false] at hletter
      rcases hletter with rfl | rfl | rfl | rfl | rfl | rfl | rfl <;>
        exact ⟨_, rfl, by decide⟩
    obtain ⟨d, hd, hcolon⟩ := hpair
    rw [hd]
    exact (Passes.char (by decide)).cons (Passes.char hcolon)
  · simp only [List.mem_cons, List.not_mem_nil, or_false, not_or] at hletter
    obtain ⟨hquote, hslash, hn, hr, ht, hb, hf⟩ := hletter
    by_cases hcontrol : c.toNat < 0x20
    · have hdigit {k : Nat} (hk : k < 16) : Numeral.hexDigit k ≠ ':' ∧
          step ⟨.quoted, m⟩ (Numeral.hexDigit k) = ⟨.quoted, m⟩ := by
        have hplain : Numeral.hexDigit k ∉ [':', '"', '\\'] := by interval_cases k <;> decide
        simp only [List.mem_cons, List.not_mem_nil, or_false, not_or] at hplain
        exact ⟨hplain.1, by simp [step, hplain.2.1, hplain.2.2]⟩
      have hcode : escape c = ['\\', 'u'] ++ ['0', '0', Numeral.hexDigit (c.toNat / 16),
          Numeral.hexDigit (c.toNat % 16)] := by
        simp [escape, hquote, hslash, hn, hr, ht, hb, hf, hcontrol]
      have hmark : Passes n ⟨.quoted, m⟩ ['\\', 'u'] ⟨.quoted, m⟩ :=
        (Passes.char (by decide)).cons (Passes.char (by decide))
      rw [hcode]
      refine hmark.append (Passes.still fun d hd => ?_)
      simp only [List.mem_cons, List.not_mem_nil, or_false] at hd
      rcases hd with rfl | rfl | rfl | rfl
      · exact ⟨by decide, rfl⟩
      · exact ⟨by decide, rfl⟩
      · exact hdigit (by omega)
      · exact hdigit (by omega)
    · have hself : escape c = [c] := by
        simp [escape, hquote, hslash, hn, hr, ht, hb, hf, hcontrol]
      have hstep : step ⟨.quoted, m⟩ c = ⟨.quoted, m⟩ := by simp [step, hquote, hslash]
      rw [hself]
      by_cases hcolon : c = ':'
      · subst hcolon
        exact Passes.colon (inside_quoted n m)
      · have hchar : Passes n ⟨.quoted, m⟩ [c] (step ⟨.quoted, m⟩ c) := Passes.char hcolon
        rwa [hstep] at hchar

theorem passes_stringText (n m : Int) (s : String) :
    Passes n ⟨.plain, m⟩ (stringText s) ⟨.plain, m⟩ := by
  have hbody (cs : List Char) :
      Passes n ⟨.quoted, m⟩ (cs.flatMap escape) ⟨.quoted, m⟩ := by
    induction cs with
    | nil => exact .nil n _
    | cons c cs ih =>
      rw [List.flatMap_cons]
      exact (passes_escape n m c).append ih
  have hopen : Passes n ⟨.plain, m⟩ ['"'] ⟨.quoted, m⟩ := Passes.char (by decide)
  have hclose : Passes n ⟨.quoted, m⟩ ['"'] ⟨.plain, m⟩ := Passes.char (by decide)
  exact hopen.cons ((hbody s.toList).append hclose)

/-! ## Containers -/

/-- At every level a text comes back to where it starts. -/
def Closed (cs : List Char) : Prop := ∀ n, Passes n ⟨.plain, n⟩ cs ⟨.plain, n⟩

theorem Closed.deeper {cs : List Char} (h : Closed cs) (n : Int) :
    Passes n ⟨.plain, n + 1⟩ cs ⟨.plain, n + 1⟩ :=
  (h (n + 1)).mono (by omega)

theorem passes_comma (n m : Int) : Passes n ⟨.plain, m⟩ [','] ⟨.plain, m⟩ :=
  Passes.char (by decide)

theorem passes_close (n : Int) {c : Char} (hc : c = ']' ∨ c = '\x7d') :
    Passes n ⟨.plain, n + 1⟩ [c] ⟨.plain, n⟩ := by
  have hlevel : n + 1 - 1 = n := by omega
  rcases hc with rfl | rfl
  · have h : Passes n ⟨.plain, n + 1⟩ [']'] ⟨.plain, n + 1 - 1⟩ := Passes.char (by decide)
    rwa [hlevel] at h
  · have h : Passes n ⟨.plain, n + 1⟩ ['\x7d'] ⟨.plain, n + 1 - 1⟩ := Passes.char (by decide)
    rwa [hlevel] at h

theorem passes_items (n : Int) {l : List Json} (hl : ∀ j ∈ l, Closed (compact j)) :
    Passes n ⟨.plain, n + 1⟩ (compactItems l) ⟨.plain, n⟩ := by
  induction l with
  | nil => exact passes_close n (.inl rfl)
  | cons j l ih =>
    rw [List.forall_mem_cons] at hl
    exact (passes_comma n _).cons ((hl.1.deeper n).append (ih hl.2))

/-- The colon after a key is inside the object. -/
theorem passes_member (n : Int) (k : String) {cs : List Char} (hcs : Closed cs) :
    Passes n ⟨.plain, n + 1⟩ (stringText k ++ ':' :: cs) ⟨.plain, n + 1⟩ := by
  have hcolon : Passes n ⟨.plain, n + 1⟩ [':'] ⟨.plain, n + 1⟩ :=
    Passes.colon (.inr ⟨rfl, Int.lt_succ n⟩)
  exact (passes_stringText n _ k).append (hcolon.cons (hcs.deeper n))

theorem passes_members (n : Int) {l : List (String × Json)}
    (hl : ∀ e ∈ l, Closed (compact e.2)) :
    Passes n ⟨.plain, n + 1⟩ (compactMembers l) ⟨.plain, n⟩ := by
  induction l with
  | nil => exact passes_close n (.inr rfl)
  | cons e l ih =>
    obtain ⟨k, j⟩ := e
    rw [List.forall_mem_cons] at hl
    have hmember := (passes_member n k hl.1).append (ih hl.2)
    rw [List.append_assoc, List.cons_append] at hmember
    exact (passes_comma n _).cons hmember

/-- **The text of a document opens and closes alike, and has its colons inside.** -/
theorem closed_compact (j : Json) : Closed (compact j) := by
  induction j using induct with
  | null | beyond =>
    intro n
    refine Passes.still fun c hc => step_neutral ?_ n
    change c ∈ ['n', 'u', 'l', 'l'] at hc
    simp only [List.mem_cons, List.not_mem_nil, or_false] at hc
    rcases hc with rfl | rfl | rfl | rfl <;> simp [Neutral]
  | bool b =>
    intro n
    refine Passes.still fun c hc => step_neutral ?_ n
    cases b with
    | true =>
      change c ∈ ['t', 'r', 'u', 'e'] at hc
      simp only [List.mem_cons, List.not_mem_nil, or_false] at hc
      rcases hc with rfl | rfl | rfl | rfl <;> simp [Neutral]
    | false =>
      change c ∈ ['f', 'a', 'l', 's', 'e'] at hc
      simp only [List.mem_cons, List.not_mem_nil, or_false] at hc
      rcases hc with rfl | rfl | rfl | rfl | rfl <;> simp [Neutral]
  | number x =>
    intro n
    obtain ⟨sp, hsp, htext⟩ := exists_spelling x
    rw [compact, htext]
    exact Passes.still fun c hc => step_neutral (neutral_numeral hsp hc) n
  | string s => exact fun n => passes_stringText n n s
  | array l ih =>
    intro n
    have hopen : Passes n ⟨.plain, n⟩ ['['] ⟨.plain, n + 1⟩ := Passes.char (by decide)
    cases l with
    | nil => exact hopen.cons (passes_close n (.inl rfl))
    | cons j l =>
      rw [List.forall_mem_cons] at ih
      exact hopen.cons ((ih.1.deeper n).append (passes_items n ih.2))
  | object l ih =>
    intro n
    have hopen : Passes n ⟨.plain, n⟩ ['\x7b'] ⟨.plain, n + 1⟩ := Passes.char (by decide)
    cases l with
    | nil => exact hopen.cons (passes_close n (.inr rfl))
    | cons e l =>
      obtain ⟨k, j⟩ := e
      rw [List.forall_mem_cons] at ih
      have hmember := (passes_member n k ih.1).append (passes_members n ih.2)
      rw [List.append_assoc, List.cons_append] at hmember
      exact hopen.cons hmember

/-! ## Scans from the wrong place -/

/-- A scan that starts higher ends higher. -/
theorem run_raise (mode : Mode) (n d : Int) (cs : List Char) :
    run ⟨mode, n + d⟩ cs = ⟨(run ⟨mode, n⟩ cs).mode, (run ⟨mode, n⟩ cs).level + d⟩ := by
  induction cs generalizing mode n with
  | nil => rfl
  | cons c cs ih =>
    have hstep : step ⟨mode, n + d⟩ c =
        ⟨(step ⟨mode, n⟩ c).mode, (step ⟨mode, n⟩ c).level + d⟩ := by
      cases mode <;> simp only [step] <;> repeat' split
      all_goals first | rfl | (simp only [Scan.mk.injEq, true_and]; omega)
    change run (step ⟨mode, n + d⟩ c) cs = _
    rw [hstep, ih]
    rfl

/-- Of two scans one is between quotes where the other is not, or one of them is stuck. -/
def Opposed (a b : Mode) : Prop :=
  a = .stuck ∨ b = .stuck ∨ a = .plain ∧ b = .quoted ∨ a = .quoted ∧ b = .plain

theorem Opposed.step {s t : Scan} (h : Opposed s.mode t.mode) (c : Char) :
    Opposed (s.step c).mode (t.step c).mode := by
  obtain ⟨m, n⟩ := s
  obtain ⟨m', n'⟩ := t
  rcases h with h | h | ⟨h, h'⟩ | ⟨h, h'⟩
  · exact .inl (by simp only at h; simp [Scan.step, h])
  · exact .inr (.inl (by simp only at h; simp [Scan.step, h]))
  · -- a quote turns both round, and a backslash stops the one that is not between quotes
    simp only at h h'
    subst h h'
    simp only [Scan.step]
    repeat' split
    all_goals simp_all [Opposed]
  · simp only at h h'
    subst h h'
    simp only [Scan.step]
    repeat' split
    all_goals simp_all [Opposed]

theorem Opposed.run {s t : Scan} (h : Opposed s.mode t.mode) (cs : List Char) :
    Opposed (s.run cs).mode (t.run cs).mode := by
  induction cs generalizing s t with
  | nil => exact h
  | cons c cs ih => exact ih (h.step c)

end Scan

open Scan

/-- **What follows a colon in the text of a document is never the text of a document.** -/
theorem compact_ne_after_colon {j : Json} {before after : List Char}
    (h : compact j = before ++ ':' :: after) (j' : Json) : after ≠ compact j' := by
  intro hafter
  have hpasses := closed_compact j 0
  have hsplit : compact j = (before ++ [':']) ++ after := by rw [h, List.append_assoc]; rfl
  generalize hs : Scan.run ⟨.plain, 0⟩ (before ++ [':']) = s
  have hend : s.run after = ⟨.plain, 0⟩ := by
    rw [← hs, ← run_append, ← hsplit, hpasses.run]
  have hwhole : Scan.run ⟨.plain, 0⟩ after = ⟨.plain, 0⟩ := hafter ▸ (closed_compact j' 0).run
  -- at a colon the scan is in a string or below the top level
  have hinside : Inside 0 s := by
    apply hpasses.colons
    rw [hsplit, afterColons_append, afterColons_append, ← hs, run_append]
    simp [afterColons, Scan.run]
  obtain ⟨mode, level⟩ := s
  rcases hinside with hquoted | ⟨hplain, hlevel⟩
  · -- a quote opens in one reading what it closes in the other, so they cannot end alike
    simp only at hquoted
    subst hquoted
    have hopposed :
        Opposed (Scan.run ⟨.plain, 0⟩ after).mode (Scan.run ⟨.quoted, level⟩ after).mode :=
      Opposed.run (.inr (.inr (.inl ⟨rfl, rfl⟩))) after
    rw [hwhole, hend] at hopposed
    simp [Opposed] at hopposed
  · -- outside of quotes the colon is inside an object, which a whole text after it leaves open
    simp only at hplain hlevel
    subst hplain
    have hraised := run_raise .plain 0 level after
    rw [Int.zero_add, hend, hwhole] at hraised
    have hzero : (0 : Int) = 0 + level := congrArg Scan.level hraised
    omega

/-- A name and a text that a colon parts are found again. -/
theorem named_append_inj {name name' : List Char} {j j' : Json}
    (h : name ++ ':' :: compact j = name' ++ ':' :: compact j') :
    name = name' ∧ compact j = compact j' := by
  -- a longer name would have a colon, and the other text after it
  have hlonger {a : List Char} {i i' : Json} (h : ':' :: compact i = a ++ ':' :: compact i') :
      a = [] ∧ compact i = compact i' := by
    cases a with
    | nil => exact ⟨rfl, (List.cons.inj h).2⟩
    | cons c a => exact absurd rfl (compact_ne_after_colon (List.cons.inj h).2 i')
  rcases List.append_eq_append_iff.1 h with ⟨a, rfl, htext⟩ | ⟨a, rfl, htext⟩
  · obtain ⟨rfl, hsame⟩ := hlonger htext
    exact ⟨(List.append_nil name).symm, hsame⟩
  · obtain ⟨rfl, hsame⟩ := hlonger htext
    exact ⟨List.append_nil name', hsame.symm⟩

end AnalysisGate.Json
