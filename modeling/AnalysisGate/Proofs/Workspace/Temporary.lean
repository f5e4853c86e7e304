import AnalysisGate.Proofs.Workspace.Replacement
import Mathlib

/-!
Temporary files.

A path with another extension names a sibling: all its steps but the last are those of the path
itself, and the last is another name. So a temporary file can replace the file that it is for. The
directory of both is the parent of the path (`Parted.exists_parent`).
-/
namespace AnalysisGate

namespace Path

/-! ## Parts of a text -/

theorem pieces_ne_nil (cs : List Char) : pieces cs ≠ [] := by
  cases cs with
  | nil => simp [pieces]
  | cons c cs =>
    rw [pieces]
    split
    · simp
    · split <;> simp

theorem pieces_append (a b : List Char) : pieces (a ++ '/' :: b) = pieces a ++ pieces b := by
  induction a with
  | nil => simp [pieces]
  | cons c a ih =>
    by_cases hc : c = '/'
    · subst hc
      simp [pieces, ih]
    · obtain ⟨s, ss, hs⟩ := List.exists_cons_of_ne_nil (pieces_ne_nil a)
      simp [pieces, hc, ih, hs]

theorem pieces_of_plain {s : List Char} (h : '/' ∉ s) : pieces s = [s] := by
  induction s with
  | nil => rfl
  | cons c s ih =>
    simp only [List.mem_cons, not_or] at h
    simp [pieces, Ne.symm h.1, ih h.2]

/-- A text parted before its last piece. -/
structure Parted (text before last : List Char) : Prop where
  text : text = before ++ last
  plain : '/' ∉ last
  slash : before = [] ∨ ∃ front, before = front ++ ['/']

theorem exists_parted (text : List Char) : ∃ before last, Parted text before last := by
  induction text with
  | nil => exact ⟨[], [], rfl, by simp, .inl rfl⟩
  | cons c text ih =>
    obtain ⟨before, last, h⟩ := ih
    rcases h.slash with rfl | ⟨front, rfl⟩
    · by_cases hc : c = '/'
      · exact ⟨['/'], last, by simp [h.text, hc], h.plain, .inr ⟨[], rfl⟩⟩
      · refine ⟨[], c :: last, by simp [h.text], ?_, .inl rfl⟩
        simp [Ne.symm hc, h.plain]
    · exact ⟨c :: (front ++ ['/']), last, by simp [h.text], h.plain, .inr ⟨c :: front, rfl⟩⟩

/-- The pieces before the last. -/
def piecesBefore (before : List Char) : List (List Char) :=
  if before = [] then [] else pieces before.dropLast

theorem Parted.pieces {text before last : List Char} (h : Parted text before last) :
    pieces text = piecesBefore before ++ [last] := by
  rw [h.text, piecesBefore]
  rcases h.slash with rfl | ⟨front, rfl⟩
  · simp [pieces_of_plain h.plain]
  · simp [pieces_append, pieces_of_plain h.plain]

/-! ## Steps -/

/-- A last piece that is the name of an entry. -/
structure NamesEntry (last : List Char) : Prop where
  nonempty : last ≠ []
  notHere : last ≠ ['.']
  notUp : last ≠ ['.', '.']

theorem NamesEntry.ofList {last : List Char} (h : NamesEntry last) :
    String.ofList last ≠ "." ∧ String.ofList last ≠ ".." := by
  constructor
  · intro heq
    exact h.notHere (String.ofList_injective heq)
  · intro heq
    exact h.notUp (String.ofList_injective heq)

/-- The steps before the last. -/
def stepsBefore (before : List Char) : List String :=
  ((piecesBefore before).filter (· ≠ [])).map String.ofList

theorem Parted.plainSteps {p : Path} {before last : List Char}
    (h : Parted p.text.toList before last) (hlast : last ≠ []) :
    Workspace.plainSteps p = stepsBefore before ++ [String.ofList last] := by
  rw [Workspace.plainSteps, h.pieces, List.filter_append, List.map_append, stepsBefore]
  simp [hlast]

theorem Parted.steps {text : String} {before last : List Char}
    (h : Parted text.toList before last) (hlast : last ≠ []) :
    Workspace.steps text = stepsBefore before ++ [String.ofList last] := by
  rw [Workspace.steps]
  simp only [h.pieces, List.filter_append, List.map_append, stepsBefore]
  simp [hlast]

theorem Parted.isAbsolute {p : Path} {before last : List Char}
    (h : Parted p.text.toList before last) : p.isAbsolute = (before.head? == some '/') := by
  rw [Path.isAbsolute, h.text]
  rcases h.slash with rfl | ⟨front, rfl⟩
  · cases last with
    | nil => rfl
    | cons c last =>
      have hc : c ≠ '/' := fun heq => h.plain (by simp [heq])
      simp [hc]
  · cases front <;> simp

/-! ## Another extension -/

theorem Parted.fileName? {p : Path} {before last : List Char}
    (h : Parted p.text.toList before last) (hname : NamesEntry last) :
    p.fileName? = some (String.ofList last) := by
  have hcomponent : component? last = some (.name (String.ofList last)) := by
    simp [component?, hname.nonempty, hname.notHere, hname.notUp]
  have hlast : p.components.getLast? = some (.name (String.ofList last)) := by
    rw [components, h.pieces, List.filterMap_append]
    simp [hcomponent]
  rw [Path.fileName?, hlast]

/-- Nothing is trimmed from a text that ends in the name of an entry. -/
theorem Parted.trimTail {text before last : List Char} (h : Parted text before last)
    (hname : NamesEntry last) : trimTail text.reverse = text.reverse := by
  have hplain (c : Char) (hc : c ∈ last.reverse) : c ≠ '/' := by
    rintro rfl
    exact h.plain (List.mem_reverse.1 hc)
  have hnonempty : last.reverse ≠ [] := by simpa using hname.nonempty
  have hdot : last.reverse ≠ ['.'] := by simpa [List.reverse_eq_iff] using hname.notHere
  rw [h.text, List.reverse_append]
  generalize last.reverse = l at hplain hnonempty hdot
  unfold Path.trimTail
  split
  · next heq =>
    cases l with
    | nil => exact absurd rfl hnonempty
    | cons c l => exact absurd (List.cons.inj heq).1 (hplain c (by simp))
  · next heq =>
    rcases l with _ | ⟨c, _ | ⟨d, l⟩⟩
    · exact absurd rfl hnonempty
    · exact absurd (by rw [(List.cons.inj heq).1]) hdot
    · exact absurd (List.cons.inj (List.cons.inj heq).2).1 (hplain d (by simp))
  · rfl

theorem stem_starts (cs : List Char) : (splitName cs).1 <+: cs := by
  rw [splitName]
  split
  · exact List.prefix_refl cs
  · exact (List.dropLast_prefix _).trans (List.take_prefix _ _)

/-- An extension with a dot in it is never the one that a name has. -/
theorem splitName_append_ne {cs e f : List Char} (hf : '.' ∉ f) :
    (splitName cs).1 ++ '.' :: (e ++ '.' :: f) ≠ cs := by
  intro h
  -- the stem of such a name has all of the extension but what follows its last dot
  have hstem : (splitName cs).1 = (splitName cs).1 ++ '.' :: e := by
    generalize hlong : (splitName cs).1 ++ '.' :: e = stem
    have hcs : cs = stem ++ '.' :: f := by
      rw [← hlong, List.append_assoc]
      exact h.symm
    have hplain : ∀ c ∈ f.reverse, (c != '.') = true := by
      intro c hc
      rw [bne_iff_ne]
      rintro rfl
      exact hf (List.mem_reverse.1 hc)
    have hafter : (cs.reverse.takeWhile (· != '.')).reverse = f := by
      rw [hcs, List.reverse_append, List.reverse_cons, List.append_assoc,
        List.takeWhile_append_of_pos hplain]
      simp
    have hbefore : cs.take (cs.length - f.length) = stem ++ ['.'] := by
      rw [hcs, List.append_cons]
      exact List.take_left' (by simp; omega)
    have hne : stem ≠ [] := by
      rw [← hlong]
      simp
    rw [splitName, hafter, hbefore, List.dropLast_concat]
    cases stem with
    | nil => exact absurd rfl hne
    | cons c stem => rfl
  have hlength := congrArg List.length hstem
  simp at hlength

theorem Parted.withExtension {p : Path} {before last : List Char}
    (h : Parted p.text.toList before last) (hname : NamesEntry last) (extension : String) :
    (p.withExtension extension).text.toList =
      before ++ ((splitName last).1 ++ '.' :: extension.toList) := by
  have htake : p.text.toList.take (p.text.toList.length -
      (last.length - (splitName last).1.length)) = before ++ (splitName last).1 := by
    obtain ⟨rest, hrest⟩ := stem_starts last
    generalize (splitName last).1 = stem at hrest
    subst hrest
    rw [h.text, ← List.append_assoc]
    refine List.take_left' ?_
    simp only [List.length_append]
    omega
  rw [Path.withExtension, h.fileName? hname]
  simp only [h.trimTail hname, List.reverse_reverse, String.toList_ofList, htake,
    String.toList_append]
  simp

/-- **A path with another extension names a sibling.** -/
theorem Parted.siblings {p : Path} {before last : List Char}
    (h : Parted p.text.toList before last) (hname : NamesEntry last) {extension : String}
    (hplain : '/' ∉ extension.toList) (hlong : 2 ≤ extension.toList.length) :
    Workspace.Siblings (p.withExtension extension) p (stepsBefore before)
      (String.ofList ((splitName last).1 ++ '.' :: extension.toList)) (String.ofList last) := by
  have hparted : Parted (p.withExtension extension).text.toList before
      ((splitName last).1 ++ '.' :: extension.toList) := by
    refine ⟨h.withExtension hname extension, ?_, h.slash⟩
    simp only [List.mem_append, List.mem_cons, not_or]
    exact ⟨fun hmem => h.plain ((stem_starts last).subset hmem), by decide, hplain⟩
  refine ⟨hparted.steps (by simp), h.steps hname.nonempty, h.plainSteps hname.nonempty, ?_, ?_, ?_⟩
  · rw [hparted.isAbsolute, h.isAbsolute]
  · intro heq
    have hlength := congrArg (·.toList.length) heq
    simp at hlength
    omega
  · intro heq
    have hlength := congrArg (·.toList.length) heq
    simp at hlength
    omega

/-- A path that can be given to a new entry ends in a name. -/
theorem exists_parted_of_endsInName {p : Path}
    (hname : Workspace.endsInName (Workspace.plainSteps p) = true)
    (hslash : Workspace.endsInSlash p = false) :
    ∃ before last, Parted p.text.toList before last ∧ NamesEntry last := by
  obtain ⟨before, last, h⟩ := exists_parted p.text.toList
  have hlast : last ≠ [] := by
    rintro rfl
    have htext := h.text
    rw [List.append_nil] at htext
    rcases h.slash with rfl | ⟨front, rfl⟩
    · simp [Workspace.plainSteps, htext, pieces, Workspace.endsInName] at hname
    · simp [Workspace.endsInSlash, htext] at hslash
  rw [h.plainSteps hlast, Workspace.endsInName, List.getLast?_append] at hname
  refine ⟨before, last, h, hlast, ?_, ?_⟩
  · rintro rfl
    cases hname
  · rintro rfl
    cases hname

/-- What is joined to a directory stands in it. -/
theorem parted_join (directory : Path) {name : String} (hplain : '/' ∉ name.toList) :
    ∃ before, Parted (directory.join ⟨name⟩).text.toList before name.toList := by
  have hrelative : (Path.mk name).isAbsolute = false := by
    rw [Path.isAbsolute]
    cases hcs : name.toList with
    | nil => simp
    | cons c cs =>
      have hc : c ≠ '/' := fun heq => hplain (by simp [hcs, heq])
      simp [hc]
  rw [Path.join, hrelative]
  simp only [Bool.false_eq_true, if_false]
  split
  · next hend =>
    refine ⟨directory.text.toList, by simp, hplain, ?_⟩
    rcases List.eq_nil_or_concat directory.text.toList with hnil | ⟨front, c, hc⟩
    · exact .inl hnil
    · simp [hc, ← String.toList_eq_nil_iff] at hend
      exact .inr ⟨front, by rw [hc, hend, List.concat_eq_append]⟩
  · exact ⟨directory.text.toList ++ ['/'], by simp, hplain, .inr ⟨_, rfl⟩⟩

/-! ## Parents -/

theorem pieces_intercalate {l : List (List Char)} (hl : l ≠ []) (h : ∀ s ∈ l, '/' ∉ s) :
    pieces (['/'].intercalate l) = l := by
  induction l with
  | nil => exact absurd rfl hl
  | cons s l ih =>
    rw [List.forall_mem_cons] at h
    cases l with
    | nil => rw [List.intercalate_singleton, pieces_of_plain h.1]
    | cons s' l =>
      rw [List.intercalate_cons_cons, List.append_assoc, List.singleton_append, pieces_append,
        pieces_of_plain h.1, ih (List.cons_ne_nil _ _) h.2]
      rfl

/-- A step that can stand in a path as it is. -/
def IsStep (step : String) : Prop := step.toList ≠ [] ∧ '/' ∉ step.toList

instance (step : String) : Decidable (IsStep step) := inferInstanceAs (Decidable (_ ∧ _))

/-- The steps of a path that is made of steps. -/
theorem map_pieces_intercalate {l : List String} (h : ∀ s ∈ l, IsStep s) :
    ((pieces ("/".intercalate l).toList).filter (· ≠ [])).map String.ofList = l := by
  rw [String.toList_intercalate]
  change ((pieces (['/'].intercalate (l.map String.toList))).filter (· ≠ [])).map _ = l
  cases l with
  | nil => simp [List.intercalate, pieces]
  | cons s l =>
    have hpieces := pieces_intercalate (l := (s :: l).map String.toList) (by simp)
      (List.forall_mem_map.2 fun s hs => (h s hs).2)
    have hkept : ((s :: l).map String.toList).filter (· ≠ []) = (s :: l).map String.toList := by
      rw [List.filter_eq_self, List.forall_mem_map]
      intro s hs
      simpa using (h s hs).1
    rw [hpieces, hkept, List.map_map]
    simp

theorem plain_of_mem_pieces {cs : List Char} : ∀ s ∈ pieces cs, '/' ∉ s := by
  induction cs with
  | nil => simp [pieces]
  | cons c cs ih =>
    rw [pieces]
    split
    · simpa using ih
    · next hc =>
      obtain ⟨s, ss, hs⟩ := List.exists_cons_of_ne_nil (pieces_ne_nil cs)
      rw [hs] at ih ⊢
      simp only [List.mem_cons, forall_eq_or_imp, not_or] at ih ⊢
      exact ⟨⟨fun heq => hc heq.symm, ih.1⟩, ih.2⟩

/-- The components of pieces are spelled as the pieces are, those of no step left out. -/
theorem map_name_components (ps : List (List Char)) :
    (ps.filterMap component?).map ofComponents.name =
      ((ps.filter (· ≠ [])).map String.ofList).filter (· ≠ ".") := by
  induction ps with
  | nil => rfl
  | cons s ps ih =>
    by_cases hempty : s = []
    · simp [component?, hempty, ih]
    · by_cases hhere : s = ['.']
      · have hdot : String.ofList ['.'] = "." := rfl
        simp [component?, hhere, ih, hdot]
      · have hdot : String.ofList s ≠ "." := fun heq => hhere (String.ofList_injective heq)
        by_cases hup : s = ['.', '.']
        · simp [component?, hup, ih, ofComponents.name]
        · simp [component?, hempty, hhere, hup, ih, ofComponents.name, hdot]

theorem ofComponents_of_relative {cs : List Component} (hroot : Component.root ∉ cs) :
    ofComponents cs = ⟨"/".intercalate (cs.map ofComponents.name)⟩ := by
  cases cs with
  | nil => rfl
  | cons c cs =>
    cases c with
    | root => exact absurd (List.mem_cons_self ..) hroot
    | here | up | name => rfl

/-- A path that is made of components without a root is relative, and they are its steps. -/
theorem relative_of_steps {cs : List Component} (hroot : Component.root ∉ cs)
    (h : ∀ s ∈ cs.map ofComponents.name, IsStep s) :
    (ofComponents cs).isAbsolute = false ∧
      Workspace.plainSteps (ofComponents cs) = cs.map ofComponents.name := by
  rw [ofComponents_of_relative hroot]
  refine ⟨?_, map_pieces_intercalate h⟩
  generalize cs.map ofComponents.name = l at h
  rw [isAbsolute, String.toList_intercalate]
  cases l with
  | nil => rfl
  | cons s l =>
    obtain ⟨hne, hplain⟩ := h s (List.mem_cons_self ..)
    obtain ⟨c, cs, hs⟩ := List.exists_cons_of_ne_nil hne
    have hc : c ≠ '/' := fun heq => hplain (by simp [hs, heq])
    cases l <;> simp [List.intercalate, hs, hc]

/-- A path that is made of steps and a root is absolute, and they are its steps. -/
theorem absolute_of_steps {cs : List Component}
    (h : ∀ s ∈ cs.map ofComponents.name, IsStep s) :
    (ofComponents (.root :: cs)).isAbsolute = true ∧
      Workspace.plainSteps (ofComponents (.root :: cs)) = cs.map ofComponents.name := by
  refine ⟨by simp [ofComponents, isAbsolute], ?_⟩
  have htext : (ofComponents (.root :: cs)).text.toList =
      '/' :: ("/".intercalate (cs.map ofComponents.name)).toList := by
    simp [ofComponents]
  rw [Workspace.plainSteps, htext, ← List.nil_append ('/' :: _), pieces_append]
  simpa [pieces] using map_pieces_intercalate h

/-- No piece of a path stands for a root. -/
theorem root_not_mem_pieces (ps : List (List Char)) :
    Component.root ∉ ps.filterMap component? := by
  intro hmem
  obtain ⟨s, -, hs⟩ := List.mem_filterMap.1 hmem
  rw [component?] at hs
  split at hs
  · cases hs
  · split at hs <;> cases hs

/-- What stands before the last piece of a path are steps. -/
theorem Parted.isStep {p : Path} {before last : List Char} (h : Parted p.text.toList before last) :
    ∀ s ∈ stepsBefore before, IsStep s := by
  intro s hs
  obtain ⟨cs, hcs, rfl⟩ := List.mem_map.1 hs
  rw [List.mem_filter] at hcs
  rw [IsStep, String.toList_ofList]
  have hpiece : cs ∈ Path.pieces p.text.toList := by
    rw [h.pieces]
    exact List.mem_append_left _ hcs.1
  exact ⟨by simpa using hcs.2, plain_of_mem_pieces cs hpiece⟩

/-- The components of a path to an entry are a start, those of the pieces before the last, and the
name. -/
theorem Parted.components_eq {p : Path} {before last : List Char}
    (h : Parted p.text.toList before last) (hname : NamesEntry last) :
    p.components = (if p.isAbsolute then [Component.root]
        else if (Path.pieces p.text.toList).head? = some ['.'] then [Component.here] else []) ++
      (piecesBefore before).filterMap component? ++ [.name (String.ofList last)] := by
  have hlast : component? last = some (.name (String.ofList last)) := by
    simp [component?, hname.nonempty, hname.notHere, hname.notUp]
  rw [components, h.pieces, List.filterMap_append, List.filterMap_cons_some hlast,
    List.filterMap_nil, ← h.pieces, List.append_assoc]

/-- **The parent of a path to an entry has the steps of the path before the last**, up to steps that
lead nowhere else. -/
theorem Parted.exists_parent {p : Path} {before last : List Char}
    (h : Parted p.text.toList before last) (hname : NamesEntry last) :
    ∃ d, p.parent? = some d ∧ d.isAbsolute = p.isAbsolute ∧
      (Workspace.plainSteps d = (stepsBefore before).filter (· ≠ ".") ∨
        Workspace.plainSteps d = "." :: (stepsBefore before).filter (· ≠ ".") ∧
          (stepsBefore before).head? = some ".") := by
  have hcomponents := h.components_eq hname
  have hroot := root_not_mem_pieces (piecesBefore before)
  have hnames : ((piecesBefore before).filterMap component?).map ofComponents.name =
      (stepsBefore before).filter (· ≠ ".") := by
    rw [map_name_components, stepsBefore]
  generalize (piecesBefore before).filterMap component? = body at hcomponents hroot hnames
  have hsteps : ∀ s ∈ body.map ofComponents.name, IsStep s := by
    rw [hnames]
    exact fun s hs => h.isStep s (List.mem_filter.1 hs).1
  have hparent (start : List Component)
      (hall : p.components = start ++ body ++ [.name (String.ofList last)]) :
      p.parent? = some (ofComponents (start ++ body)) := by
    rw [parent?, hall, List.getLast?_concat, List.dropLast_concat]
  cases habsolute : p.isAbsolute with
  | true =>
    rw [habsolute] at hcomponents
    obtain ⟨hsame, hplain⟩ := absolute_of_steps hsteps
    exact ⟨_, hparent [.root] hcomponents, hsame, .inl (hplain.trans hnames)⟩
  | false =>
    rw [habsolute, if_neg Bool.false_ne_true, h.pieces] at hcomponents
    by_cases hhere : (piecesBefore before ++ [last]).head? = some ['.']
    · rw [if_pos hhere] at hcomponents
      have hall : ∀ s ∈ ([Component.here] ++ body).map ofComponents.name, IsStep s :=
        List.forall_mem_cons.2 ⟨by decide, hsteps⟩
      obtain ⟨hsame, hplain⟩ := relative_of_steps (by simp [hroot]) hall
      refine ⟨_, hparent _ hcomponents, hsame, .inr ⟨by rw [hplain, ← hnames]; rfl, ?_⟩⟩
      cases hpieces : piecesBefore before with
      | nil =>
        rw [hpieces] at hhere
        exact absurd (Option.some.inj hhere) hname.notHere
      | cons s ss =>
        rw [hpieces] at hhere
        obtain rfl : s = ['.'] := Option.some.inj hhere
        rw [stepsBefore, hpieces]
        rfl
    · rw [if_neg hhere] at hcomponents
      obtain ⟨hsame, hplain⟩ := relative_of_steps hroot hsteps
      exact ⟨_, hparent [] hcomponents, hsame, .inl (hplain.trans hnames)⟩

end Path

/-- A path that an entry is moved to ends in a name. -/
theorem Workspace.endsInName_of_rename {w w' : Workspace} {p q : Path}
    (h : w.rename p q = .ok w') :
    endsInName (plainSteps q) = true ∧ endsInSlash q = false := by
  rw [rename] at h
  obtain ⟨source, -, h⟩ := bind_eq_ok.1 h
  cases source with
  | free directory name => cases h
  | found place =>
    simp only at h
    split at h
    · obtain ⟨t, -, h⟩ := bind_eq_ok.1 h
      cases h
    · next hname =>
      obtain ⟨t, -, h⟩ := bind_eq_ok.1 h
      refine ⟨by simpa using hname, ?_⟩
      rw [← Bool.not_eq_true]
      intro hslash
      cases t <;> simp [hslash] at h

end AnalysisGate
