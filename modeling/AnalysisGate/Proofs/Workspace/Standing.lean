import AnalysisGate.Proofs.Workspace.Directories
import Mathlib

/-!
Paths that stand.

A path stands through a change if it leads where it led, to the same entry, or nowhere as before
(`Stands`). It does if a file is written or made by a path that is no alias of it afterwards
(`Puts.stands`). A path that did not exist before may become an alias by the writing: a link that
leads to nothing is one to the file that is then made there, so aliases are judged in the tree after
the change. So may a path that leads to nothing (`Missing`) lead to a file once a directory on its
way is made (`Detour`).
-/
namespace AnalysisGate.Workspace

variable {w w' w'' : Workspace} {x y : Place} {p q : Path} {bytes : ByteArray}

/-! ## Standing -/

/-- A path leads where it led before, to the same entry. -/
structure Stands (w w' : Workspace) (p : Path) : Prop where
  place : ∀ x, w'.placeOf p = .ok x ↔ w.placeOf p = .ok x
  entry : ∀ x, w.placeOf p = .ok x → w'.entries.get? x = w.entries.get? x

namespace Stands

theorem refl (w : Workspace) (p : Path) : w.Stands w p := ⟨fun _ => .rfl, fun _ _ => rfl⟩

theorem trans (h : w.Stands w' p) (h' : w'.Stands w'' p) : w.Stands w'' p :=
  ⟨fun x => (h'.place x).trans (h.place x),
    fun x hx => (h'.entry x ((h.place x).2 hx)).trans (h.entry x hx)⟩

theorem read_eq_ok (h : w.Stands w' p) : w'.read p = .ok bytes ↔ w.read p = .ok bytes := by
  rw [Workspace.read_eq_ok, Workspace.read_eq_ok]
  refine exists_congr fun x => ?_
  rw [h.place x]
  refine and_congr_right fun hx => ?_
  rw [bytesAt, bytesAt, h.entry x hx]

theorem stat_eq_ok {s : Stat} (h : w.Stands w' p) : w'.stat p = .ok s ↔ w.stat p = .ok s := by
  have hstat (w : Workspace) : w.stat p = .ok s ↔ ∃ x, w.placeOf p = .ok x ∧ w.statAt x = s := by
    rw [stat]
    cases w.placeOf p <;> simp [Except.map]
  rw [hstat, hstat]
  refine exists_congr fun x => ?_
  rw [h.place x]
  refine and_congr_right fun hx => ?_
  rw [statAt, statAt, h.entry x hx]

theorem pathExists_eq (h : w.Stands w' p) : w'.pathExists p = w.pathExists p := by
  have hexists (w : Workspace) : w.pathExists p = true ↔ ∃ s, w.stat p = .ok s := by
    rw [pathExists]
    cases w.stat p <;> simp [Except.isOk, Except.toBool]
  rw [Bool.eq_iff_iff, hexists, hexists]
  exact exists_congr fun s => h.stat_eq_ok

theorem isRegular_eq (h : w.Stands w' p) : w'.isRegular p = w.isRegular p := by
  have hregular (w : Workspace) : w.isRegular p = true ↔
      ∃ size modified, w.stat p = .ok (.regular size modified) := by
    rw [isRegular]
    cases w.stat p with
    | error e => simp
    | ok s => cases s <;> simp
  rw [Bool.eq_iff_iff, hregular, hregular]
  exact exists_congr fun size => exists_congr fun modified => h.stat_eq_ok

end Stands

/-! ## Entries of paths -/

/-- A path leads to an entry. -/
def Holds (w : Workspace) (p : Path) (e : Entry) : Prop :=
  ∃ x, w.placeOf p = .ok x ∧ w.entries.get? x = some e

theorem Grows.holds {e : Entry} (h : w.Grows w') (he : w.Holds p e) : w'.Holds p e := by
  obtain ⟨x, hx, he⟩ := he
  exact ⟨x, h.extended.placeOf hx, h.keeps he⟩

theorem Stands.holds {e : Entry} (h : w.Stands w' p) (he : w.Holds p e) : w'.Holds p e := by
  obtain ⟨x, hx, he⟩ := he
  exact ⟨x, (h.place x).2 hx, (h.entry x hx).trans he⟩

theorem Grows.pathExists (h : w.Grows w') (hp : w.pathExists p = true) :
    w'.pathExists p = true := by
  rw [Workspace.pathExists, stat] at hp ⊢
  cases hx : w.placeOf p with
  | error e =>
    rw [hx] at hp
    cases hp
  | ok x =>
    rw [h.extended.placeOf hx]
    rfl

/-! ## Files that are put -/

/-- A path through which a file may have been put: nothing has changed, or it leads to a file that
has come in place of a leaf or of nothing. -/
def Puts (w w' : Workspace) (q : Path) : Prop :=
  w' = w ∨ ∃ y bytes modified, w' = w.put y (.file bytes modified) ∧ w'.placeOf q = .ok y ∧
    y ≠ [] ∧ ∀ e, w.entries.get? y = some e → e.route = .leaf

/-- A path that bytes were written to: what stands there is no directory, and if it is a file, it
has these bytes. -/
def Bears (w : Workspace) (p : Path) (bytes : ByteArray) : Prop :=
  ∃ x e, w.placeOf p = .ok x ∧ w.entries.get? x = some e ∧ w.isDirectoryAt x = false ∧
    ∀ b modified, e = .file b modified → b = bytes

theorem bears_of_put {modified : Int}
    (h : (w.put y (.file bytes modified)).placeOf q = .ok y ∧ y ≠ []) :
    (w.put y (.file bytes modified)).Bears q bytes := by
  refine ⟨y, .file bytes modified, h.1, by rw [get?_put, if_pos rfl], ?_, ?_⟩
  · simp [isDirectoryAt, get?_put, h.2]
  · rintro b modified ⟨⟩
    rfl

/-- What is written to a path stands there, or it is taken by what keeps no bytes. -/
theorem write_cases (h : w.write q bytes = .ok w') : w.Puts w' q ∧ w'.Bears q bytes := by
  obtain ⟨y, hopen, ⟨hleaf, rfl⟩ | ⟨e, he, hfile, rfl⟩⟩ := write_eq_ok h
  · have hplace := place_of_open bytes w.clock hopen hleaf
    exact ⟨.inr ⟨y, bytes, w.clock, rfl, hplace.1, hplace.2, hleaf⟩, bears_of_put hplace⟩
  · obtain ⟨hplace, hstat⟩ := found_of_open hopen he
    refine ⟨.inl rfl, y, e, hplace, he, isDirectoryAt_of_stat hstat, ?_⟩
    exact fun b modified heq => absurd heq (hfile b modified)

theorem Bears.grows (h : w.Bears p bytes) (hgrows : w.Grows w') : w'.Bears p bytes := by
  obtain ⟨x, e, hx, he, hleaf, hbytes⟩ := h
  refine ⟨x, e, hgrows.extended.placeOf hx, hgrows.keeps he, ?_, hbytes⟩
  rw [isDirectoryAt, hgrows.keeps he]
  rwa [isDirectoryAt, he] at hleaf

/-- A file is made at a place that is free, or not at all. -/
theorem create_cases (h : w.create q = .ok w') : w.Puts w' q ∧ w.Grows w' := by
  obtain ⟨y, hopen, ⟨hfree, rfl⟩ | rfl⟩ := create_eq_ok h
  · have hleaf : ∀ e, w.entries.get? y = some e → e.route = .leaf := by simp [hfree]
    obtain ⟨hplace, hne⟩ := place_of_open .empty w.clock hopen hleaf
    exact ⟨.inr ⟨y, .empty, w.clock, rfl, hplace, hne, hleaf⟩, put_grows hfree⟩
  · exact ⟨.inl rfl, .refl w'⟩

namespace Puts

theorem extended (h : w.Puts w' q) : w.Extends w' := by
  rcases h with rfl | ⟨y, bytes, modified, rfl, -, -, hleaf⟩
  · exact .refl _
  · exact put_extends fun e he => (hleaf e he).symm

/-- Ways to other places than the one that is put were there before. -/
theorem way_before {modified : Int} {place : Place} {names : List String} {n : Nat}
    (h : (w.put y (.file bytes modified)).Leads place names n (.found x)) :
    x = y ∨ w.Leads place names n (.found x) :=
  Leads.before_put (w := w) (fun z hz => by rw [get?_put, if_neg hz])
    (by rw [get?_put, if_pos rfl]) h

/-- **A path stands while files are put elsewhere.** -/
theorem stands (h : w.Puts w' q) (halias : ¬ w'.Aliases q p) : w.Stands w' p := by
  have hextends := h.extended
  rcases h with rfl | ⟨y, bytes, modified, rfl, hq, -, -⟩
  · exact .refl _ p
  constructor
  · intro x
    constructor
    · intro hx
      obtain ⟨htext, n, hn, hway⟩ := locate_eq_ok.1 (placeOf_eq_ok.1 hx)
      rcases way_before hway with rfl | hold
      · exact absurd ⟨_, hq, hx⟩ halias
      · exact placeOf_eq_ok.2 (locate_eq_ok.2 ⟨htext, n, hn, hold⟩)
    · exact hextends.placeOf
  · intro x hx
    rw [get?_put, if_neg]
    rintro rfl
    exact halias ⟨_, hq, hextends.placeOf hx⟩

/-- A path that leads to no directory does not lead to one after a file is put. -/
theorem replaceable (h : w.Puts w' q) (hp : w.Replaceable p) : w'.Replaceable p := by
  rcases h with rfl | ⟨y, bytes, modified, rfl, -, hne, -⟩
  · exact hp
  intro n x hway
  rcases way_before hway with rfl | hold
  · simp [isDirectoryAt, get?_put, hne]
  · have hdir := hp n x hold
    by_cases hxy : x = y
    · simp [isDirectoryAt, get?_put, hxy, hne]
    · rwa [isDirectoryAt, get?_put, if_neg hxy, ← isDirectoryAt]

end Puts

/-! ## Files that are moved -/

/-- **A replaced path leads to a file exactly if its sibling did**, and then it reads the bytes that
were written to the sibling. -/
theorem rename_cases {dirs : List String} {a b : String} (hs : Siblings p q dirs a b)
    (hb : Named b) (hab : a ≠ b) (hbears : w.Bears p bytes) (halias : ¬ w.Aliases p q)
    (hq : w.Replaceable q) (h : w.rename p q = .ok w') :
    w'.Replaceable q ∧ w'.isRegular q = w.isRegular p ∧
      (w.isRegular p = true → w'.read q = .ok bytes) := by
  obtain ⟨x, e, hx, he, hleaf, hbytes⟩ := hbears
  obtain ⟨y, hy, hread, hfile⟩ := rename_spec hs hb hx hleaf halias hq h
  have hne : x ≠ [] := by
    rintro rfl
    cases hleaf
  -- what is moved is no directory, so bytes can be read of it
  have hreads : ∃ c, w'.bytesAt y = .ok c := by
    rw [hread, bytesAt, if_neg (by simpa using hne), he]
    cases e with
    | directory => simp [isDirectoryAt, he] at hleaf
    | file | link | pipe | device => exact ⟨_, rfl⟩
  obtain ⟨c, hc⟩ := hreads
  have hyleaf := leaf_of_bytesAt hc
  have hyne : y ≠ [] := by
    rintro rfl
    cases hyleaf
  refine ⟨replaceable_of_leaf hy hyleaf, ?_, fun hregular => ?_⟩
  · rw [Bool.eq_iff_iff]
    constructor
    · intro hregular
      obtain ⟨b', modified, hb'⟩ := file_of_isRegular hy hregular
      exact isRegular_iff.2 ⟨x, b', modified, hx, hne, file_of_rename hs hb hab hx hleaf h hy hb'⟩
    · intro hregular
      obtain ⟨b', modified, hb'⟩ := file_of_isRegular hx hregular
      exact isRegular_iff.2 ⟨y, b', modified, hy, hyne, hfile b' modified hb'⟩
  · obtain ⟨b', modified, hb'⟩ := file_of_isRegular hx hregular
    cases he.symm.trans hb'
    rw [read_eq hy, hread, bytesAt, if_neg (by simpa using hne), he, hbytes b' modified rfl]

/-! ## Paths that lead to nothing -/

/-- A path leads to no entry, over however many links. -/
def Missing (w : Workspace) (p : Path) : Prop :=
  ∀ n x, ¬ w.Leads (w.start p) (steps p.text) n (.found x)

theorem Missing.placeOf (h : w.Missing p) (x : Place) : w.placeOf p ≠ .ok x := by
  intro hx
  obtain ⟨-, n, -, hway⟩ := locate_eq_ok.1 (placeOf_eq_ok.1 hx)
  exact h n x hway

theorem Missing.stands (h : w.Missing p) (h' : w'.Missing p) : w.Stands w' p where
  place x := iff_of_false (h'.placeOf x) (h.placeOf x)
  entry x hx := absurd hx (h.placeOf x)

theorem Missing.replaceable (h : w.Missing p) : w.Replaceable p :=
  fun n x hway => absurd hway (h n x)

theorem Missing.pathExists (h : w.Missing p) : w.pathExists p = false := by
  rw [Workspace.pathExists, stat]
  cases hx : w.placeOf p with
  | error e => rfl
  | ok x => exact absurd hx (h.placeOf x)

/-! ## Steps up again from a directory -/

/-- Steps through an entry of the root that is missing lead nowhere. -/
theorem locateSteps_missing {name : String} (rest : List String) (follow : Bool)
    (htext : checkText p.text = .ok ()) (habsolute : p.isAbsolute = true) (hname : Named name)
    (hrest : rest.isEmpty = false) (h : w.entries.get? [name] = none) :
    w.locateSteps follow p (name :: rest) = .error .notFound := by
  rw [locateSteps, htext, habsolute]
  simp only [bind, Except.bind, if_true]
  rw [walk_cons w follow linkLimit [] rfl hname, List.nil_append, h]
  simp [hrest]

/-- In the root a directory is made before the step up from it is taken. -/
theorem makeDirectories_detour (h : w.entries.get? ["logs"] = none) :
    w.makeDirectories ⟨"/logs/.."⟩ = .ok (w.put ["logs"] .directory) := by
  have hup : (w.put ["logs"] .directory).isDirectory ⟨"/logs/.."⟩ = true := by
    have hway : (w.put ["logs"] .directory).Leads [] ["logs", ".."] 0 (.found []) :=
      .enter rfl ⟨by decide, by decide, by decide⟩ .directory (by simp [get?_put]) (by simp)
        (.up (by simp [isDirectoryAt, get?_put]) rfl (.done _))
    exact isDirectory_iff.2 ⟨by decide, 0, by decide, [], hway, rfl⟩
  have hmake : w.makeDirectory ⟨"/logs"⟩ = .ok (w.put ["logs"] .directory) := by
    have hname : InRoot ⟨"/logs"⟩ "logs" :=
      ⟨by decide, by decide, by decide, by decide, by decide, by decide⟩
    have hlocate := hname.locate_free h false
    have hsteps : steps "/logs" = ["logs"] := by decide
    have hplain : plainSteps ⟨"/logs"⟩ = ["logs"] := by decide
    rw [locate, hsteps] at hlocate
    rw [makeDirectory, add, hplain, hlocate]
    rfl
  have hmissing : w.makeDirectory ⟨"/logs/.."⟩ = .error .notFound := by
    have hlocate := locateSteps_missing (p := ⟨"/logs/.."⟩) [".."] false (by decide)
      (by decide) ⟨by decide, by decide, by decide⟩ rfl h
    have hplain : plainSteps ⟨"/logs/.."⟩ = ["logs", ".."] := by decide
    rw [makeDirectory, add, hplain, hlocate]
    rfl
  rw [makeDirectories_eq_ok]
  change w.makeAfter ⟨"/logs/.."⟩ (w.makeAfter ⟨"/logs"⟩ _) = _
  rw [makeAfter, hmissing, makeAfter, hmake]
  simp only [bind, Except.bind]
  rw [makeDirectory_of_isDirectory hup]
  simp [hup]

/-- A path steps into a directory of the root, and up again to an entry of the root. -/
structure Detour (p : Path) (name : String) : Prop where
  steps : steps p.text = ["logs", "..", name]
  absolute : p.isAbsolute = true
  text : checkText p.text = .ok ()
  named : Named name

namespace Detour

variable {name : String}

theorem leads (h : Detour p name) (hlogs : w.entries.get? ["logs"] = some .directory) {n : Nat}
    {t : Target} (hway : w.Leads [] [name] n t) :
    w.Leads (w.start p) (Workspace.steps p.text) n t := by
  rw [h.steps, start, if_pos h.absolute]
  exact .enter rfl ⟨by decide, by decide, by decide⟩ .directory hlogs (by simp)
    (.up (by simp [isDirectoryAt, hlogs]) rfl hway)

/-- It leads to what is in the root if that directory is there. -/
theorem placeOf (h : Detour p name) (hlogs : w.entries.get? ["logs"] = some .directory) {e : Entry}
    (he : w.entries.get? [name] = some e) (hlink : ∀ target, e ≠ .link target) :
    w.placeOf p = .ok [name] :=
  placeOf_eq_ok.2 (locate_eq_ok.2 ⟨h.text, 0, by decide,
    h.leads hlogs (.enter rfl h.named e he hlink (.done _))⟩)

theorem missing_of_free (h : Detour p name) (hlogs : w.entries.get? ["logs"] = some .directory)
    (hfree : w.entries.get? [name] = none) : w.Missing p := by
  intro n x hway
  cases (hway.unique (h.leads hlogs (.free rfl h.named hfree))).2

/-- It leads to nothing while that directory is missing. -/
theorem missing (h : Detour p name) (hlogs : w.entries.get? ["logs"] = none) :
    w.Missing p := by
  intro n x hway
  rw [h.steps, start, if_pos h.absolute] at hway
  cases hway with
  | here _ hstep | up _ hstep => exact absurd hstep (by decide)
  | enter _ _ _ he | follow _ _ _ he => cases he.symm.trans hlogs

theorem pathExists (h : Detour p name) (hlogs : w.entries.get? ["logs"] = none) :
    w.pathExists p = false := (h.missing hlogs).pathExists

end Detour

end AnalysisGate.Workspace
