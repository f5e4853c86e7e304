import AnalysisGate.Proofs.Workspace.Resolution
import Mathlib

/-!
What a change leaves alone.

Adding entries and replacing the bytes of files keeps every entry's part in the ways of paths
(`Extends`), so each path that leads to an entry still leads there, and it reads the same bytes
unless those are the ones replaced.
-/
namespace AnalysisGate

/-- A sequence succeeds if its first part does, and then the rest. -/
theorem bind_eq_ok {ε α β : Type} {first : Except ε α} {rest : α → Except ε β} {b : β} :
    (first >>= rest) = .ok b ↔ ∃ a, first = .ok a ∧ rest a = .ok b := by
  cases first <;> simp [bind, Except.bind]

/-- How an entry takes part in the way of a path. -/
inductive Route
  | directory
  | link (target : String)
  | leaf

def Entry.route : Entry → Route
  | .directory => .directory
  | .link target => .link target
  | .file _ _ | .pipe | .device => .leaf

namespace Workspace

variable {w w' w'' : Workspace} {place x y : Place} {names : List String} {n : Nat} {p q : Path}

/-! ## Places of paths -/

/-- The place that the steps of a path are taken from. -/
def start (w : Workspace) (p : Path) : Place := if p.isAbsolute then [] else w.here

theorem locate_eq_ok {t : Target} : w.locate true p = .ok t ↔
    checkText p.text = .ok () ∧
      ∃ n ≤ linkLimit, w.Leads (w.start p) (steps p.text) n t := by
  rw [locate, locateSteps, bind_eq_ok, ← walk_eq_ok, start]
  exact ⟨fun ⟨_, htext, hwalk⟩ => ⟨htext, hwalk⟩, fun ⟨htext, hwalk⟩ => ⟨(), htext, hwalk⟩⟩

theorem placeOf_eq_ok : w.placeOf p = .ok x ↔ w.locate true p = .ok (.found x) := by
  rw [placeOf]
  cases w.locate true p with
  | error e => simp [bind, Except.bind]
  | ok t => cases t <;> simp [bind, Except.bind, pure, Except.pure]

/-- A path names an entry of the root. -/
structure InRoot (p : Path) (name : String) : Prop where
  steps : steps p.text = [name]
  absolute : p.isAbsolute = true
  text : checkText p.text = .ok ()
  named : Named name

namespace InRoot

variable {name : String}

theorem locate_free (h : InRoot p name) (hfree : w.entries.get? [name] = none) (follow : Bool) :
    w.locate follow p = .ok (.free [] name) := by
  have hroot : w.isDirectoryAt [] = true := rfl
  have hwalk := walk_name w follow linkLimit hroot h.named (by simp [hfree])
  rw [List.nil_append, hfree] at hwalk
  rw [locate, locateSteps, h.text, h.absolute, h.steps]
  exact hwalk

theorem locate_found (h : InRoot p name) {e : Entry} (he : w.entries.get? [name] = some e)
    (hlink : ∀ target, e ≠ .link target) (follow : Bool) :
    w.locate follow p = .ok (.found [name]) := by
  have hroot : w.isDirectoryAt [] = true := rfl
  have hwalk := walk_name w follow linkLimit hroot h.named (by simp [he, hlink])
  rw [List.nil_append, he] at hwalk
  rw [locate, locateSteps, h.text, h.absolute, h.steps]
  exact hwalk

/-- A path to a free place of the root leads to no entry. -/
theorem not_found (h : InRoot p name) (hfree : w.entries.get? [name] = none) :
    ¬ w.Leads (w.start p) (Workspace.steps p.text) n (.found x) := by
  intro hway
  obtain ⟨-, k, -, hway'⟩ := locate_eq_ok.1 (h.locate_free hfree true)
  cases (hway'.unique hway).2

/-- A path to a leaf of the root leads to that only. -/
theorem found_leaf (h : InRoot p name)
    (hleaf : ∀ e, w.entries.get? [name] = some e → e.route = .leaf)
    (hway : w.Leads (w.start p) (Workspace.steps p.text) n (.found x)) :
    x = [name] ∧ w.isDirectoryAt x = false := by
  cases he : w.entries.get? [name] with
  | none => exact absurd hway (h.not_found he)
  | some e =>
    have hroute := hleaf e he
    have hlink (target : String) : e ≠ .link target := by
      rintro rfl
      cases hroute
    obtain ⟨-, k, -, hway'⟩ := locate_eq_ok.1 (h.locate_found he hlink true)
    obtain ⟨-, heq⟩ := hway'.unique hway
    obtain rfl := Target.found.inj heq
    refine ⟨rfl, ?_⟩
    rw [isDirectoryAt, he]
    cases e <;> first | rfl | cases hroute

/-- A link of the root to another entry of the root is followed there. -/
theorem locate_link (h : InRoot p name) {target other : String} {e : Entry}
    (he : w.entries.get? [name] = some (.link target)) (hother : w.entries.get? [other] = some e)
    (hlink : ∀ target, e ≠ .link target) (hsteps : Workspace.steps target = [other])
    (habsolute : isAbsoluteText target = true) (hnonempty : target.isEmpty = false)
    (hnamed : Named other) : w.locate true p = .ok (.found [other]) := by
  have hway : w.Leads (linkBase [] target) (Workspace.steps target ++ []) 0 (.found [other]) := by
    rw [linkBase, if_pos habsolute, hsteps]
    exact .enter rfl hnamed e hother hlink (.done _)
  refine locate_eq_ok.2 ⟨h.text, 1, by decide, ?_⟩
  rw [h.steps, start, h.absolute]
  exact .follow rfl h.named target he hnonempty hway

/-- A path that is not followed to its end leads to the entry that it names, be it a link. -/
theorem locate_entry (h : InRoot p name) {e : Entry} (he : w.entries.get? [name] = some e) :
    w.locate false p = .ok (.found [name]) := by
  have hroot : w.isDirectoryAt [] = true := rfl
  have hwalk := walk_last (.done []) hroot h.named (Nat.zero_le linkLimit)
  rw [List.nil_append, he] at hwalk
  rw [locate, locateSteps, h.text, h.absolute, h.steps]
  exact hwalk

end InRoot

/-- The bytes that can be read at a place. -/
def bytesAt (w : Workspace) (x : Place) : Except FileError ByteArray :=
  if x.isEmpty then .error .isDirectory
  else
    match w.entries.get? x with
    | some (.file bytes _) => .ok bytes
    | some .directory => .error .isDirectory
    | _ => .ok .empty

theorem read_eq (h : w.placeOf p = .ok x) : w.read p = w.bytesAt x := by
  rw [read, h, bytesAt]
  rfl

theorem read_eq_ok {bytes : ByteArray} :
    w.read p = .ok bytes ↔ ∃ x, w.placeOf p = .ok x ∧ w.bytesAt x = .ok bytes := by
  constructor
  · intro h
    cases hx : w.placeOf p with
    | error e =>
      rw [read, hx] at h
      cases h
    | ok x => exact ⟨x, rfl, (read_eq hx).symm.trans h⟩
  · rintro ⟨x, hx, h⟩
    rw [read_eq hx, h]

/-- A file of the root is read. -/
theorem InRoot.read_file {name : String} {bytes : ByteArray} {modified : Int} (h : InRoot p name)
    (he : w.entries.get? [name] = some (.file bytes modified)) : w.read p = .ok bytes := by
  rw [read_eq (placeOf_eq_ok.2 (h.locate_found he (by simp) true)), bytesAt, he]
  rfl

theorem InRoot.stat_file {name : String} {bytes : ByteArray} {modified : Int} (h : InRoot p name)
    (he : w.entries.get? [name] = some (.file bytes modified)) :
    w.stat p = .ok (.regular bytes.size modified) := by
  rw [stat, placeOf_eq_ok.2 (h.locate_found he (by simp) true)]
  simp [Except.map, statAt, he]

theorem InRoot.stat_free {name : String} (h : InRoot p name)
    (hfree : w.entries.get? [name] = none) : w.stat p = .error .notFound := by
  rw [stat, placeOf, h.locate_free hfree true]
  rfl

/-- A path to a free place of the root does not exist. -/
theorem InRoot.pathExists_free {name : String} (h : InRoot p name)
    (hfree : w.entries.get? [name] = none) : w.pathExists p = false := by
  rw [pathExists, stat, placeOf, h.locate_free hfree true]
  rfl

/-- Two paths lead to one entry. -/
def Aliases (w : Workspace) (p q : Path) : Prop := ∃ x, w.placeOf p = .ok x ∧ w.placeOf q = .ok x

/-! ## Extensions -/

/-- Every entry is there still and takes the same part in the ways of paths. -/
structure Extends (w w' : Workspace) : Prop where
  here : w'.here = w.here
  routes : ∀ {x e}, w.entries.get? x = some e →
    ∃ e', w'.entries.get? x = some e' ∧ e'.route = e.route

namespace Extends

theorem refl (w : Workspace) : w.Extends w := ⟨rfl, fun he => ⟨_, he, rfl⟩⟩

theorem trans (h : w.Extends w') (h' : w'.Extends w'') : w.Extends w'' where
  here := h'.here.trans h.here
  routes he := by
    obtain ⟨e₁, he₁, hroute₁⟩ := h.routes he
    obtain ⟨e₂, he₂, hroute₂⟩ := h'.routes he₁
    exact ⟨e₂, he₂, hroute₂.trans hroute₁⟩

theorem isDirectoryAt (h : w.Extends w') (hx : w.isDirectoryAt x = true) :
    w'.isDirectoryAt x = true := by
  rw [Workspace.isDirectoryAt, Bool.or_eq_true] at hx ⊢
  refine hx.imp id fun hx => ?_
  split at hx
  · next he =>
    obtain ⟨e', he', hroute⟩ := h.routes he
    rw [he']
    cases e' <;> first | rfl | cases hroute
  · cases hx

/-- A way goes on as it did, up to its end. -/
theorem leads_to (h : w.Extends w') {t t' : Target} (hfound : ∀ x, t = .found x → t' = .found x)
    (hfree : ∀ directory name, t = .free directory name → w'.isDirectoryAt directory = true →
      Named name → w'.Leads directory [name] 0 t') (hway : w.Leads place names n t) :
    w'.Leads place names n t' := by
  induction hway with
  | done place =>
    rw [hfound place rfl]
    exact .done place
  | here hdir hstep _ ih => exact .here (h.isDirectoryAt hdir) hstep (ih hfound hfree)
  | up hdir hstep _ ih => exact .up (h.isDirectoryAt hdir) hstep (ih hfound hfree)
  | free hdir hname _ => exact hfree _ _ rfl (h.isDirectoryAt hdir) hname
  | enter hdir hname e he hlink _ ih =>
    obtain ⟨e', he', hroute⟩ := h.routes he
    refine .enter (h.isDirectoryAt hdir) hname e' he' (fun target heq => ?_) (ih hfound hfree)
    subst heq
    cases e with
    | link target => exact hlink target rfl
    | file | directory | pipe | device => cases hroute
  | follow hdir hname target he htarget _ ih =>
    obtain ⟨e', he', hroute⟩ := h.routes he
    cases e' <;> cases hroute
    exact .follow (h.isDirectoryAt hdir) hname target he' htarget (ih hfound hfree)

theorem leads (h : w.Extends w') (hway : w.Leads place names n (.found x)) :
    w'.Leads place names n (.found x) :=
  h.leads_to (fun _ heq => heq) (fun _ _ heq => by cases heq) hway

theorem placeOf (h : w.Extends w') (hx : w.placeOf p = .ok x) : w'.placeOf p = .ok x := by
  rw [placeOf_eq_ok, locate_eq_ok] at hx ⊢
  obtain ⟨htext, n, hn, hway⟩ := hx
  rw [start, ← h.here] at hway
  exact ⟨htext, n, hn, h.leads hway⟩

theorem aliases (h : w.Extends w') (halias : w.Aliases p q) : w'.Aliases p q := by
  obtain ⟨x, hx, hx'⟩ := halias
  exact ⟨x, h.placeOf hx, h.placeOf hx'⟩

/-- A path reads what it did unless its own entry has changed. -/
theorem read (h : w.Extends w') (hx : w.placeOf p = .ok x)
    (hkeep : w'.entries.get? x = w.entries.get? x) : w'.read p = w.read p := by
  rw [read_eq hx, read_eq (h.placeOf hx), bytesAt, bytesAt, hkeep]

end Extends

theorem put_extends {e : Entry} (h : ∀ e', w.entries.get? x = some e' → e.route = e'.route) :
    w.Extends (w.put x e) where
  here := rfl
  routes {y e'} he' := by
    rw [put, SortedMap.get?_insert]
    by_cases hy : y = x
    · subst hy
      exact ⟨e, by simp, h e' he'⟩
    · exact ⟨e', by simpa [hy] using he', rfl⟩

theorem get?_put (w : Workspace) (x y : Place) (e : Entry) :
    (w.put x e).entries.get? y = if y = x then some e else w.entries.get? y := by
  rw [put, SortedMap.get?_insert]

/-! ## Writing -/

theorem Leads.free_entry {directory : Place} {name : String}
    (h : w.Leads place names n (.free directory name)) :
    w.entries.get? (directory ++ [name]) = none := by
  generalize ht : Target.free directory name = t at h
  induction h with
  | done => cases ht
  | here _ _ _ ih | up _ _ _ ih | enter _ _ _ _ _ _ ih | follow _ _ _ _ _ _ ih => exact ih ht
  | free _ _ hfree =>
    cases ht
    exact hfree

/-- A path that leads to a free place leads to what is put there. -/
theorem Leads.put_free {directory : Place} {name : String} {e : Entry}
    (hlink : ∀ target, e ≠ .link target) (h : w.Leads place names n (.free directory name)) :
    (w.put (directory ++ [name]) e).Leads place names n (.found (directory ++ [name])) := by
  have hextends : w.Extends (w.put (directory ++ [name]) e) :=
    put_extends fun e' he' => by rw [h.free_entry] at he'; cases he'
  refine hextends.leads_to (fun x heq => by cases heq) (fun d nm heq hdir hname => ?_) h
  cases heq
  exact .enter hdir hname e (by simp [get?_put]) hlink (.done _)

/-- What an opening for writing leads to: an entry that is no directory, or a free place. -/
theorem openForWriting_eq_ok (h : w.openForWriting p = .ok x) :
    (w.placeOf p = .ok x ∧ w.statAt x ≠ .directory) ∨
      ∃ directory name, w.locate true p = .ok (.free directory name) ∧
        x = directory ++ [name] := by
  rw [openForWriting] at h
  split at h
  · cases h
  · split at h
    · obtain ⟨t, -, h⟩ := bind_eq_ok.1 h
      cases h
    · obtain ⟨t, hlocate, h⟩ := bind_eq_ok.1 h
      cases t with
      | free directory name =>
        cases h
        exact .inr ⟨directory, name, hlocate, rfl⟩
      | found y =>
        simp only at h
        split at h
        · cases h
        · next hstat =>
          cases h
          exact .inl ⟨placeOf_eq_ok.2 hlocate, hstat⟩

theorem ne_nil_of_stat (h : w.statAt x ≠ .directory) : x ≠ [] := by
  rintro rfl
  exact h rfl

theorem statAt_eq_directory : w.statAt x = .directory ↔ w.isDirectoryAt x = true := by
  rw [statAt, isDirectoryAt]
  by_cases hx : x.isEmpty = true
  · simp [hx]
  · rw [if_neg hx]
    cases he : w.entries.get? x with
    | none => simp [hx]
    | some e => cases e <;> simp [hx]

theorem isDirectoryAt_of_stat (h : w.statAt x ≠ .directory) : w.isDirectoryAt x = false := by
  rwa [ne_eq, statAt_eq_directory, Bool.not_eq_true] at h

/-- A directory is what a path leads to. -/
theorem isDirectory_iff_placeOf : w.isDirectory p = true ↔
    ∃ x, w.placeOf p = .ok x ∧ w.isDirectoryAt x = true := by
  rw [isDirectory, stat]
  cases hx : w.placeOf p with
  | error e => simp [Except.map]
  | ok x =>
    simp only [Except.map, Except.ok.injEq, exists_eq_left', ← statAt_eq_directory]
    cases w.statAt x <;> simp

/-- A regular path leads to a file, which is not the root. -/
theorem isRegular_iff : w.isRegular p = true ↔
    ∃ x bytes modified, w.placeOf p = .ok x ∧ x ≠ [] ∧
      w.entries.get? x = some (.file bytes modified) := by
  rw [isRegular, stat]
  constructor
  · intro h
    cases hx : w.placeOf p with
    | error e => simp [hx, Except.map] at h
    | ok x =>
      simp only [hx, Except.map, statAt] at h
      split at h
      · next heq =>
        split at heq
        · cases heq
        · next hne =>
          split at heq
          · next bytes modified he =>
            exact ⟨x, bytes, modified, rfl, by simpa using hne, he⟩
          · cases heq
          · cases heq
      · cases h
  · rintro ⟨x, bytes, modified, hx, hne, he⟩
    simp [hx, Except.map, statAt, hne, he]

theorem file_of_isRegular (hx : w.placeOf p = .ok x) (h : w.isRegular p = true) :
    ∃ bytes modified, w.entries.get? x = some (.file bytes modified) := by
  obtain ⟨y, bytes, modified, hy, -, he⟩ := isRegular_iff.1 h
  cases hx.symm.trans hy
  exact ⟨bytes, modified, he⟩

theorem endsInName_singleton {name : String} (h : Named name) : endsInName [name] = true := by
  unfold endsInName
  split
  · next heq => cases heq
  · next heq => exact absurd (Option.some.inj heq) h.notHere
  · next heq => exact absurd (Option.some.inj heq) h.notUp
  · rfl

theorem text_of_endsInName (h : endsInName (plainSteps p) = true) : p.text.isEmpty = false := by
  by_contra hempty
  rw [Bool.not_eq_false, String.isEmpty_iff] at hempty
  simp [plainSteps, hempty, Path.pieces, endsInName] at h

/-- A path that was opened for writing ends in a name. -/
theorem endsInName_of_open (h : w.openForWriting p = .ok x) :
    endsInName (plainSteps p) = true ∧ endsInSlash p = false := by
  rw [openForWriting] at h
  split at h
  · cases h
  · split at h
    · obtain ⟨t, -, h⟩ := bind_eq_ok.1 h
      cases h
    · next hends =>
      rw [Bool.or_eq_true, not_or] at hends
      exact ⟨by simpa using hends.2, by simpa using hends.1⟩

/-- A path that leads to what is no directory is opened for writing there. -/
theorem openForWriting_found (hname : endsInName (plainSteps p) = true)
    (hslash : endsInSlash p = false) (hx : w.placeOf p = .ok x)
    (hleaf : w.isDirectoryAt x = false) : w.openForWriting p = .ok x := by
  have hstat : w.statAt x ≠ .directory := by
    rw [Ne, statAt_eq_directory, hleaf]
    exact Bool.false_ne_true
  rw [openForWriting, placeOf_eq_ok.1 hx]
  simp only [text_of_endsInName hname, hname, hslash, Bool.false_eq_true, if_false, Bool.not_true,
    Bool.or_self, bind, Except.bind, pure, Except.pure]

/-- A path that leads to a free place is opened for writing there. -/
theorem openForWriting_free {directory : Place} {name : String}
    (hname : endsInName (plainSteps p) = true) (hslash : endsInSlash p = false)
    (h : w.locate true p = .ok (.free directory name)) :
    w.openForWriting p = .ok (directory ++ [name]) := by
  rw [openForWriting, h]
  simp [text_of_endsInName hname, hname, hslash, bind, Except.bind, pure, Except.pure]

/-- A directory is not opened for writing. -/
theorem openForWriting_directory (hname : endsInName (plainSteps p) = true)
    (hslash : endsInSlash p = false) (hx : w.placeOf p = .ok x) (hdir : w.statAt x = .directory) :
    w.openForWriting p = .error .isDirectory := by
  rw [openForWriting, placeOf_eq_ok.1 hx]
  simp [text_of_endsInName hname, hname, hslash, bind, Except.bind, hdir]

theorem write_directory {bytes : ByteArray} (hname : endsInName (plainSteps p) = true)
    (hslash : endsInSlash p = false) (hx : w.placeOf p = .ok x) (hdir : w.statAt x = .directory) :
    w.write p bytes = .error .isDirectory := by
  rw [write, openForWriting_directory hname hslash hx hdir]
  rfl

/-- A device takes bytes and keeps none. -/
theorem write_device {bytes : ByteArray} (hname : endsInName (plainSteps p) = true)
    (hslash : endsInSlash p = false) (hx : w.placeOf p = .ok x) (hne : x ≠ [])
    (hdevice : w.entries.get? x = some .device) : w.write p bytes = .ok w := by
  have hleaf : w.isDirectoryAt x = false := by simp [isDirectoryAt, hne, hdevice]
  rw [write, openForWriting_found hname hslash hx hleaf]
  simp only [bind, Except.bind, hdevice]
  rfl

/-- A link of the root to the device there. -/
theorem InRoot.placeOf_null {name : String} (h : InRoot p name)
    (hlink : w.entries.get? [name] = some (.link "/null"))
    (hdevice : w.entries.get? ["null"] = some .device) : w.placeOf p = .ok ["null"] :=
  placeOf_eq_ok.2 (h.locate_link hlink hdevice (by simp) (by decide) (by decide) (by decide)
    ⟨by decide, by decide, by decide⟩)

/-- A leaf of the root, or a free place there, is opened for writing. -/
theorem InRoot.open_leaf {name : String} (h : InRoot p name) (hplain : plainSteps p = [name])
    (hslash : endsInSlash p = false)
    (hleaf : ∀ e, w.entries.get? [name] = some e → e.route = .leaf) :
    w.openForWriting p = .ok [name] := by
  have hends : endsInName (plainSteps p) = true := by
    rw [hplain]
    exact endsInName_singleton h.named
  cases he : w.entries.get? [name] with
  | none => exact openForWriting_free hends hslash (h.locate_free he true)
  | some e =>
    have hroute := hleaf e he
    have hlocate : w.locate true p = .ok (.found [name]) := by
      refine h.locate_found he (fun target heq => ?_) true
      subst heq
      cases hroute
    obtain ⟨-, k, -, hway⟩ := locate_eq_ok.1 hlocate
    exact openForWriting_found hends hslash (placeOf_eq_ok.2 hlocate) (h.found_leaf hleaf hway).2

/-- Bytes that are written to a free place of the root are put there. -/
theorem InRoot.write_free {name : String} {bytes : ByteArray} (h : InRoot p name)
    (hplain : plainSteps p = [name]) (hslash : endsInSlash p = false)
    (hfree : w.entries.get? [name] = none) :
    w.write p bytes = .ok (w.put [name] (.file bytes w.clock)) := by
  rw [write, h.open_leaf hplain hslash (by simp [hfree])]
  simp only [bind, Except.bind, hfree]
  rfl

/-- A leaf of the root is not made again. -/
theorem InRoot.create_leaf {name : String} {e : Entry} (h : InRoot p name)
    (hplain : plainSteps p = [name]) (hslash : endsInSlash p = false)
    (he : w.entries.get? [name] = some e) (hleaf : e.route = .leaf) : w.create p = .ok w := by
  rw [create, h.open_leaf hplain hslash (by simp [he, hleaf])]
  simp only [bind, Except.bind, he]
  rfl

/-- An empty file is made at a free place of the root. -/
theorem InRoot.create_free {name : String} (h : InRoot p name) (hplain : plainSteps p = [name])
    (hslash : endsInSlash p = false) (hfree : w.entries.get? [name] = none) :
    w.create p = .ok (w.put [name] (.file .empty w.clock)) := by
  rw [create, h.open_leaf hplain hslash (by simp [hfree])]
  simp only [bind, Except.bind, hfree]
  rfl

/-! ## Files that are opened for writing -/

/-- A file that is put where a path was opened for writing is what the path leads to. -/
theorem place_of_open (bytes : ByteArray) (modified : Int) (h : w.openForWriting p = .ok x)
    (hleaf : ∀ e, w.entries.get? x = some e → e.route = .leaf) :
    (w.put x (.file bytes modified)).placeOf p = .ok x ∧ x ≠ [] := by
  rcases openForWriting_eq_ok h with ⟨hplace, hstat⟩ | ⟨directory, name, hlocate, rfl⟩
  · have hextends : w.Extends (w.put x (.file bytes modified)) :=
      put_extends fun e he => (hleaf e he).symm
    exact ⟨hextends.placeOf hplace, ne_nil_of_stat hstat⟩
  · obtain ⟨htext, n, hn, hway⟩ := locate_eq_ok.1 hlocate
    have hput := hway.put_free (e := .file bytes modified) (by simp)
    exact ⟨placeOf_eq_ok.2 (locate_eq_ok.2 ⟨htext, n, hn, hput⟩), by simp⟩

/-- An entry that was opened for writing is what the path leads to, and no directory. -/
theorem found_of_open {e : Entry} (h : w.openForWriting p = .ok x)
    (he : w.entries.get? x = some e) : w.placeOf p = .ok x ∧ w.statAt x ≠ .directory := by
  rcases openForWriting_eq_ok h with hfound | ⟨directory, name, hlocate, rfl⟩
  · exact hfound
  · obtain ⟨-, n, -, hway⟩ := locate_eq_ok.1 hlocate
    cases hway.free_entry.symm.trans he

/-- Bytes that are written make a file of the place that was opened, or are taken by an entry that
keeps none. -/
theorem write_eq_ok {bytes : ByteArray} (h : w.write p bytes = .ok w') :
    ∃ x, w.openForWriting p = .ok x ∧
      ((∀ e, w.entries.get? x = some e → e.route = .leaf) ∧ w' = w.put x (.file bytes w.clock) ∨
        ∃ e, w.entries.get? x = some e ∧ (∀ b modified, e ≠ .file b modified) ∧ w' = w) := by
  rw [write] at h
  obtain ⟨x, hopen, h⟩ := bind_eq_ok.1 h
  refine ⟨x, hopen, ?_⟩
  split at h
  · next he =>
    cases h
    exact .inl ⟨by simp [he], rfl⟩
  · next b modified he =>
    cases h
    refine .inl ⟨fun e he' => ?_, rfl⟩
    cases he.symm.trans he'
    rfl
  · next e hfile he =>
    cases h
    exact .inr ⟨e, he, hfile, rfl⟩

/-- An empty file is made at a free place, or none where an entry is already. -/
theorem create_eq_ok (h : w.create p = .ok w') :
    ∃ x, w.openForWriting p = .ok x ∧
      (w.entries.get? x = none ∧ w' = w.put x (.file .empty w.clock) ∨ w' = w) := by
  rw [create] at h
  obtain ⟨x, hopen, h⟩ := bind_eq_ok.1 h
  refine ⟨x, hopen, ?_⟩
  split at h
  · next he =>
    cases h
    exact .inl ⟨he, rfl⟩
  · cases h
    exact .inr rfl

/-- A path after bytes were written to it: it leads to a file of these bytes, or to what takes
bytes without keeping them. -/
structure Written (w w' : Workspace) (p : Path) (bytes : ByteArray) (x : Place) : Prop where
  place : w'.placeOf p = .ok x
  before : w.placeOf p = .ok x ∨ w.entries.get? x = none
  extended : w.Extends w'
  others : ∀ {y}, y ≠ x → w'.entries.get? y = w.entries.get? y
  leaf : w'.isDirectoryAt x = false
  kept : w'.entries.get? x = some (.file bytes w.clock) ∨
    (∀ b modified, w'.entries.get? x ≠ some (.file b modified)) ∧ w'.bytesAt x = .ok .empty

theorem written_of_put {bytes : ByteArray} (hne : x ≠ [])
    (hplace : (w.put x (.file bytes w.clock)).placeOf p = .ok x)
    (hbefore : w.placeOf p = .ok x ∨ w.entries.get? x = none)
    (hroute : ∀ e, w.entries.get? x = some e → e.route = .leaf) :
    Written w (w.put x (.file bytes w.clock)) p bytes x where
  place := hplace
  before := hbefore
  extended := put_extends fun e he => (hroute e he).symm
  others hy := by rw [get?_put, if_neg hy]
  leaf := by simp [isDirectoryAt, get?_put, hne]
  kept := .inl (by simp [get?_put])

theorem write_spec {bytes : ByteArray} (h : w.write p bytes = .ok w') :
    ∃ x, Written w w' p bytes x := by
  obtain ⟨x, hopen, ⟨hleaf, rfl⟩ | ⟨e, he, hfile, rfl⟩⟩ := write_eq_ok h
  · obtain ⟨hplace, hne⟩ := place_of_open bytes w.clock hopen hleaf
    refine ⟨x, written_of_put hne hplace ?_ hleaf⟩
    cases he : w.entries.get? x with
    | none => exact .inr rfl
    | some e => exact .inl (found_of_open hopen he).1
  · obtain ⟨hplace, hstat⟩ := found_of_open hopen he
    have hleaf := isDirectoryAt_of_stat hstat
    have hnot (b : ByteArray) (modified : Int) : w'.entries.get? x ≠ some (.file b modified) := by
      rw [he]
      exact fun heq => hfile b modified (Option.some.inj heq)
    refine ⟨x, hplace, .inl hplace, .refl w', fun _ => rfl, hleaf, .inr ⟨hnot, ?_⟩⟩
    rw [bytesAt, if_neg (by simpa using ne_nil_of_stat hstat), he]
    cases e <;> simp_all [isDirectoryAt]

/-- Bytes that are written elsewhere leave what a path reads. -/
theorem Written.read {bytes : ByteArray} (h : Written w w' p bytes x) (hy : w.placeOf q = .ok y)
    (hne : y ≠ x) : w'.read q = w.read q :=
  h.extended.read hy (h.others hne)

/-- A path that is no alias of another one is written to without touching that one's entry. -/
theorem Written.apart {bytes : ByteArray} (h : Written w w' p bytes x) (hy : w.placeOf q = .ok y)
    (hentry : (w.entries.get? y).isSome) (halias : ¬ w.Aliases p q) : y ≠ x := by
  rintro rfl
  rcases h.before with hx | hfree
  · exact halias ⟨y, hx, hy⟩
  · simp [hfree] at hentry

/-! ## Adding -/

/-- Every entry is there still, as it was. -/
structure Grows (w w' : Workspace) : Prop where
  here : w'.here = w.here
  keeps : ∀ {x e}, w.entries.get? x = some e → w'.entries.get? x = some e

namespace Grows

theorem refl (w : Workspace) : w.Grows w := ⟨rfl, id⟩

theorem trans (h : w.Grows w') (h' : w'.Grows w'') : w.Grows w'' :=
  ⟨h'.here.trans h.here, fun he => h'.keeps (h.keeps he)⟩

theorem extended (h : w.Grows w') : w.Extends w' := ⟨h.here, fun he => ⟨_, h.keeps he, rfl⟩⟩

theorem bytesAt (h : w.Grows w') {bytes : ByteArray} (he : (w.entries.get? x).isSome)
    (hx : w.bytesAt x = .ok bytes) : w'.bytesAt x = .ok bytes := by
  obtain ⟨e, he⟩ := Option.isSome_iff_exists.1 he
  rwa [Workspace.bytesAt, h.keeps he, ← he, ← Workspace.bytesAt]

end Grows

theorem put_grows {e : Entry} (h : w.entries.get? x = none) : w.Grows (w.put x e) where
  here := rfl
  keeps {y e'} he := by
    rw [get?_put]
    split
    · next heq =>
      subst heq
      rw [h] at he
      cases he
    · exact he

theorem walk_free {follow : Bool} {links : Nat} {directory : Place} {name : String}
    (h : w.walk follow links place names = .ok (.free directory name)) :
    w.entries.get? (directory ++ [name]) = none := by
  fun_induction walk w follow links place names with
  | case6 _ _ _ _ _ _ _ _ hfree =>
    cases h
    exact hfree
  | case3 _ _ _ _ ih | case4 _ _ _ _ _ ih => exact ih h
  | case11 _ _ _ _ _ _ _ _ _ _ _ _ ih => exact ih h
  | case12 _ _ _ _ _ _ _ _ _ _ _ ih => exact ih h
  | case1 | case2 | case5 | case7 | case8 | case9 | case10 => cases h

/-- A directory that is made stands at the free place that its path leads to. -/
theorem makeDirectory_eq_ok (h : w.makeDirectory p = .ok w') :
    ∃ directory name, checkText p.text = .ok () ∧
      w.walk false linkLimit (w.start p) (plainSteps p) = .ok (.free directory name) ∧
      w' = w.put (directory ++ [name]) .directory := by
  rw [makeDirectory, add] at h
  split at h
  · cases h
  · obtain ⟨t, hlocate, h⟩ := bind_eq_ok.1 h
    rw [locateSteps] at hlocate
    obtain ⟨u, htext, hwalk⟩ := bind_eq_ok.1 hlocate
    rw [← start] at hwalk
    cases t with
    | found x => cases h
    | free directory name =>
      cases h
      exact ⟨directory, name, htext, hwalk, rfl⟩

theorem makeDirectory_grows (h : w.makeDirectory p = .ok w') : w.Grows w' := by
  obtain ⟨directory, name, -, hwalk, rfl⟩ := makeDirectory_eq_ok h
  exact put_grows (walk_free hwalk)

theorem makeDirectories_eq_ok : w.makeDirectories p = .ok w' ↔ w.makeAll p = .ok w' := by
  rw [makeDirectories]
  cases w.makeAll p <;> simp [Except.mapError]

theorem making_of_ok (h : w.makeDirectories p = .ok w') : w.making p = w' := by
  rw [making, makeDirectories_eq_ok.1 h, left]

/-- The root is made by leaving it as it is. -/
theorem makeDirectories_root (w : Workspace) : w.makeDirectories ⟨"/"⟩ = .ok w := by
  have hmake : w.makeAll ⟨"/"⟩ =
      if w.isDirectory ⟨"/"⟩ then .ok w else .error (.alreadyExists, w) := rfl
  have hplace : w.placeOf ⟨"/"⟩ = .ok [] := by
    have hway : w.Leads [] ["."] 0 (.found []) := .here rfl rfl (.done [])
    have hsteps : steps "/" = ["."] := by decide
    have hstart : w.start ⟨"/"⟩ = [] := if_pos (by decide)
    rw [placeOf_eq_ok, locate_eq_ok, hsteps, hstart]
    exact ⟨by decide, 0, Nat.zero_le _, hway⟩
  rw [makeDirectories_eq_ok, hmake, isDirectory, stat, hplace]
  rfl

/-- No entry is lost in making a directory after those above it, whatever comes of it. -/
theorem makeAfter_grows {above : Except (FileError × Workspace) Workspace}
    (habove : w.Grows (left above)) : w.Grows (left (w.makeAfter p above)) := by
  rw [makeAfter]
  split
  · next hmake => exact makeDirectory_grows hmake
  · cases above with
    | error x => exact habove
    | ok w₁ =>
      simp only [bind, Except.bind]
      split
      · next hmake => exact habove.trans (makeDirectory_grows hmake)
      · split <;> exact habove
  · split <;> exact .refl w

theorem makeComponents_grows (l : List Component) : w.Grows (left (w.makeComponents l)) := by
  induction l with
  | nil => exact .refl w
  | cons c above ih => exact makeAfter_grows ih

theorem making_grows (w : Workspace) (p : Path) : w.Grows (w.making p) := by
  rw [making, makeAll]
  split
  · exact .refl w
  · exact makeAfter_grows (makeComponents_grows _)

end Workspace

end AnalysisGate
