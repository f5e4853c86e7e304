import AnalysisGate.Proofs.Collecting
import AnalysisGate.Proofs.Workspace.Frames
import Mathlib

/-!
Which files a collection takes.

A search goes down through real directories only, and those do not go down forever
(`Workspace.wellFounded_enters`), so it ends in every tree, whatever links there are. It finds the
files and the links to files that no hidden name and no link stands before (`mem_search`), as far as
the directories on the way can be opened. Together with the targets that are no directories these
are the files of a collection without limits (`mem_keys_collect`).
-/
namespace AnalysisGate

/-! ## Descent -/

namespace Workspace

/-- A search of one directory goes on in another. -/
def Enters (w : Workspace) (inner outer : Place) : Prop :=
  ∃ name, inner = outer ++ [name] ∧ w.entries.get? inner = some .directory

/-- No descent through the directories of a tree is endless. -/
theorem wellFounded_enters (w : Workspace) : WellFounded w.Enters := by
  refine Subrelation.wf (r := InvImage (· < ·) fun place => w.depth - place.length) ?_
    (InvImage.wf _ Nat.lt_wfRel.wf)
  rintro inner outer ⟨name, rfl, hdirectory⟩
  have hdeep := length_le_depth hdirectory
  simp only [InvImage, List.length_append, List.length_singleton] at hdeep ⊢
  omega

end Workspace

namespace Collection

variable {w : Workspace} {wanted : List String} {place : Place} {directory : Path}
  {names rest : List String} {name key : String} {root : Path} {targets : List Path}

/-! ## What a search finds -/

/-- The path of an entry below a directory. -/
def pathBelow (directory : Path) (names : List String) : Path :=
  names.foldl (fun p name => p.join ⟨name⟩) directory

/-- Names lead from a directory to a file that is wanted, or to a link to one: through real
directories only, and over no hidden name. -/
structure Lies (w : Workspace) (wanted : List String) (place : Place) (directory : Path)
    (names : List String) : Prop where
  nonempty : names ≠ []
  shown : ∀ name ∈ names, isHidden name = false
  ways : ∀ n < names.length, n ≠ 0 → w.entries.get? (place ++ names.take n) = some .directory
  source : ∃ e, w.entries.get? (place ++ names) = some e ∧
    ((∃ bytes modified, e = .file bytes modified) ∨
      (∃ target, e = .link target) ∧ w.isRegular (pathBelow directory names) = true)
  extension : wanted = [] ∨ ∃ extension, (pathBelow directory names).extension? = some extension ∧
    ∃ want ∈ wanted, Text.sameFolded want extension = true

/-- The directories on the way have paths by which they can be opened. -/
def Opens (directory : Path) (names : List String) : Prop :=
  ∀ n < names.length, (pathBelow directory (names.take n)).text.utf8ByteSize < Workspace.pathLimit

theorem hasExtension_iff {p : Path} : hasExtension wanted p = true ↔
    wanted = [] ∨ ∃ extension, p.extension? = some extension ∧
      ∃ want ∈ wanted, Text.sameFolded want extension = true := by
  unfold hasExtension
  rw [Bool.or_eq_true, List.isEmpty_iff]
  cases p.extension? <;> simp

theorem isSource_iff {e : Entry} {p : Path} : isSource w e p = true ↔
    (∃ bytes modified, e = .file bytes modified) ∨
      (∃ target, e = .link target) ∧ w.isRegular p = true := by
  cases e <;> simp [isSource]

/-- One name leads to an entry of the directory itself. -/
theorem lies_singleton : Lies w wanted place directory [name] ↔
    isHidden name = false ∧ ∃ e, (name, e) ∈ w.children place ∧
      isSource w e (directory.join ⟨name⟩) = true ∧
        hasExtension wanted (directory.join ⟨name⟩) = true := by
  constructor
  · intro h
    obtain ⟨e, hget, hsource⟩ := h.source
    exact ⟨h.shown name (List.mem_singleton.2 rfl), e, Workspace.mem_children.2 hget,
      isSource_iff.2 hsource, hasExtension_iff.2 h.extension⟩
  · rintro ⟨hshown, e, hget, hsource, hextension⟩
    refine ⟨List.cons_ne_nil _ _, ?_, ?_,
      ⟨e, Workspace.mem_children.1 hget, isSource_iff.1 hsource⟩, hasExtension_iff.1 hextension⟩
    · intro name' hname
      obtain rfl := List.mem_singleton.1 hname
      exact hshown
    · intro n hn hzero
      rw [List.length_singleton] at hn
      omega

/-- More names lead on from a directory in it. -/
theorem lies_cons (hrest : rest ≠ []) : Lies w wanted place directory (name :: rest) ↔
    isHidden name = false ∧ (name, .directory) ∈ w.children place ∧
      Lies w wanted (place ++ [name]) (directory.join ⟨name⟩) rest := by
  -- a beginning of the names but the first is one of all names with the first before it
  have hplace (l : List String) : place ++ name :: l = place ++ [name] ++ l := by simp
  constructor
  · intro h
    have hlength : 0 < rest.length := List.length_pos_iff.2 hrest
    have hfirst := h.ways 1 (by simpa using hlength) one_ne_zero
    rw [List.take_succ_cons, List.take_zero] at hfirst
    refine ⟨h.shown name List.mem_cons_self, Workspace.mem_children.2 hfirst, hrest,
      fun name' hname => h.shown name' (List.mem_cons_of_mem _ hname), fun n hn _ => ?_, ?_,
      h.extension⟩
    · have hnext := h.ways (n + 1) (by simpa using hn) (Nat.succ_ne_zero n)
      rwa [List.take_succ_cons, hplace] at hnext
    · have hsource := h.source
      rwa [hplace] at hsource
  · rintro ⟨hshown, hdirectory, h⟩
    refine ⟨List.cons_ne_nil _ _, ?_, ?_, by rw [hplace]; exact h.source, h.extension⟩
    · intro name' hname
      rcases List.mem_cons.1 hname with rfl | hname
      · exact hshown
      · exact h.shown name' hname
    · intro n hn hzero
      obtain ⟨n, rfl⟩ := Nat.exists_eq_succ_of_ne_zero hzero
      rw [List.take_succ_cons, hplace]
      by_cases hn' : n = 0
      · rw [hn', List.take_zero, List.append_nil]
        exact Workspace.mem_children.1 hdirectory
      · exact h.ways n (by simpa using hn) hn'

theorem opens_cons : Opens directory (name :: rest) ↔
    directory.text.utf8ByteSize < Workspace.pathLimit ∧ Opens (directory.join ⟨name⟩) rest := by
  constructor
  · intro h
    exact ⟨h 0 (Nat.succ_pos _), fun n hn => h (n + 1) (Nat.succ_lt_succ hn)⟩
  · rintro ⟨hfirst, h⟩ n hn
    cases n with
    | zero => exact hfirst
    | succ n => exact h n (Nat.lt_of_succ_lt_succ hn)

@[simp] theorem opens_nil : Opens directory [] := fun _ hn => absurd hn (Nat.not_lt_zero _)

/-- A search finds what there is to find, as far as directories can be opened. -/
theorem mem_searchFrom {q : Path} : q ∈ searchFrom w wanted place directory ↔
    ∃ names, Lies w wanted place directory names ∧ Opens directory names ∧
      q = pathBelow directory names := by
  -- one name is an entry of the directory itself, more names lead on from a directory in it
  fun_induction searchFrom w wanted place directory with
  | case1 place directory hlong =>
    simp only [List.not_mem_nil, false_iff, not_exists]
    rintro names ⟨hlies, hopens, -⟩
    have hopen := hopens 0 (List.length_pos_iff.2 hlies.nonempty)
    exact absurd hlong (Nat.not_le.2 hopen)
  | case2 place directory hshort ih =>
    rw [Nat.not_le] at hshort
    rw [List.mem_flatMap]
    constructor
    · rintro ⟨⟨⟨name, e⟩, hmem⟩, -, hq⟩
      dsimp only at hq
      split at hq
      · cases hq
      next hshown =>
      rw [Bool.not_eq_true] at hshown
      cases e with
      | directory =>
        obtain ⟨names, hlies, hopens, rfl⟩ := (ih name hmem).1 hq
        exact ⟨name :: names, (lies_cons hlies.nonempty).2 ⟨hshown, hmem, hlies⟩,
          opens_cons.2 ⟨hshort, hopens⟩, rfl⟩
      | file | link | pipe | device =>
        dsimp only at hq
        split at hq
        · next hfound =>
          obtain ⟨hsource, hextension⟩ := Bool.and_eq_true_iff.1 hfound
          obtain rfl := List.mem_singleton.1 hq
          exact ⟨[name], lies_singleton.2 ⟨hshown, _, hmem, hsource, hextension⟩,
            opens_cons.2 ⟨hshort, opens_nil⟩, rfl⟩
        · cases hq
    · rintro ⟨names, hlies, hopens, rfl⟩
      obtain ⟨name, rest, rfl⟩ := List.exists_cons_of_ne_nil hlies.nonempty
      by_cases hrest : rest = []
      · subst hrest
        obtain ⟨hshown, e, hmem, hsource, hextension⟩ := lies_singleton.1 hlies
        refine ⟨⟨(name, e), hmem⟩, List.mem_attach _ _, ?_⟩
        have hfound := Bool.and_eq_true_iff.2 ⟨hsource, hextension⟩
        cases e with
        | directory | pipe | device => cases hsource
        | file | link =>
          dsimp only
          rw [if_neg (by simp [hshown]), if_pos hfound]
          exact List.mem_singleton.2 rfl
      · obtain ⟨hshown, hmem, hbelow⟩ := (lies_cons hrest).1 hlies
        refine ⟨⟨(name, .directory), hmem⟩, List.mem_attach _ _, ?_⟩
        dsimp only
        rw [if_neg (by simp [hshown])]
        exact (ih name hmem).2 ⟨rest, hbelow, (opens_cons.1 hopens).2, rfl⟩

/-- **A search finds the files that lie below a directory**, as far as directories can be opened.
There are none below a dash, which is the standard input. -/
theorem mem_search {q : Path} (hplace : w.placeOf directory = .ok place) :
    q ∈ search w wanted directory ↔ directory.components ≠ [.name "-"] ∧
      ∃ names, Lies w wanted place directory names ∧ Opens directory names ∧
        q = pathBelow directory names := by
  rw [search, hplace]
  split
  · next hdash => simp [hdash]
  · next hdash =>
    rw [mem_searchFrom]
    exact (and_iff_right hdash).symm

/-! ## What is collected -/

/-- A target that is no directory names its own key. -/
def Names (w : Workspace) (root : Path) (key : String) (target : Path) : Prop :=
  w.isDirectory (root.join target) = false ∧ key = root.key (root.join target)

/-- A target that is a directory holds the keys of the files that a search of it finds. -/
def Holds (w : Workspace) (root : Path) (wanted : List String) (key : String) (target : Path) :
    Prop :=
  ∃ place names, w.isDirectory (root.join target) = true ∧
    w.placeOf (root.join target) = .ok place ∧ (root.join target).components ≠ [.name "-"] ∧
    Lies w wanted place (root.join target) names ∧ Opens (root.join target) names ∧
    key = root.key (pathBelow (root.join target) names)

theorem holds_iff {target : Path} (h : w.isDirectory (root.join target) = true) :
    Holds w root wanted key target ↔
      ∃ q ∈ search w wanted (root.join target), key = root.key q := by
  obtain ⟨place, hplace, -⟩ := Workspace.isDirectory_iff_placeOf.1 h
  constructor
  · rintro ⟨place', names, -, hplace', hdash, hlies, hopens, hkey⟩
    exact ⟨_, (mem_search hplace').2 ⟨hdash, names, hlies, hopens, rfl⟩, hkey⟩
  · rintro ⟨q, hq, hkey⟩
    obtain ⟨hdash, names, hlies, hopens, rfl⟩ := (mem_search hplace).1 hq
    exact ⟨place, names, h, hplace, hdash, hlies, hopens, hkey⟩

/-- What one more target adds to the candidates. -/
theorem mem_keys_addTarget (c : Candidates) (target : Path) :
    key ∈ (c.addTarget w root wanted target).files.keys ↔
      key ∈ c.files.keys ∨ Names w root key target ∨ Holds w root wanted key target := by
  unfold Candidates.addTarget
  cases hdirectory : w.isDirectory (root.join target) with
  | true =>
    simp only [if_true, Names, hdirectory, Bool.true_eq_false, false_and, false_or,
      holds_iff hdirectory]
    exact SortedMap.mem_keys_foldl_insert root.key id _ _
  | false =>
    have hnone : ¬ Holds w root wanted key target := by
      rintro ⟨_, _, htrue, -⟩
      rw [hdirectory] at htrue
      cases htrue
    simp only [Bool.false_eq_true, if_false, SortedMap.mem_keys_insert, Names, hdirectory,
      true_and, hnone, or_false]
    exact or_comm

theorem mem_named_addTarget (c : Candidates) (target : Path) :
    key ∈ (c.addTarget w root wanted target).named.keys ↔
      key ∈ c.named.keys ∨ Names w root key target := by
  unfold Candidates.addTarget
  cases hdirectory : w.isDirectory (root.join target) with
  | true => simp [Names, hdirectory]
  | false =>
    simp only [Bool.false_eq_true, if_false, SortedSet.add, SortedMap.mem_keys_insert, Names,
      hdirectory, true_and]
    exact or_comm

theorem mem_keys_candidates : key ∈ (candidates w root wanted targets).files.keys ↔
    ∃ target ∈ targets, Names w root key target ∨ Holds w root wanted key target :=
  (SortedMap.foldl_iff (P := fun c : Candidates => key ∈ c.files.keys) mem_keys_addTarget
    targets _).trans (or_iff_right List.not_mem_nil)

theorem mem_named_candidates : key ∈ (candidates w root wanted targets).named.keys ↔
    ∃ target ∈ targets, Names w root key target :=
  (SortedMap.foldl_iff (P := fun c : Candidates => key ∈ c.named.keys) mem_named_addTarget
    targets _).trans (or_iff_right List.not_mem_nil)

/-- A key is left in by the repository of the root, if it is asked for and there is one. -/
def Left (w : Workspace) (root : Path) (targets : List Path) (respectIgnore : Bool)
    (key : String) : Prop :=
  respectIgnore = true → ∀ listing, Repository.listingFrom w root = some listing →
    key ∈ listing ∨ ∃ target ∈ targets, Names w root key target

theorem mem_keys_selected {o : CollectOptions} : key ∈ (selected w root targets o).keys ↔
    key ∈ (candidates w root o.extensions targets).files.keys ∧
      Left w root targets o.respectIgnore key := by
  unfold selected Left
  cases o.respectIgnore with
  | false => simp
  | true =>
    cases Repository.listingFrom w root with
    | none => simp
    | some listing =>
      have hkept : (listing.contains key ||
            (candidates w root o.extensions targets).named.contains key) = true ↔
          key ∈ listing ∨ ∃ target ∈ targets, Names w root key target := by
        rw [Bool.or_eq_true, List.contains_iff_mem, SortedMap.contains_iff_mem_keys,
          mem_named_candidates]
      simp only [if_true, Candidates.listed, SortedMap.mem_keys, SortedMap.get?_filter,
        Option.some.injEq, forall_const, forall_eq', ← hkept]
      cases (candidates w root o.extensions targets).files.get? key with
      | none => simp
      | some p => simp [Option.filter]

/-- Without limits all files are taken. -/
theorem takeWithin_unlimited {α : Type} (size : α → Nat) (l : List α) (files bytes : Nat) :
    takeWithin none none size files bytes l = (l, false) := by
  induction l generalizing files bytes with
  | nil => rfl
  | cons a rest ih => simp [takeWithin, within, ih]

/-- A collection without limits has the keys of all candidates. -/
theorem mem_keys_collect_iff_selected {o : CollectOptions} (hfiles : o.maxFiles = none)
    (hbytes : o.maxBytes = none) :
    key ∈ (collect w root targets o).fingerprints.keys ↔
      key ∈ (selected w root targets o).keys := by
  rw [collect, hfiles, hbytes, takeWithin_unlimited, fingerprints_foldl_add]
  refine (SortedMap.mem_keys_foldl_insert Prod.fst _ _ _).trans ?_
  simp [SortedMap.keys, SortedMap.empty, eq_comm]

theorem mem_keys_collect {respectIgnore : Bool} {baseline : Option FingerprintMap} :
    key ∈ (collect w root targets
        ⟨wanted, respectIgnore, none, none, baseline⟩).fingerprints.keys ↔
      (∃ target ∈ targets, Names w root key target) ∨
        (∃ target ∈ targets, Holds w root wanted key target) ∧
          Left w root targets respectIgnore key := by
  -- the key of a target is never left out
  have hnamed (h : ∃ target ∈ targets, Names w root key target) :
      Left w root targets respectIgnore key := fun _ _ _ => .inr h
  rw [mem_keys_collect_iff_selected rfl rfl, mem_keys_selected, mem_keys_candidates]
  simp only [and_or_left, exists_or, or_and_right]
  exact or_congr_left (and_iff_left_of_imp hnamed)

/-- **Exactly the right files are collected**, from every tree and with every baseline: the targets
that are no directories, and what lies below those that are, as far as directories can be opened,
if the repository of the root, where it is asked for, lists it. The search ends in every tree. -/
theorem keys_collect (w : Workspace) (root : Path) (targets : List Path) (wanted : List String)
    (respectIgnore : Bool) (baseline : Option FingerprintMap) :
    WellFounded w.Enters ∧ ∀ key,
      key ∈ (collect w root targets
        ⟨wanted, respectIgnore, none, none, baseline⟩).fingerprints.keys ↔
      (∃ target ∈ targets, Names w root key target) ∨
        (∃ target ∈ targets, Holds w root wanted key target) ∧
          Left w root targets respectIgnore key :=
  ⟨w.wellFounded_enters, fun _ => mem_keys_collect⟩

/-! ## Directories that are not searched -/

/-- A file with a key lies below a target, whether or not it can be found there. -/
def Covers (w : Workspace) (root : Path) (wanted : List String) (key : String) (target : Path) :
    Prop :=
  ∃ place names, w.isDirectory (root.join target) = true ∧
    w.placeOf (root.join target) = .ok place ∧ Lies w wanted place (root.join target) names ∧
    key = root.key (pathBelow (root.join target) names)

/-- A file in a directory that is named by a dash. -/
def dashed : Workspace :=
  ⟨SortedMap.ofList [(["-"], .directory), (["-", "a.py"], .file .empty 0)], [], 1⟩

theorem uncollected_of_dash :
    Covers dashed ⟨""⟩ [] "-/a.py" ⟨"-"⟩ ∧
      "-/a.py" ∉ (collect dashed ⟨""⟩ [⟨"-"⟩] ⟨[], false, none, none, none⟩).fingerprints.keys := by
  have hjoin : Path.join ⟨""⟩ ⟨"-"⟩ = ⟨"-"⟩ := by decide
  have hdash : dashed.entries.get? ["-"] = some .directory := by
    simp [dashed, SortedMap.get?_ofList]
  have hfile : dashed.entries.get? ["-", "a.py"] = some (.file .empty 0) := by
    simp [dashed, SortedMap.get?_ofList]
  have hplace : dashed.placeOf ⟨"-"⟩ = .ok ["-"] := by
    refine Workspace.placeOf_eq_ok.2 (Workspace.locate_eq_ok.2 ⟨by decide, 0, Nat.zero_le _, ?_⟩)
    have hsteps : Workspace.steps "-" = ["-"] := by decide
    rw [hsteps]
    exact .enter rfl ⟨by decide, by decide, by decide⟩ _ hdash (by simp) (.done _)
  have hdirectory : dashed.isDirectory ⟨"-"⟩ = true :=
    Workspace.isDirectory_iff_placeOf.2 ⟨_, hplace, by simp [Workspace.isDirectoryAt, hdash]⟩
  constructor
  · rw [Covers, hjoin]
    refine ⟨["-"], ["a.py"], hdirectory, hplace,
      ⟨by simp, by decide, ?_, ⟨_, hfile, .inl ⟨_, _, rfl⟩⟩, .inl rfl⟩, by decide⟩
    intro n hn hzero
    rw [List.length_singleton] at hn
    omega
  · have hcomponents : Path.components ⟨"-"⟩ = [.name "-"] := by decide
    rw [mem_keys_collect]
    simp [Names, Holds, hjoin, hdirectory, hcomponents]

/-- A path that says in many slashes that it starts here. -/
def slashed (n : Nat) (rest : List Char) : Path :=
  ⟨String.ofList ('.' :: (List.replicate (n + 1) '/' ++ rest))⟩

theorem pieces_slashed (n : Nat) (rest : List Char) :
    Path.pieces (slashed n rest).text.toList =
      ['.'] :: (List.replicate n [] ++ Path.pieces rest) := by
  have hslashes (k : Nat) : Path.pieces (List.replicate k '/' ++ rest) =
      List.replicate k [] ++ Path.pieces rest := by
    induction k with
    | zero => rfl
    | succ k ih =>
      rw [List.replicate_succ, List.cons_append, Path.pieces, if_pos rfl, ih]
      rfl
  rw [slashed, String.toList_ofList, Path.pieces, if_neg (by decide), hslashes,
    List.replicate_succ]
  rfl

theorem components_slashed (n : Nat) (rest : List Char) :
    (slashed n rest).components = .here :: (Path.pieces rest).filterMap Path.component? := by
  have habsolute : (slashed n rest).isAbsolute = false := by
    simp [slashed, Path.isAbsolute]
  have hempty : (List.replicate n ([] : List Char)).filterMap Path.component? = [] := by
    rw [List.filterMap_replicate_of_none (by decide)]
  have hhere : Path.component? ['.'] = none := by decide
  rw [Path.components, pieces_slashed, habsolute]
  simp [hempty, hhere]

theorem size_slashed (n : Nat) (rest : List Char) :
    (slashed n rest).text.utf8ByteSize = n + 2 + (String.ofList rest).utf8ByteSize := by
  have hslashes (k : Nat) : (String.ofList (List.replicate k '/')).utf8ByteSize = k := by
    induction k with
    | zero => rfl
    | succ k ih =>
      rw [List.replicate_succ, String.ofList_cons, String.utf8ByteSize_append, ih]
      exact Nat.add_comm _ _
  have hdot : (String.singleton '.').utf8ByteSize = 1 := by decide
  rw [slashed, String.ofList_cons, String.ofList_append, String.utf8ByteSize_append,
    String.utf8ByteSize_append, hslashes, hdot]
  omega

theorem join_slashed (n : Nat) {name : String} (h : Path.isAbsolute ⟨name⟩ = false) :
    (slashed n []).join ⟨name⟩ = slashed n name.toList := by
  have hlast : (slashed n []).text.toList.getLast? = some '/' := by
    rw [slashed, String.toList_ofList, List.append_nil, List.replicate_succ',
      ← List.cons_append, List.getLast?_append]
    rfl
  have htext : (slashed n []).text ++ name = (slashed n name.toList).text := by
    refine String.toList_inj.1 ?_
    simp [slashed]
  rw [Path.join, h, hlast]
  simp only [Bool.false_eq_true, if_false, beq_self_eq_true, Bool.or_true, if_true, htext]

theorem join_slashed_of_name (n : Nat) (before : List Char) {c : Char} (hc : c ≠ '/')
    {name : String} (h : Path.isAbsolute ⟨name⟩ = false) :
    (slashed n (before ++ [c])).join ⟨name⟩ =
      slashed n (before ++ [c] ++ '/' :: name.toList) := by
  have hlast : (slashed n (before ++ [c])).text.toList.getLast? = some c := by
    rw [slashed, String.toList_ofList, ← List.append_assoc, ← List.cons_append,
      List.getLast?_append]
    rfl
  have hnonempty : (slashed n (before ++ [c])).text.isEmpty = false := by
    simp [slashed]
  have htext : (slashed n (before ++ [c])).text ++ "/" ++ name =
      (slashed n (before ++ [c] ++ '/' :: name.toList)).text := by
    refine String.toList_inj.1 ?_
    simp [slashed]
  rw [Path.join, h, hlast, hnonempty, htext]
  simp [hc]

theorem placeOf_slashed {n : Nat} {name : String} {e : Entry} (hhere : w.here = [])
    (hshort : n + 2 + name.utf8ByteSize < Workspace.pathLimit) (hname : Workspace.Named name)
    (hplain : Path.pieces name.toList = [name.toList]) (hnonempty : name.toList ≠ [])
    (hnul : '\x00' ∉ name.toList) (hentry : w.entries.get? [name] = some e)
    (hlink : ∀ target, e ≠ .link target) :
    w.placeOf (slashed n name.toList) = .ok [name] := by
  have htext : Workspace.checkText (slashed n name.toList).text = .ok () := by
    have hsize := size_slashed n name.toList
    rw [String.ofList_toList] at hsize
    rw [Workspace.checkText, if_neg, if_neg, if_neg]
    · rw [hsize]
      exact Nat.not_le.2 hshort
    · simp [slashed]
    · simp [slashed, hnul]
  have hsteps : Workspace.steps (slashed n name.toList).text = [".", name] := by
    have hlast : (['.'] :: (List.replicate n [] ++ [name.toList])).getLast? =
        some name.toList := by
      rw [← List.cons_append, List.getLast?_append]
      rfl
    rw [Workspace.steps, pieces_slashed, hplain, hlast]
    simp [hnonempty]
  have hstart : w.start (slashed n name.toList) = [] := by
    rw [Workspace.start, hhere]
    exact ite_self _
  refine Workspace.placeOf_eq_ok.2 (Workspace.locate_eq_ok.2 ⟨htext, 0, Nat.zero_le _, ?_⟩)
  rw [hsteps, hstart]
  exact .here rfl rfl (.enter rfl hname e hentry hlink (.done _))

/-- A file in a directory of a directory. -/
def nested : Workspace :=
  ⟨SortedMap.ofList [(["d"], .directory), (["d", "ssssssssss"], .directory),
    (["d", "ssssssssss", "a.py"], .file .empty 0)], [], 1⟩

theorem uncollected_of_slashed :
    Covers nested (slashed 4086 []) [] "d/ssssssssss/a.py" ⟨"d"⟩ ∧
      "d/ssssssssss/a.py" ∉ (collect nested (slashed 4086 []) [⟨"d"⟩]
        ⟨[], false, none, none, none⟩).fingerprints.keys := by
  have hjoin : (slashed 4086 []).join ⟨"d"⟩ = slashed 4086 "d".toList :=
    join_slashed 4086 (by decide)
  have hjoin' : (slashed 4086 "d".toList).join ⟨"ssssssssss"⟩ =
      slashed 4086 "d/ssssssssss".toList :=
    join_slashed_of_name 4086 [] (c := 'd') (by decide) (by decide)
  have hjoin'' : (slashed 4086 "d/ssssssssss".toList).join ⟨"a.py"⟩ =
      slashed 4086 "d/ssssssssss/a.py".toList :=
    join_slashed_of_name 4086 "d/sssssssss".toList (c := 's') (by decide) (by decide)
  have hd : nested.entries.get? ["d"] = some .directory := by
    simp [nested, SortedMap.get?_ofList]
  have hs : nested.entries.get? ["d", "ssssssssss"] = some .directory := by
    simp [nested, SortedMap.get?_ofList]
  have hfile : nested.entries.get? ["d", "ssssssssss", "a.py"] = some (.file .empty 0) := by
    simp [nested, SortedMap.get?_ofList]
  have hplace : nested.placeOf (slashed 4086 "d".toList) = .ok ["d"] :=
    placeOf_slashed rfl (by decide) ⟨by decide, by decide, by decide⟩ (by decide) (by decide)
      (by decide) hd (by simp)
  have hdirectory : nested.isDirectory (slashed 4086 "d".toList) = true :=
    Workspace.isDirectory_iff_placeOf.2 ⟨_, hplace, by simp [Workspace.isDirectoryAt, hd]⟩
  constructor
  · rw [Covers, hjoin]
    refine ⟨["d"], ["ssssssssss", "a.py"], hdirectory, hplace,
      ⟨by simp, by decide, ?_, ⟨_, hfile, .inl ⟨_, _, rfl⟩⟩, .inl rfl⟩, ?_⟩
    · intro n hn hzero
      obtain rfl : n = 1 := by
        simp only [List.length_cons, List.length_nil] at hn
        omega
      exact hs
    · simp only [pathBelow, List.foldl_cons, List.foldl_nil, hjoin', hjoin'']
      rw [Path.key, components_slashed, components_slashed]
      decide
  · rw [mem_keys_collect]
    simp only [List.mem_singleton, exists_eq_left, Names, Holds, hjoin, hdirectory,
      Bool.true_eq_false, false_and, false_or, true_and]
    rintro ⟨⟨place, names, hplace', -, hlies, hopens, -⟩, -⟩
    obtain rfl := Except.ok.inj (hplace.symm.trans hplace')
    obtain ⟨e, he, hsource⟩ := hlies.source
    -- there is only one file that names could lead to
    obtain rfl : names = ["ssssssssss", "a.py"] := by
      have hmem := SortedMap.mem_of_get?_ofList he
      simp only [List.singleton_append, List.mem_cons, Prod.mk.injEq, List.cons.injEq, true_and,
        List.not_mem_nil, or_false] at hmem
      rcases hmem with ⟨hnil, -⟩ | ⟨-, rfl⟩ | ⟨hnames, -⟩
      · exact absurd hnil hlies.nonempty
      · simp at hsource
      · exact hnames
    have hopen := hopens 1 (by decide)
    simp only [List.take_succ_cons, List.take_zero, pathBelow, List.foldl_cons, List.foldl_nil,
      hjoin', size_slashed] at hopen
    exact absurd hopen (by decide)

/-- **Two directories that are not searched**: one that is named by a dash, and one whose path has
too many bytes to be opened by. -/
theorem not_collecting :
    (Covers dashed ⟨""⟩ [] "-/a.py" ⟨"-"⟩ ∧
      "-/a.py" ∉ (collect dashed ⟨""⟩ [⟨"-"⟩]
        ⟨[], false, none, none, none⟩).fingerprints.keys) ∧
    Covers nested (slashed 4086 []) [] "d/ssssssssss/a.py" ⟨"d"⟩ ∧
      "d/ssssssssss/a.py" ∉ (collect nested (slashed 4086 []) [⟨"d"⟩]
        ⟨[], false, none, none, none⟩).fingerprints.keys :=
  ⟨uncollected_of_dash, uncollected_of_slashed⟩

end Collection

end AnalysisGate
