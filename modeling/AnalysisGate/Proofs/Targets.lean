import AnalysisGate.Proofs.Collecting
import AnalysisGate.Proofs.Searching
import AnalysisGate.Proofs.Workspace.Spelling
import Mathlib

/-!
Targets in any order.

The candidates of a list of targets are put under their keys one after another, so of two targets
with one key the last one decides on the path that is looked at. Paths with one key lead to one
place (`Respelled.placeOf_unique`), so it matters only where one of them is taken for a file, or for
missing, and the other is not: the list of targets acts as a set exactly if that does not happen
(`collect_eq_iff`), and it does not happen to paths that are spelled plainly.
-/
namespace AnalysisGate

namespace Collection

variable {w : Workspace} {root p p' target : Path} {wanted : List String} {key : String}
  {targets targets' : List Path} {o : CollectOptions}

/-! ## What a target adds -/

/-- The candidates that one target adds. -/
def added (w : Workspace) (root : Path) (wanted : List String) (target : Path) :
    List (String × Path) :=
  if w.isDirectory (root.join target) then
    (search w wanted (root.join target)).map fun q => (root.key q, q)
  else [(root.key (root.join target), root.join target)]

/-- The path that a target gives to a key. -/
def Gives (w : Workspace) (root : Path) (wanted : List String) (target : Path) (key : String)
    (p : Path) : Prop :=
  (SortedMap.ofList (added w root wanted target)).get? key = some p

theorem files_addTarget (c : Candidates) (target : Path) :
    (c.addTarget w root wanted target).files =
      (added w root wanted target).foldl (fun m e => m.insert e.1 e.2) c.files := by
  rw [Candidates.addTarget, added]
  split
  · rw [List.foldl_map]
  · rfl

theorem files_candidates (w : Workspace) (root : Path) (wanted : List String)
    (targets : List Path) :
    (candidates w root wanted targets).files =
      SortedMap.ofList (targets.flatMap (added w root wanted)) := by
  have hfold (c : Candidates) : (targets.foldl (Candidates.addTarget w root wanted) c).files =
      (targets.flatMap (added w root wanted)).foldl (fun m e => m.insert e.1 e.2) c.files := by
    induction targets generalizing c with
    | nil => rfl
    | cons target rest ih =>
      rw [List.foldl_cons, ih, files_addTarget, List.flatMap_cons, List.foldl_append]
  rw [candidates, hfold]
  rfl

/-- Targets that are no directories are the candidates themselves. -/
theorem files_candidates_of_named
    (h : ∀ target ∈ targets, w.isDirectory (root.join target) = false) :
    (candidates w root wanted targets).files =
      SortedMap.ofList (targets.map fun target =>
        (root.key (root.join target), root.join target)) := by
  have hadded (target : Path) (hmem : target ∈ targets) : added w root wanted target =
      [(root.key (root.join target), root.join target)] := by
    rw [added, h target hmem, if_neg Bool.false_ne_true]
  rw [files_candidates, List.flatMap_congr hadded, ← List.map_eq_flatMap]

/-- The last target that has a key decides on its path. -/
theorem get?_addTarget (c : Candidates) (target : Path) (key : String) :
    (c.addTarget w root wanted target).files.get? key =
      ((SortedMap.ofList (added w root wanted target)).get? key).or (c.files.get? key) := by
  rw [files_addTarget, SortedMap.get?_foldl_insert, SortedMap.get?_ofList]

theorem get?_candidates_concat (w : Workspace) (root : Path) (wanted : List String)
    (targets : List Path) (target : Path) (key : String) :
    (candidates w root wanted (targets ++ [target])).files.get? key =
      ((SortedMap.ofList (added w root wanted target)).get? key).or
        ((candidates w root wanted targets).files.get? key) := by
  rw [candidates, List.foldl_append]
  exact get?_addTarget _ target key

/-- What is under a key is given by one of the targets. -/
theorem exists_gives (h : (candidates w root wanted targets).files.get? key = some p) :
    ∃ target ∈ targets, Gives w root wanted target key p := by
  induction targets using List.reverseRecOn with
  | nil => cases h
  | append_singleton targets target ih =>
    rw [get?_candidates_concat, Option.or_eq_some_iff] at h
    rcases h with h | ⟨-, h⟩
    · exact ⟨target, by simp, h⟩
    · obtain ⟨target', hmem, hgives⟩ := ih h
      exact ⟨target', List.mem_append_left _ hmem, hgives⟩

theorem anchored_pathBelow {directory : Path} (h : Path.Anchored root directory)
    (names : List String) : Path.Anchored root (pathBelow directory names) := by
  induction names generalizing directory with
  | nil => exact h
  | cons name names ih => exact ih (h.join ⟨name⟩)

/-- A target gives paths that the root is joined to, under their own keys. -/
theorem Gives.anchored (h : Gives w root wanted target key p) :
    Path.Anchored root p ∧ key = root.key p := by
  have hmem := SortedMap.mem_of_get?_ofList h
  have hjoin : Path.Anchored root (root.join target) := (Path.Anchored.refl root).join target
  rw [added] at hmem
  split at hmem
  · next hdirectory =>
    obtain ⟨q, hq, heq⟩ := List.mem_map.1 hmem
    obtain ⟨rfl, rfl⟩ := Prod.mk.inj heq
    obtain ⟨place, hplace, -⟩ := Workspace.isDirectory_iff_placeOf.1 hdirectory
    obtain ⟨-, names, -, -, rfl⟩ := (mem_search hplace).1 hq
    exact ⟨anchored_pathBelow hjoin names, rfl⟩
  · obtain ⟨rfl, rfl⟩ := Prod.mk.inj (List.mem_singleton.1 hmem)
    exact ⟨hjoin, rfl⟩

/-- Paths that are taken under one key are spellings of one. -/
theorem respelled_of_candidates {wanted' : List String}
    (h : (candidates w root wanted targets).files.get? key = some p)
    (h' : (candidates w root wanted' targets').files.get? key = some p') :
    Workspace.Respelled p p' := by
  obtain ⟨_, -, hgives⟩ := exists_gives h
  obtain ⟨_, -, hgives'⟩ := exists_gives h'
  obtain ⟨hp, hkey⟩ := hgives.anchored
  obtain ⟨hp', hkey'⟩ := hgives'.anchored
  exact .of_key hp hp' (hkey.symm.trans hkey')

/-! ## What is made of a path -/

/-- All that a collection makes of a path: its size, and its fingerprint from one that is known. -/
structure View where
  size : Nat
  probe : Option Fingerprint → Fingerprint × Fingerprint.Probe

def view (w : Workspace) (p : Path) : View :=
  ⟨fileSize w p, fun known => Fingerprint.probe w known p⟩

theorem takeWithin_map {α β : Type} (maxFiles maxBytes : Option UInt64) (f : α → β) (size : β → Nat)
    (files bytes : Nat) (l : List α) :
    takeWithin maxFiles maxBytes size files bytes (l.map f) =
      let r := takeWithin maxFiles maxBytes (fun a => size (f a)) files bytes l
      (r.1.map f, r.2) := by
  induction l generalizing files bytes with
  | nil => rfl
  | cons a rest ih =>
    rw [List.map_cons, takeWithin, takeWithin]
    split
    · rw [ih]
      rfl
    · rfl

/-- A collection with one more file, from what is made of its path. -/
def addView (baseline : Option FingerprintMap) (c : Collection) (e : String × View) : Collection :=
  let (f, probe) := e.2.probe (baseline.bind (·.get? e.1))
  { c with
    fingerprints := c.fingerprints.insert e.1 f
    hashed := if probe = .hashed then c.hashed + 1 else c.hashed
    reused := if probe = .reused then c.reused + 1 else c.reused }

/-- A collection of the files that are made of their paths already. -/
def collectViews (o : CollectOptions) (m : SortedMap String View) : Collection :=
  let r := takeWithin o.maxFiles o.maxBytes (fun e => e.2.size) 0 0 m.entries
  r.1.foldl (addView o.baseline) ⟨.empty, r.2, 0, 0⟩

/-- A collection depends on the paths by what is made of them only. -/
theorem collect_eq_collectViews (w : Workspace) (root : Path) (targets : List Path)
    (o : CollectOptions) : collect w root targets o =
      collectViews o ((selected w root targets o).mapValues fun _ p => view w p) := by
  rw [collect, collectViews, SortedMap.mapValues, takeWithin_map]
  simp only [List.foldl_map]
  rfl

/-- Two paths are taken alike for a file, and for missing. -/
structure Alike (w : Workspace) (p p' : Path) : Prop where
  regular : w.isRegular p = w.isRegular p'
  missing : w.stat p = .error .notFound ↔ w.stat p' = .error .notFound

theorem view_of_missing (h : w.stat p = .error .notFound) :
    view w p = ⟨0, fun _ => (.missing, .terminal)⟩ := by
  simp only [view, fileSize, Fingerprint.probe, h]
  rfl

theorem view_of_unreadable (hregular : w.isRegular p = false)
    (hmissing : w.stat p ≠ .error .notFound) :
    view w p = ⟨0, fun _ => (.unreadable, .terminal)⟩ := by
  rw [Workspace.isRegular] at hregular
  cases hstat : w.stat p with
  | error e =>
    rw [hstat] at hmissing
    simp only [view, fileSize, Fingerprint.probe, hstat]
    cases e <;> first | rfl | exact absurd rfl hmissing
  | ok s =>
    rw [hstat] at hregular
    cases s with
    | regular size modified => cases hregular
    | directory | other => simp only [view, fileSize, Fingerprint.probe, hstat]

/-- What is made of a path to a file is made of the file. -/
theorem view_of_file {x : Place} {bytes : ByteArray} {modified : Int} (hx : w.placeOf p = .ok x)
    (hne : x ≠ []) (he : w.entries.get? x = some (.file bytes modified)) :
    w.stat p = .ok (.regular bytes.size modified) ∧ w.read p = .ok bytes := by
  constructor
  · rw [Workspace.stat, hx]
    simp [Except.map, Workspace.statAt, hne, he]
  · rw [Workspace.read_eq hx, Workspace.bytesAt, he]
    simp [hne]

/-- Spellings of one path that are taken alike are one to a collection. -/
theorem view_eq (h : Workspace.Respelled p p') (halike : Alike w p p') : view w p = view w p' := by
  cases hregular : w.isRegular p with
  | true =>
    have hregular' := hregular
    rw [halike.regular] at hregular'
    obtain ⟨x, bytes, modified, hx, hne, he⟩ := Workspace.isRegular_iff.1 hregular
    obtain ⟨x', -, -, hx', -, -⟩ := Workspace.isRegular_iff.1 hregular'
    obtain rfl := h.placeOf_unique hx hx'
    obtain ⟨hstat, hread⟩ := view_of_file hx hne he
    obtain ⟨hstat', hread'⟩ := view_of_file hx' hne he
    simp only [view, fileSize, Fingerprint.probe, hstat, hstat', hread, hread']
  | false =>
    have hregular' := hregular
    rw [halike.regular] at hregular'
    by_cases hmissing : w.stat p = .error .notFound
    · rw [view_of_missing hmissing, view_of_missing (halike.missing.1 hmissing)]
    · rw [view_of_unreadable hregular hmissing,
        view_of_unreadable hregular' (hmissing ∘ halike.missing.2)]

/-- Paths with one fingerprint are taken alike. -/
theorem alike_of_ofFile (h : Fingerprint.ofFile w p = Fingerprint.ofFile w p') : Alike w p p' := by
  have hregular (p : Path) : (Fingerprint.ofFile w p).isContent = w.isRegular p := by
    cases hp : w.isRegular p with
    | true =>
      obtain ⟨x, bytes, modified, hx, hne, he⟩ := Workspace.isRegular_iff.1 hp
      obtain ⟨hstat, hread⟩ := view_of_file hx hne he
      rw [FileState.fingerprint_regular hstat hread]
      rfl
    | false =>
      show ((view w p).probe none).1.isContent = false
      by_cases hmissing : w.stat p = .error .notFound
      · rw [view_of_missing hmissing]
        rfl
      · rw [view_of_unreadable hp hmissing]
        rfl
  -- a path that is missing is no file, and what is there has another fingerprint
  have hmissing (p : Path) : w.stat p = .error .notFound ↔ Fingerprint.ofFile w p = .missing := by
    show _ ↔ ((view w p).probe none).1 = .missing
    constructor
    · intro hp
      rw [view_of_missing hp]
    · intro hp
      by_contra hnot
      cases hkind : w.isRegular p with
      | false =>
        rw [view_of_unreadable hkind hnot] at hp
        cases hp
      | true =>
        rw [← hregular p, Fingerprint.ofFile] at hkind
        rw [show (Fingerprint.probe w none p).1 = .missing from hp] at hkind
        cases hkind
  constructor
  · rw [← hregular, ← hregular, h]
  · rw [hmissing, hmissing, h]

/-! ## Lists of targets as sets -/

/-- Whichever of the targets gives a key its path, it is taken alike. -/
def Unambiguous (w : Workspace) (root : Path) (wanted : List String) (targets : List Path) : Prop :=
  ∀ target ∈ targets, ∀ target' ∈ targets, ∀ key p p', Gives w root wanted target key p →
    Gives w root wanted target' key p' → Alike w p p'

theorem get?_candidates_of_selected (h : (selected w root targets o).get? key = some p) :
    (candidates w root o.extensions targets).files.get? key = some p := by
  rw [selected] at h
  split at h
  · split at h
    · rw [Candidates.listed, SortedMap.get?_filter, Option.filter_eq_some_iff] at h
      exact h.1
    · exact h
  · exact h

/-- Lists with the same targets have candidates with the same keys. -/
theorem keys_selected_congr (h : ∀ target, target ∈ targets' ↔ target ∈ targets) :
    key ∈ (selected w root targets' o).keys ↔ key ∈ (selected w root targets o).keys := by
  rw [mem_keys_selected, mem_keys_selected, mem_keys_candidates, mem_keys_candidates, Left, Left]
  simp only [h]

theorem collect_congr (hunambiguous : Unambiguous w root o.extensions targets)
    (h : ∀ target, target ∈ targets' ↔ target ∈ targets) :
    collect w root targets' o = collect w root targets o := by
  -- both lists select the same keys, and under each key paths that look alike
  have hviews : SortedMap.Rel (fun p p' => view w p = view w p') (selected w root targets' o)
      (selected w root targets o) := by
    intro key
    have hkeys : key ∈ (selected w root targets' o).keys ↔ key ∈ (selected w root targets o).keys :=
      keys_selected_congr h
    rw [SortedMap.mem_keys, SortedMap.mem_keys] at hkeys
    cases hp : (selected w root targets o).get? key with
    | none =>
      rw [hp] at hkeys
      rw [Option.not_isSome_iff_eq_none.1 fun hsome => Bool.false_ne_true (hkeys.1 hsome)]
      exact .none
    | some p =>
      rw [hp] at hkeys
      obtain ⟨p', hp'⟩ := Option.isSome_iff_exists.1 (hkeys.2 rfl)
      have hcandidate := get?_candidates_of_selected hp
      have hcandidate' := get?_candidates_of_selected hp'
      obtain ⟨target, hmem, hgives⟩ := exists_gives hcandidate
      obtain ⟨target', hmem', hgives'⟩ := exists_gives hcandidate'
      rw [hp']
      exact .some (view_eq (respelled_of_candidates hcandidate' hcandidate)
        (hunambiguous target' ((h target').1 hmem') target hmem key p' p hgives' hgives))
  have hsame : (selected w root targets' o).mapValues (fun _ p => view w p) =
      (selected w root targets o).mapValues fun _ p => view w p := by
    refine SortedMap.ext_get? fun key => ?_
    rw [SortedMap.get?_mapValues, SortedMap.get?_mapValues]
    cases hp : (selected w root targets' o).get? key with
    | none => rw [hviews.none_right hp]
    | some p =>
      obtain ⟨p', hp', hview⟩ := hviews.exists_right hp
      rw [hp', Option.map_some, Option.map_some, hview]
  rw [collect_eq_collectViews, collect_eq_collectViews, hsame]

/-- Without limits and without what is known, a collection has the fingerprints of all
candidates. -/
theorem get?_collect_unlimited (w : Workspace) (root : Path) (wanted : List String)
    (targets : List Path) (key : String) :
    (collect w root targets ⟨wanted, false, none, none, none⟩).fingerprints.get? key =
      ((candidates w root wanted targets).files.get? key).map (Fingerprint.ofFile w) := by
  rw [fingerprints_collect _ _ _ rfl, get?_ofList_map, taken, takeWithin_unlimited,
    SortedMap.ofList_entries]
  rfl

/-- Paths that are spelled plainly are never ambiguous. -/
theorem unambiguous_of_plain
    (h : ∀ target ∈ targets, ∀ key p, Gives w root wanted target key p → Workspace.Plain p) :
    Unambiguous w root wanted targets := by
  intro target hmem target' hmem' key p p' hgives hgives'
  obtain ⟨hp, hkey⟩ := hgives.anchored
  obtain ⟨hp', hkey'⟩ := hgives'.anchored
  have hrespelled := Workspace.Respelled.of_key hp hp' (hkey.symm.trans hkey')
  have hstat : w.stat p = w.stat p' := by
    rw [Workspace.stat, Workspace.stat, Workspace.placeOf, Workspace.placeOf,
      hrespelled.locate_eq (h target hmem key p hgives) (h target' hmem' key p' hgives')]
  constructor
  · rw [Workspace.isRegular, Workspace.isRegular, hstat]
  · rw [hstat]

/-- **The list of targets is a set**, whatever its order and however often it has each of them,
exactly if no two of the targets give a key paths that are not taken alike. None do if all files
are spelled plainly. -/
theorem collect_eq_iff (w : Workspace) (root : Path) (wanted : List String) (targets : List Path) :
    ((∀ targets', (∀ target, target ∈ targets' ↔ target ∈ targets) →
      ∀ respectIgnore maxFiles maxBytes baseline,
        collect w root targets' ⟨wanted, respectIgnore, maxFiles, maxBytes, baseline⟩ =
          collect w root targets ⟨wanted, respectIgnore, maxFiles, maxBytes, baseline⟩) ↔
      Unambiguous w root wanted targets) ∧
    ((∀ target ∈ targets, ∀ key p, Gives w root wanted target key p → Workspace.Plain p) →
      Unambiguous w root wanted targets) := by
  refine ⟨⟨fun hset target hmem target' hmem' key p p' hp hp' => ?_,
    fun hunambiguous targets' h respectIgnore maxFiles maxBytes baseline =>
      collect_congr hunambiguous h⟩, unambiguous_of_plain⟩
  -- each of the two is put last, where it decides
  have hlast {target : Path} {p : Path} (hmem : target ∈ targets)
      (hp : Gives w root wanted target key p) :
      (collect w root targets ⟨wanted, false, none, none, none⟩).fingerprints.get? key =
        some (Fingerprint.ofFile w p) := by
    have hsame : ∀ t, t ∈ targets ++ [target] ↔ t ∈ targets := by
      intro t
      rw [List.mem_append, List.mem_singleton]
      exact or_iff_left_of_imp fun heq => heq ▸ hmem
    rw [← hset _ hsame, get?_collect_unlimited, get?_candidates_concat,
      show (SortedMap.ofList _).get? key = some p from hp]
    rfl
  exact alike_of_ofFile (Option.some.inj ((hlast hmem hp).symm.trans (hlast hmem' hp')))

/-! ## A file that is asked for as a directory -/

/-- A file of one byte. -/
def single : Workspace := ⟨SortedMap.ofList [(["f"], .file ⟨#[120]⟩ 0)], [], 1⟩

theorem stat_single : single.stat ⟨"f"⟩ = .ok (.regular 1 0) ∧ single.read ⟨"f"⟩ = .ok ⟨#[120]⟩ ∧
    single.stat ⟨"f/"⟩ = .error .notDirectory := by
  have hfile : single.entries.get? ["f"] = some (.file ⟨#[120]⟩ 0) := by
    simp [single, SortedMap.get?_ofList]
  have hname : Workspace.Named "f" := ⟨by decide, by decide, by decide⟩
  have hsteps : Workspace.steps "f" = ["f"] := by decide
  have hplace : single.placeOf ⟨"f"⟩ = .ok ["f"] := by
    refine Workspace.placeOf_eq_ok.2 (Workspace.locate_eq_ok.2 ⟨by decide, 0, Nat.zero_le _, ?_⟩)
    rw [hsteps]
    exact .enter rfl hname _ hfile (by simp) (.done _)
  obtain ⟨hstat, hread⟩ := view_of_file hplace (by simp) hfile
  refine ⟨hstat, hread, ?_⟩
  -- the file is reached, but the slash asks for a directory there
  have hslash : Workspace.steps "f/" = ["f", "."] := by decide
  have hleaf : single.isDirectoryAt ["f"] = false := by
    rw [Workspace.isDirectoryAt, hfile]
    rfl
  have hwalk : single.walk true Workspace.linkLimit [] ["f", "."] = .error .notDirectory := by
    rw [Workspace.walk_cons single true _ [] rfl hname, List.nil_append, hfile]
    exact Workspace.walk_of_leaf hleaf (List.cons_ne_nil _ _)
  have hlocate : single.locate true ⟨"f/"⟩ = .error .notDirectory := by
    rw [Workspace.locate, Workspace.locateSteps, hslash]
    exact hwalk
  rw [Workspace.stat, Workspace.placeOf, hlocate]
  rfl

/-- **Two orders of two targets**: the file is hashed if it is named last, and it is unreadable if
the one is last that asks for a directory. -/
theorem collect_reordered :
    let o : CollectOptions := ⟨[], false, none, none, none⟩
    [Path.mk "f/", ⟨"f"⟩].Perm [⟨"f"⟩, ⟨"f/"⟩] ∧
      (collect single ⟨""⟩ [⟨"f/"⟩, ⟨"f"⟩] o).fingerprints.get? "f" =
        some (.content (Xxh3.hex ⟨#[120]⟩) 0 1) ∧
      (collect single ⟨""⟩ [⟨"f"⟩, ⟨"f/"⟩] o).fingerprints.get? "f" = some .unreadable := by
  intro o
  obtain ⟨hstat, hread, hslash⟩ := stat_single
  have hdirectory : ∀ target ∈ [Path.mk "f/", ⟨"f"⟩],
      single.isDirectory (Path.join ⟨""⟩ target) = false := by
    simp [Path.join, Path.isAbsolute, Workspace.isDirectory, hstat, hslash]
  have hdirectory' : ∀ target ∈ [Path.mk "f", ⟨"f/"⟩],
      single.isDirectory (Path.join ⟨""⟩ target) = false := by
    simp [Path.join, Path.isAbsolute, Workspace.isDirectory, hstat, hslash]
  refine ⟨.swap _ _ [], ?_, ?_⟩
  · have hlast : (SortedMap.ofList ([Path.mk "f/", ⟨"f"⟩].map fun target =>
        (Path.key ⟨""⟩ (Path.join ⟨""⟩ target), Path.join ⟨""⟩ target))).get? "f" = some ⟨"f"⟩ := by
      decide
    rw [get?_collect_unlimited, files_candidates_of_named hdirectory, hlast, Option.map_some,
      FileState.fingerprint_regular hstat hread]
    rfl
  · have hlast : (SortedMap.ofList ([Path.mk "f", ⟨"f/"⟩].map fun target =>
        (Path.key ⟨""⟩ (Path.join ⟨""⟩ target), Path.join ⟨""⟩ target))).get? "f" =
          some ⟨"f/"⟩ := by
      decide
    rw [get?_collect_unlimited, files_candidates_of_named hdirectory', hlast, Option.map_some,
      Fingerprint.ofFile, Fingerprint.probe, hslash]
    rfl

end Collection

end AnalysisGate
