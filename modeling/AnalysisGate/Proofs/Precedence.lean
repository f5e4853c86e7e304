import AnalysisGate.Options
import AnalysisGate.Proofs.MapViews
import Mathlib

/-!
Which layer of options decides.

A path lies in a chain of directories, each of which starts the next, so two directories that hold
it and have as many components are one directory. That is why the layers of a path, sorted by the
number of components, stand directory by directory from the outermost to the path itself
(`OptionsLayers.matching_eq`), and why each option is that of the first layer that sets it, asked
from the nearest directory outwards (`OptionsLayers.buildFor_isFirstOf`).
-/
namespace AnalysisGate

/-! ## Lists sorted by a number -/

section Sorted

variable {α : Type}

/-- Sorting moves none of the elements that are in order already. -/
theorem filter_mergeSort {le : α → α → Bool} (htrans : ∀ a b c, le a b → le b c → le a c)
    (htotal : ∀ a b, le a b || le b a) {p : α → Bool} {l : List α}
    (hp : (l.filter p).Pairwise fun a b => le a b = true) :
    (l.mergeSort le).filter p = l.filter p := by
  have hkept : (l.filter p).Sublist (l.mergeSort le) :=
    List.sublist_mergeSort htrans htotal hp List.filter_sublist
  have hsublist : (l.filter p).Sublist ((l.mergeSort le).filter p) := by
    have h := hkept.filter p
    rwa [List.filter_filter, funext fun a => Bool.and_self (p a)] at h
  have hlength : ((l.mergeSort le).filter p).length = (l.filter p).length :=
    ((List.mergeSort_perm l le).filter p).length_eq
  exact (hsublist.eq_of_length hlength.symm).symm

variable {f : α → Nat} {l : List α}

/-- What is below a number, and then what is at it. -/
theorem filter_lt_append_filter_eq (h : l.Pairwise fun a b => f a ≤ f b) (n : Nat) :
    l.filter (f · < n) ++ l.filter (f · = n) = l.filter (f · < n + 1) := by
  induction l with
  | nil => rfl
  | cons a rest ih =>
    obtain ⟨hhead, htail⟩ := List.pairwise_cons.1 h
    have ih := ih htail
    by_cases hlt : f a < n
    · have hne : f a ≠ n := by omega
      have hsucc : f a < n + 1 := by omega
      simp only [List.filter_cons, hlt, hne, hsucc, decide_true, decide_false, if_true, if_false,
        Bool.false_eq_true, List.cons_append, ih]
    · have hnone : rest.filter (f · < n) = [] := by
        apply List.filter_eq_nil_iff.2
        intro b hb
        have hle := hhead b hb
        simp only [decide_eq_true_eq]
        omega
      have hsucc : decide (f a < n + 1) = decide (f a = n) := by
        apply decide_eq_decide.2
        omega
      rw [hnone, List.nil_append] at ih
      simp only [List.filter_cons, hlt, hsucc, hnone, decide_false, if_false, Bool.false_eq_true,
        List.nil_append, ih]

/-- A sorted list stands group by group. -/
theorem flatMap_range_filter (h : l.Pairwise fun a b => f a ≤ f b) (n : Nat) :
    (List.range n).flatMap (fun k => l.filter (f · = k)) = l.filter (f · < n) := by
  induction n with
  | zero => simp
  | succ n ih =>
    rw [List.range_succ, List.flatMap_append, ih, List.flatMap_singleton,
      filter_lt_append_filter_eq h]

theorem inits_eq_map_take (l : List α) : l.inits = (List.range (l.length + 1)).map l.take := by
  apply List.ext_getElem <;> simp

end Sorted

namespace Path

theorem startsWith_iff {p dir : Path} :
    p.startsWith dir = true ↔ dir.components <+: p.components :=
  isSome_dropStart?

/-- A path has one directory of each length. -/
theorem startsWith_and_length {p dir : Path} {n : Nat} (hn : n ≤ p.components.length) :
    p.startsWith dir = true ∧ dir.components.length = n ↔
      dir.components = p.components.take n := by
  rw [startsWith_iff]
  constructor
  · rintro ⟨hstarts, rfl⟩
    exact List.prefix_iff_eq_take.1 hstarts
  · intro h
    rw [h, List.length_take, Nat.min_eq_left hn]
    exact ⟨List.take_prefix n _, rfl⟩

end Path

/-! ## The layers of a path -/

namespace OptionsLayers

/-- The layers of one directory, however it is spelled, in the order in which they are
registered. -/
def layersAt (ds : List (Path × OptionsLayer)) (cs : List Component) : List OptionsLayer :=
  (ds.filter (·.1.components = cs)).map (·.2)

/-- The layers that say something on a path, the one that decides first: the directories that hold
it from the nearest outwards, in each the layer registered last, then profile, engine and
defaults. -/
def precedence (l : OptionsLayers) (p : Path) : List OptionsLayer :=
  (p.components.inits.reverse.flatMap fun cs => (layersAt l.directories cs).reverse) ++
    [l.profile, l.engine, l.defaults]

variable {l : OptionsLayers} {p : Path}

/-- How deep the directory of a layer lies. -/
def depth (e : Path × OptionsLayer) : Nat := e.1.components.length

theorem shallower_trans (a b c : Path × OptionsLayer) (hab : decide (depth a ≤ depth b))
    (hbc : decide (depth b ≤ depth c)) : decide (depth a ≤ depth c) :=
  decide_eq_true (Nat.le_trans (of_decide_eq_true hab) (of_decide_eq_true hbc))

theorem shallower_total (a b : Path × OptionsLayer) :
    decide (depth a ≤ depth b) || decide (depth b ≤ depth a) := by
  rw [Bool.or_eq_true, decide_eq_true_eq, decide_eq_true_eq]
  exact Nat.le_total ..

theorem pairwise_matching (l : OptionsLayers) (p : Path) :
    (l.matching p).Pairwise fun a b => depth a ≤ depth b :=
  (List.pairwise_mergeSort shallower_trans shallower_total _).imp of_decide_eq_true

theorem depth_of_mem_matching {e : Path × OptionsLayer} (he : e ∈ l.matching p) :
    depth e < p.components.length + 1 := by
  have hheld := (List.mergeSort_perm ..).mem_iff.1 he
  exact Nat.lt_succ_of_le (Path.startsWith_iff.1 (List.mem_filter.1 hheld).2).length_le

/-- The layers of one depth are those of one directory, in the order in which they are
registered. -/
theorem filter_matching {n : Nat} (hn : n ≤ p.components.length) :
    (l.matching p).filter (depth · = n) =
      l.directories.filter (·.1.components = p.components.take n) := by
  have hkept : (l.matching p).filter (depth · = n) =
      (l.directories.filter fun e => p.startsWith e.1).filter (depth · = n) := by
    apply filter_mergeSort shallower_trans shallower_total
    apply List.pairwise_of_forall_mem_list
    intro a ha b hb
    have ha : depth a = n := of_decide_eq_true (List.mem_filter.1 ha).2
    have hb : depth b = n := of_decide_eq_true (List.mem_filter.1 hb).2
    exact decide_eq_true (by rw [ha, hb])
  rw [hkept, List.filter_filter]
  apply List.filter_congr
  intro e _
  rw [Bool.eq_iff_iff, Bool.and_eq_true, decide_eq_true_eq, decide_eq_true_eq, and_comm]
  exact Path.startsWith_and_length hn

/-- **The sorted layers stand directory by directory**, from the outermost to the path itself. -/
theorem matching_eq (l : OptionsLayers) (p : Path) :
    l.matching p =
      p.components.inits.flatMap fun cs => l.directories.filter (·.1.components = cs) := by
  calc l.matching p
      = (l.matching p).filter (depth · < p.components.length + 1) :=
        (List.filter_eq_self.2 fun e he => decide_eq_true (depth_of_mem_matching he)).symm
    _ = (List.range (p.components.length + 1)).flatMap
          (fun n => (l.matching p).filter (depth · = n)) :=
        (flatMap_range_filter (pairwise_matching l p) _).symm
    _ = (List.range (p.components.length + 1)).flatMap
          (fun n => l.directories.filter (·.1.components = p.components.take n)) :=
        List.flatMap_congr fun n hn => filter_matching (Nat.lt_succ_iff.1 (List.mem_range.1 hn))
    _ = _ := by rw [inits_eq_map_take, List.flatMap_map]

/-- The layers are applied in the opposite order to that in which they decide. -/
theorem precedence_eq_reverse (l : OptionsLayers) (p : Path) :
    l.precedence p =
      ([l.defaults, l.engine, l.profile] ++ (l.matching p).map (·.2)).reverse := by
  rw [precedence, matching_eq, List.reverse_append, List.map_flatMap, List.reverse_flatMap]
  rfl

theorem buildFor_eq_foldl (l : OptionsLayers) (p : Path) :
    l.buildFor p = (l.precedence p).reverse.foldl EngineOptions.apply .empty := by
  rw [precedence_eq_reverse, List.reverse_reverse, List.foldl_append, List.foldl_map]
  rfl

end OptionsLayers

/-! ## The first layer that sets an option -/

namespace EngineOptions

/-- Options in which each is that of the first layer that sets it, and empty if none does. -/
structure IsFirstOf (o : EngineOptions) (asked : List OptionsLayer) : Prop where
  profile : o.profile = asked.findSome? (·.profile)
  configFile : o.configFile = asked.findSome? (·.configFile)
  pluginArgs : o.pluginArgs = (asked.findSome? (·.pluginArgs)).getD []
  included : o.included = (asked.findSome? (·.included)).getD []
  excluded : o.excluded = (asked.findSome? (·.excluded)).getD []
  overrides : ∀ k, o.overrides.get? k = asked.findSome? (·.overrides.get? k)
  categories : ∀ k, o.categories.get? k = asked.findSome? (·.categories.get? k)

/-- The layers decide every option. -/
theorem IsFirstOf.unique {o o' : EngineOptions} {asked : List OptionsLayer}
    (h : o.IsFirstOf asked) (h' : o'.IsFirstOf asked) : o = o' := by
  have hoverrides : o.overrides = o'.overrides :=
    SortedMap.ext_get? fun k => (h.overrides k).trans (h'.overrides k).symm
  have hcategories : o.categories = o'.categories :=
    SortedMap.ext_get? fun k => (h.categories k).trans (h'.categories k).symm
  cases o
  cases o'
  rw [EngineOptions.mk.injEq]
  exact ⟨h.profile.trans h'.profile.symm, h.configFile.trans h'.configFile.symm,
    h.pluginArgs.trans h'.pluginArgs.symm, h.included.trans h'.included.symm,
    h.excluded.trans h'.excluded.symm, hoverrides, hcategories⟩

/-- **What layers leave in an option** is what the last of them says that says something. -/
theorem setting_foldl {α : Type} (get : EngineOptions → Option α) (set : OptionsLayer → Option α)
    (hstep : ∀ o layer, get (o.apply layer) = (set layer).or (get o)) (ls : List OptionsLayer)
    (o : EngineOptions) :
    get (ls.foldl apply o) = (ls.reverse.findSome? set).or (get o) := by
  induction ls generalizing o with
  | nil => rfl
  | cons layer rest ih =>
    rw [List.foldl_cons, ih, hstep, List.reverse_cons, List.findSome?_append, Option.or_assoc]
    simp

/-- An option that is not set at the start is that of the layer that decides first. -/
theorem setting_first {α : Type} (get : EngineOptions → Option α) (set : OptionsLayer → Option α)
    (hstart : get .empty = none)
    (hstep : ∀ o layer, get (o.apply layer) = (set layer).or (get o)) (ls : List OptionsLayer) :
    get (ls.reverse.foldl apply .empty) = ls.findSome? set := by
  rw [setting_foldl get set hstep, List.reverse_reverse, hstart, Option.or_none]

/-- So is a list, which layers replace as a whole. -/
theorem list_first (get : EngineOptions → List String) (set : OptionsLayer → Option (List String))
    (hstart : get .empty = [])
    (hstep : ∀ o layer, get (o.apply layer) = (set layer).getD (get o)) (ls : List OptionsLayer) :
    get (ls.reverse.foldl apply .empty) = (ls.findSome? set).getD [] := by
  have hsome := setting_foldl (fun o => some (get o)) set
    (fun o layer => by rw [hstep, Option.or_some]) ls.reverse .empty
  rw [List.reverse_reverse, hstart, Option.or_some] at hsome
  exact Option.some.inj hsome

theorem isFirstOf_foldl (ls : List OptionsLayer) :
    (ls.reverse.foldl apply .empty).IsFirstOf ls where
  profile := setting_first _ _ rfl (fun _ _ => rfl) ls
  configFile := setting_first _ _ rfl (fun _ _ => rfl) ls
  pluginArgs := list_first _ _ rfl (fun _ _ => rfl) ls
  included := list_first _ _ rfl (fun _ _ => rfl) ls
  excluded := list_first _ _ rfl (fun _ _ => rfl) ls
  overrides k := setting_first (·.overrides.get? k) (·.overrides.get? k) rfl
    (fun _ _ => SortedMap.get?_merge ..) ls
  categories k := setting_first (·.categories.get? k) (·.categories.get? k) rfl
    (fun _ _ => SortedMap.get?_merge ..) ls

/-- A map that is built key by key has the keys of all layers. -/
theorem mem_keys_iff {α : Type} {m : SortedMap String α} {f : OptionsLayer → SortedMap String α}
    {asked : List OptionsLayer} (h : ∀ k, m.get? k = asked.findSome? fun layer => (f layer).get? k)
    (k : String) : k ∈ m.keys ↔ ∃ layer ∈ asked, k ∈ (f layer).keys := by
  simp only [SortedMap.mem_keys, h, List.findSome?_isSome_iff]

end EngineOptions

/-! ## Resolution -/

namespace OptionsLayers

variable {l : OptionsLayers} {p : Path}

theorem buildFor_isFirstOf (l : OptionsLayers) (p : Path) :
    (l.buildFor p).IsFirstOf (l.precedence p) := by
  rw [buildFor_eq_foldl]
  exact EngineOptions.isFirstOf_foldl _

/-- Only the layers of the directories that hold a path matter, and of these the order in each
directory. -/
theorem buildFor_congr {ds : List (Path × OptionsLayer)}
    (h : ∀ cs, cs <+: p.components → layersAt ds cs = layersAt l.directories cs) :
    ({ l with directories := ds } : OptionsLayers).buildFor p = l.buildFor p := by
  have hprecedence : ({ l with directories := ds } : OptionsLayers).precedence p =
      l.precedence p := by
    have hgroups : p.components.inits.reverse.flatMap (fun cs => (layersAt ds cs).reverse) =
        p.components.inits.reverse.flatMap fun cs => (layersAt l.directories cs).reverse := by
      apply List.flatMap_congr
      intro cs hcs
      rw [h cs ((List.mem_inits ..).1 (List.mem_reverse.1 hcs))]
    rw [precedence, precedence, hgroups]
  have hfirst := buildFor_isFirstOf { l with directories := ds } p
  rw [hprecedence] at hfirst
  exact hfirst.unique (buildFor_isFirstOf l p)

/-- A directory that does not hold the path can be left out. -/
theorem layersAt_filter {ds : List (Path × OptionsLayer)} {cs : List Component}
    (h : cs <+: p.components) :
    layersAt (ds.filter fun e => e.1.components <+: p.components) cs = layersAt ds cs := by
  rw [layersAt, layersAt, List.filter_filter]
  congr 1
  apply List.filter_congr
  intro e _
  by_cases heq : e.1.components = cs
  · simp [heq, h]
  · simp [heq]

/-- **The nearest directory decides.** Each option for a path is that of the first layer that sets
it, in the order of `precedence`, and each named value is that of the first layer that has its
name, so that all names of these layers are there. So it does not matter in which order different
directories are registered, as long as the layers of each directory come in the same order, and
directories that do not hold the path do not count. -/
theorem buildFor_nearest (l : OptionsLayers) (p : Path) :
    (l.buildFor p).IsFirstOf (l.precedence p) ∧
      (∀ k, k ∈ (l.buildFor p).overrides.keys ↔
        ∃ layer ∈ l.precedence p, k ∈ layer.overrides.keys) ∧
      (∀ k, k ∈ (l.buildFor p).categories.keys ↔
        ∃ layer ∈ l.precedence p, k ∈ layer.categories.keys) ∧
      (∀ ds, (∀ cs, layersAt ds cs = layersAt l.directories cs) →
        ({ l with directories := ds } : OptionsLayers).buildFor p = l.buildFor p) ∧
      ({ l with
          directories := l.directories.filter fun e => e.1.components <+: p.components } :
        OptionsLayers).buildFor p = l.buildFor p := by
  have hfirst := buildFor_isFirstOf l p
  refine ⟨hfirst, EngineOptions.mem_keys_iff hfirst.overrides,
    EngineOptions.mem_keys_iff hfirst.categories, ?reordered, ?others⟩
  case reordered =>
    intro ds hds
    exact buildFor_congr fun cs _ => hds cs
  case others => exact buildFor_congr fun cs hcs => layersAt_filter hcs

/-- A layer that names a profile. -/
def naming (s : String) : OptionsLayer := { OptionsLayer.empty with profile := some s }

/-- Two spellings of one directory around one that lies in it, in either order. -/
theorem buildFor_nearest_respelled :
    let l : OptionsLayers := ⟨.empty, naming "engine", .empty,
      [(⟨"src/old"⟩, naming "old"), (⟨"src"⟩, naming "first"), (⟨"src//."⟩, naming "second")]⟩
    let ds : List (Path × OptionsLayer) :=
      [(⟨"src"⟩, naming "first"), (⟨"src//."⟩, naming "second"), (⟨"src/old"⟩, naming "old")]
    ({ l with directories := ds } : OptionsLayers).buildFor ⟨"src/old/a.py"⟩ =
        l.buildFor ⟨"src/old/a.py"⟩ ∧
      (l.buildFor ⟨"src/old/a.py"⟩).profile = some "old" ∧
      (l.buildFor ⟨"src/a.py"⟩).profile = some "second" := by
  intro l ds
  have hold : Path.components ⟨"src/old"⟩ = [.name "src", .name "old"] := by decide
  have hfirst : Path.components ⟨"src"⟩ = [.name "src"] := by decide
  have hsecond : Path.components ⟨"src//."⟩ = [.name "src"] := by decide
  have hds : ∀ cs, layersAt ds cs = layersAt l.directories cs := by
    intro cs
    by_cases h : cs = [.name "src"]
    · simp [layersAt, ds, l, h, hold, hfirst, hsecond]
    · have hother : [.name "src"] ≠ cs := Ne.symm h
      simp [layersAt, ds, l, List.filter_cons, hother, hold, hfirst, hsecond]
  refine ⟨(buildFor_nearest l _).2.2.2.1 ds hds, ?_, ?_⟩
  · rw [(buildFor_nearest l _).1.profile]
    decide
  · rw [(buildFor_nearest l _).1.profile]
    decide

end OptionsLayers

end AnalysisGate
