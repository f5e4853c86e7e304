import AnalysisGate.Proofs.CacheKeys
import AnalysisGate.Proofs.MapViews
import AnalysisGate.Proofs.Signatures
import Mathlib

/-!
What the text of a key tells.

Tool and mode stand before the digest with a colon between them, and either may have colons of its
own, so only the digest tells keys apart. It is taken of a document of all four parts, and such a
document has a text of its own (`CacheKey.canonicalText_inj`), whatever characters the parts have.
So keys that are built of any paths and flags have one text exactly if they have one tool, one mode,
the same paths in any order and number, and the same flags in order (`CacheKey.text_eq_iff`), as
long as their two documents have digests of their own.
-/
namespace AnalysisGate

/-- What a key is given after its paths. -/
inductive FlagStep
  | flag (name value : String)
  | options (o : EngineOptions)
  | configFile (w : Workspace) (p : Path)
  | toolVersion (version : Option String)

namespace FlagStep

/-- A key with what one step gives it. -/
def apply (k : CacheKey) : FlagStep → CacheKey
  | flag name value => k.withFlag name value
  | options o => k.withOptions o
  | configFile w p => k.withConfigFile w p
  | toolVersion version => k.withToolVersion version

/-- The flags of a step. -/
def flags : FlagStep → List String
  | flag name value => [CacheKey.flagText name value]
  | options o => CacheKey.optionFlags o
  | configFile w p => [CacheKey.flagText "config-file" p.text,
      CacheKey.flagText "config-fingerprint" (Fingerprint.ofFile w p).toJson.compactText]
  | toolVersion version => [CacheKey.flagText "tool-version" (version.getD "unknown")]

/-- A step appends its flags to a key and leaves the rest of it. -/
theorem apply_eq (s : FlagStep) (k : CacheKey) : s.apply k = k.withFlags s.flags := by
  cases s with
  | flag name value => rfl
  | options o => rfl
  | toolVersion version => rfl
  | configFile w p =>
    show (k.withFlags _).withFlags _ = k.withFlags ([_] ++ [_])
    rw [CacheKey.withFlags, CacheKey.withFlags, List.append_assoc]
    rfl

end FlagStep

namespace CacheKey

/-! ## Keys that are built -/

/-- The key of paths and of steps after them. -/
def built (tool mode : String) (paths : List String) (steps : List FlagStep) : CacheKey :=
  steps.foldl FlagStep.apply (ofPaths tool mode paths)

/-- Steps append their flags in order. -/
theorem foldl_apply (steps : List FlagStep) (k : CacheKey) :
    steps.foldl FlagStep.apply k = k.withFlags (steps.flatMap FlagStep.flags) := by
  induction steps generalizing k with
  | nil =>
    show k = { k with flags := k.flags ++ [] }
    rw [List.append_nil]
  | cons s rest ih =>
    rw [List.foldl_cons, ih, FlagStep.apply_eq, List.flatMap_cons]
    simp only [withFlags, List.append_assoc]

theorem built_eq (tool mode : String) (paths : List String) (steps : List FlagStep) :
    built tool mode paths steps =
      ⟨tool, mode, SortedSet.ofList paths, steps.flatMap FlagStep.flags⟩ := by
  rw [built, foldl_apply]
  rfl

/-- Paths make one set exactly if they are the same up to order and repetition. -/
theorem ofList_eq_iff {paths paths' : List String} :
    SortedSet.ofList paths = SortedSet.ofList paths' ↔ ∀ p, p ∈ paths ↔ p ∈ paths' := by
  refine ⟨fun h p => ?_, SortedSet.ofList_congr⟩
  rw [← SortedSet.mem_keys_ofList (l := paths), h, SortedSet.mem_keys_ofList]

/-! ## Documents of keys -/

/-- The members of a key's document are values without doubles. -/
theorem over_members (k : CacheKey) :
    ∀ e ∈ [("tool", Json.string k.tool), ("mode", .string k.mode),
      ("paths", .ofStrings k.paths.keys), ("flags", .ofStrings k.flags)],
      Json.Over ∅ e.2 := by
  have hstring (s : String) : Json.Over ∅ (.string s) := ⟨rfl, nofun⟩
  have hstrings (l : List String) : Json.Over ∅ (.ofStrings l) := by
    apply Json.over_array.2
    intro j hj
    obtain ⟨s, -, rfl⟩ := List.mem_map.1 hj
    exact hstring s
  simp only [List.forall_mem_cons, List.not_mem_nil, false_imp_iff, implies_true, and_true]
  exact ⟨hstring _, hstring _, hstrings _, hstrings _⟩

theorem ofStrings_inj {l l' : List String} (h : Json.ofStrings l = .ofStrings l') : l = l' := by
  refine List.map_injective_iff.2 ?_ (Json.array.inj h)
  intro s s' hs
  exact Json.string.inj hs

/-- **The document of a key tells all of it**, whatever quotes, colons and control characters it
has. -/
theorem canonicalText_inj {k k' : CacheKey} (h : k.canonicalText = k'.canonicalText) : k = k' := by
  have hmembers := Json.members_inj (D := ∅) (Set.injOn_empty _) k.over_members k'.over_members h
  simp only [List.cons.injEq, Prod.mk.injEq, Json.string.injEq, true_and, and_true] at hmembers
  obtain ⟨htool, hmode, hpaths, hflags⟩ := hmembers
  have hset : k.paths = k'.paths := by
    rw [← SortedSet.ofList_keys k.paths, ofStrings_inj hpaths, SortedSet.ofList_keys]
  cases k
  cases k'
  rw [CacheKey.mk.injEq]
  exact ⟨htool, hmode, hset, ofStrings_inj hflags⟩

/-! ## Texts -/

/-- **A text names one invocation**: keys that are built of any paths and steps have one text
exactly if tool, mode, the set of the paths and the flags of the steps in their order are the same,
as long as their documents have digests of their own. -/
theorem text_eq_iff {tool tool' mode mode' : String} {paths paths' : List String}
    {steps steps' : List FlagStep}
    (hdigests : Set.InjOn Sha256.hex {(built tool mode paths steps).canonicalText,
      (built tool' mode' paths' steps').canonicalText}) :
    (built tool mode paths steps).text = (built tool' mode' paths' steps').text ↔
      tool = tool' ∧ mode = mode' ∧ (∀ p, p ∈ paths ↔ p ∈ paths') ∧
        steps.flatMap FlagStep.flags = steps'.flatMap FlagStep.flags := by
  constructor
  · intro h
    have hsame := canonicalText_inj (hdigests (.inl rfl) (.inr rfl) (hex_of_text h))
    rw [built_eq, built_eq, CacheKey.mk.injEq] at hsame
    obtain ⟨htool, hmode, hpaths, hflags⟩ := hsame
    exact ⟨htool, hmode, ofList_eq_iff.1 hpaths, hflags⟩
  · intro h
    obtain ⟨rfl, rfl, hpaths, hflags⟩ := h
    rw [built_eq, built_eq, hflags, ofList_eq_iff.2 hpaths]

/-- One invocation with its paths in another order and twice, and two invocations whose tools and
modes spell one text. -/
theorem text_eq_iff_colons :
    let quoted : List FlagStep := [.flag "arg" "\"\\\n", .toolVersion none]
    (built "lint" "a" ["src", "lib", "src"] quoted).text =
        (built "lint" "a" ["lib", "src"] quoted).text ∧
      (built "lint:a" "b" [] []).text ≠ (built "lint" "a:b" [] []).text := by
  intro quoted
  constructor
  · apply (text_eq_iff ?_).2
    · exact ⟨rfl, rfl, by simp [or_comm], rfl⟩
    · have hsame : (built "lint" "a" ["src", "lib", "src"] quoted).canonicalText =
          (built "lint" "a" ["lib", "src"] quoted).canonicalText := by decide +kernel
      rw [hsame, Set.pair_eq_singleton]
      exact Set.injOn_singleton _ _
  · intro h
    have hdigests : Sha256.hex (built "lint:a" "b" [] []).canonicalText ≠
        Sha256.hex (built "lint" "a:b" [] []).canonicalText := by decide +kernel
    have hinj : Set.InjOn Sha256.hex {(built "lint:a" "b" [] []).canonicalText,
        (built "lint" "a:b" [] []).canonicalText} := by
      apply Set.injOn_pair.2
      exact fun heq => absurd heq hdigests
    exact absurd ((text_eq_iff hinj).1 h).1 (by decide)

end CacheKey

end AnalysisGate
