import AnalysisGate.Proofs.Json.Equivalence
import Mathlib

/-!
What signatures tell of configurations.

The canonical form of a value is a normal form: values have one canonical form exactly if they are
equivalent (`Json.canonicalAs_eq_iff`), and it is its own canonical form
(`Json.canonicalAs_canonicalAs`). The text that a signature is a digest of has the tool, the mode
and the canonical form apart, so it tells all three (`EngineSignature.signedText_eq_iff`).
-/
namespace AnalysisGate

namespace Json

/-! ## Lists that are sets -/

/-- The items of a list by their texts. -/
def byText (items : List Json) : SortedMap String Json :=
  .ofList (items.map fun j => (j.compactText, j))

variable {items items' : List Json} {j : Json} {text : String}

theorem of_get?_byText (h : (byText items).get? text = some j) :
    j ∈ items ∧ j.compactText = text := by
  obtain ⟨i, hi, heq⟩ := List.mem_map.1 (SortedMap.mem_of_get?_ofList h)
  obtain ⟨htext, rfl⟩ := Prod.mk.inj heq
  exact ⟨hi, htext⟩

theorem mem_of_mem_sortItems (h : j ∈ sortItems items) : j ∈ items := by
  obtain ⟨e, he, rfl⟩ := List.mem_map.1 h
  exact (of_get?_byText (SortedMap.get?_eq_some_iff.2 he)).1

/-- Sorted items are sorted by their own texts. -/
theorem entries_byText (items : List Json) :
    (byText items).entries = (sortItems items).map fun j => (j.compactText, j) := by
  have hentry : ∀ e ∈ (byText items).entries, e = (e.2.compactText, e.2) := by
    intro e he
    rw [(of_get?_byText (SortedMap.get?_eq_some_iff.2 he)).2]
  calc (byText items).entries = (byText items).entries.map id := (List.map_id _).symm
    _ = (byText items).entries.map fun e => (e.2.compactText, e.2) := List.map_congr_left hentry
    _ = (sortItems items).map fun j => (j.compactText, j) := by
      rw [sortItems, ← byText, SortedMap.values, List.map_map]
      rfl

theorem sortItems_sortItems (items : List Json) :
    sortItems (sortItems items) = sortItems items := by
  have hmap : byText (sortItems items) = byText items := by
    rw [byText, ← entries_byText, SortedMap.ofList_entries]
  exact congrArg SortedMap.values hmap

section

variable {s : Set Json} (hs : s.InjOn compactText)

include hs

/-- Items that have different texts are all found. -/
theorem get?_byText (h : ∀ j ∈ items, j ∈ s) :
    (byText items).get? text = some j ↔ j ∈ items ∧ j.compactText = text := by
  refine ⟨of_get?_byText, ?_⟩
  rintro ⟨hj, rfl⟩
  have hkey : j.compactText ∈ (byText items).keys := by
    rw [byText, SortedMap.mem_keys_ofList, List.map_map]
    exact List.mem_map_of_mem hj
  obtain ⟨i, hi⟩ := Option.isSome_iff_exists.1 (SortedMap.mem_keys.1 hkey)
  obtain ⟨hmem, htext⟩ := of_get?_byText hi
  rw [hi, hs (h i hmem) (h j hj) htext]

theorem mem_sortItems (h : ∀ j ∈ items, j ∈ s) : j ∈ sortItems items ↔ j ∈ items := by
  refine ⟨mem_of_mem_sortItems, fun hj => ?_⟩
  exact SortedMap.mem_values_of_get? ((get?_byText hs h).2 ⟨hj, rfl⟩)

/-- **Sorted lists are the same exactly if they are of one set.** -/
theorem sortItems_eq_iff (h : ∀ j ∈ items, j ∈ s) (h' : ∀ j ∈ items', j ∈ s) :
    sortItems items = sortItems items' ↔ items ⊆ items' ∧ items' ⊆ items := by
  constructor
  · intro heq
    refine ⟨fun j => ?_, fun j => ?_⟩
    · rw [← mem_sortItems hs h, heq, mem_sortItems hs h']
      exact id
    · rw [← mem_sortItems hs h', ← heq, mem_sortItems hs h]
      exact id
  · intro ⟨hsub, hsub'⟩
    have hmap : byText items = byText items' := by
      refine SortedMap.ext_get? fun text => Option.ext fun j => ?_
      rw [get?_byText hs h, get?_byText hs h']
      exact and_congr_left fun _ => ⟨fun hj => hsub hj, fun hj => hsub' hj⟩
    exact congrArg SortedMap.values hmap

end

/-! ## Canonical forms -/

/-- The canonical form of what stands under a key, which may be that of a set. -/
def canonicalAs (asSet : Bool) (j : Json) : Json :=
  if asSet then sortSet j.canonical else j.canonical

theorem canonicalItems_eq (l : List Json) : canonicalItems l = l.map canonical := by
  induction l with
  | nil => rfl
  | cons j l ih => rw [canonicalItems, ih, List.map_cons]

theorem canonicalMembers_eq (l : List (String × Json)) :
    canonicalMembers l = l.map fun e => (e.1, canonicalAs (isSetKey e.1) e.2) := by
  induction l with
  | nil => rfl
  | cons e l ih =>
    rw [canonicalMembers, ih, List.map_cons]
    rfl

variable {asSet : Bool} {l l' : List Json} {m m' : List (String × Json)} {v v' : Json}
  {D : Set UInt64}

theorem canonicalAs_list : canonicalAs false (.array l) = .array (l.map canonical) := by
  rw [← canonicalItems_eq]
  rfl

theorem canonicalAs_set : canonicalAs true (.array l) = .array (sortItems (l.map canonical)) := by
  rw [← canonicalItems_eq]
  rfl

theorem canonicalAs_object : canonicalAs asSet (.object m) =
    .object (m.map fun e => (e.1, canonicalAs (isSetKey e.1) e.2)) := by
  rw [← canonicalMembers_eq]
  cases asSet <;> rfl

theorem kind_canonicalAs (asSet : Bool) (v : Json) : (canonicalAs asSet v).kind = v.kind := by
  cases v <;> cases asSet <;> rfl

/-- **A canonical form is its own canonical form.** -/
theorem canonicalAs_canonicalAs (asSet : Bool) (v : Json) :
    canonicalAs asSet (canonicalAs asSet v) = canonicalAs asSet v := by
  induction v using induct generalizing asSet with
  | null | bool | number | string | beyond => cases asSet <;> rfl
  | array l ih =>
    have hitem (j : Json) (hj : j ∈ l.map canonical) : canonical j = id j := by
      obtain ⟨i, hi, rfl⟩ := List.mem_map.1 hj
      exact ih i hi false
    cases asSet with
    | false =>
      rw [canonicalAs_list, canonicalAs_list, List.map_congr_left hitem, List.map_id]
    | true =>
      have hsorted (j : Json) (hj : j ∈ sortItems (l.map canonical)) : canonical j = id j :=
        hitem j (mem_of_mem_sortItems hj)
      rw [canonicalAs_set, canonicalAs_set, List.map_congr_left hsorted, List.map_id,
        sortItems_sortItems]
  | object m ih =>
    rw [canonicalAs_object, canonicalAs_object, List.map_map]
    refine congrArg Json.object (List.map_congr_left fun e he => ?_)
    rw [Function.comp_apply, ih e he]

/-! ## Values over doubles -/

theorem over_array : Over D (.array l) ↔ ∀ j ∈ l, Over D j := by
  refine ⟨Over.item, fun h => ⟨normal_array.2 fun j hj => (h j hj).normal, fun x hx => ?_⟩⟩
  rw [doubles, doublesItems_eq] at hx
  obtain ⟨j, hj, hxj⟩ := List.mem_flatMap.1 hx
  exact (h j hj).doubles x hxj

theorem over_object : Over D (.object m) ↔
    (m.Pairwise fun a b => compare a.1 b.1 = .lt) ∧ ∀ e ∈ m, Over D e.2 := by
  refine ⟨fun h => ⟨(normal_member h.normal).1, h.member⟩, fun ⟨hascending, h⟩ =>
    ⟨normal_object.2 ⟨hascending, fun e he => (h e he).normal⟩, fun x hx => ?_⟩⟩
  rw [doubles, doublesMembers_eq] at hx
  obtain ⟨e, he, hxe⟩ := List.mem_flatMap.1 hx
  exact (h e he).doubles x hxe

/-- A canonical form has no other doubles. -/
theorem Over.canonicalAs (h : Over D v) (asSet : Bool) : Over D (v.canonicalAs asSet) := by
  induction v using induct generalizing asSet with
  | null | bool | number | string | beyond => cases asSet <;> exact h
  | array l ih =>
    have hitem (j : Json) (hj : j ∈ l.map canonical) : Over D j := by
      obtain ⟨i, hi, rfl⟩ := List.mem_map.1 hj
      exact ih i hi (h.item i hi) false
    cases asSet with
    | false =>
      rw [canonicalAs_list]
      exact over_array.2 hitem
    | true =>
      rw [canonicalAs_set]
      exact over_array.2 fun j hj => hitem j (mem_of_mem_sortItems hj)
  | object m ih =>
    rw [canonicalAs_object, over_object, List.pairwise_map]
    refine ⟨(over_object.1 h).1, fun e he => ?_⟩
    obtain ⟨e₀, he₀, rfl⟩ := List.mem_map.1 he
    exact ih e₀ he₀ (h.member e₀ he₀) _

/-! ## Normal forms -/

/-- Objects have one canonical form if they hold values of one canonical form under each key. -/
theorem canonicalAs_object_eq_iff (hm : m.Pairwise fun a b => compare a.1 b.1 = .lt)
    (hm' : m'.Pairwise fun a b => compare a.1 b.1 = .lt) :
    canonicalAs asSet (.object m) = canonicalAs asSet (.object m') ↔
      ∀ k, (get? (.object m) k).isSome = (get? (.object m') k).isSome ∧
        ∀ i, get? (.object m) k = some i → ∀ i', get? (.object m') k = some i' →
          canonicalAs (isSetKey k) i = canonicalAs (isSetKey k) i' := by
  -- the members of an object in the order of their keys are the entries of a map
  have hmaps : canonicalAs asSet (.object m) = canonicalAs asSet (.object m') ↔
      (SortedMap.mk m hm).mapValues (fun k => canonicalAs (isSetKey k)) =
        (SortedMap.mk m' hm').mapValues fun k => canonicalAs (isSetKey k) := by
    rw [canonicalAs_object, canonicalAs_object]
    constructor
    · intro h
      exact SortedMap.entries_inj (Json.object.inj h)
    · intro h
      exact congrArg Json.object (congrArg SortedMap.entries h)
  have hvalue (k : String) : ((SortedMap.mk m hm).mapValues
      (fun k => canonicalAs (isSetKey k))).get? k = ((SortedMap.mk m' hm').mapValues
      fun k => canonicalAs (isSetKey k)).get? k ↔
      (get? (.object m) k).isSome = (get? (.object m') k).isSome ∧
        ∀ i, get? (.object m) k = some i → ∀ i', get? (.object m') k = some i' →
          canonicalAs (isSetKey k) i = canonicalAs (isSetKey k) i' := by
    rw [SortedMap.get?_mapValues, SortedMap.get?_mapValues, ← get?_object, ← get?_object]
    cases get? (.object m) k <;> cases get? (.object m') k <;> simp
  rw [hmaps]
  constructor
  · intro h k
    exact (hvalue k).1 (by rw [h])
  · intro h
    exact SortedMap.ext_get? fun k => (hvalue k).2 (h k)

theorem canonicalAs_eq_iff_of_kind (hkind : v.kind ≠ v'.kind) :
    canonicalAs asSet v = canonicalAs asSet v' ↔ Alike asSet v v' := by
  refine iff_of_false (fun h => hkind ?_) fun h => hkind h.kind
  rw [← kind_canonicalAs asSet v, h, kind_canonicalAs]

theorem canonicalAs_eq_iff_of_scalar (hlist : ∀ l, v ≠ .array l) (hobject : ∀ m, v ≠ .object m) :
    canonicalAs asSet v = canonicalAs asSet v' ↔ Alike asSet v v' := by
  by_cases hkind : v.kind = v'.kind
  · rw [alike_other (fun l _ h => absurd h (hlist l)) fun m _ h => absurd h (hobject m)]
    have hself : canonicalAs asSet v = v := by
      cases v with
      | array l => exact absurd rfl (hlist l)
      | object m => exact absurd rfl (hobject m)
      | null | bool | number | string | beyond => cases asSet <;> rfl
    have hself' : canonicalAs asSet v' = v' := by
      cases v' with
      | array l =>
        cases v with
        | array => exact absurd rfl (hlist _)
        | null | bool | number | string | object | beyond => cases hkind
      | object m =>
        cases v with
        | object => exact absurd rfl (hobject _)
        | null | bool | number | string | array | beyond => cases hkind
      | null | bool | number | string | beyond => cases asSet <;> rfl
    rw [hself, hself']
  · exact canonicalAs_eq_iff_of_kind hkind

/-- **Values have one canonical form exactly if they are alike.** -/
theorem canonicalAs_eq_iff (hprint : D.InjOn doubleText) (hv : Over D v) (hv' : Over D v') :
    canonicalAs asSet v = canonicalAs asSet v' ↔ Alike asSet v v' := by
  induction v using induct generalizing asSet v' with
  | null | bool | number | string | beyond =>
    exact canonicalAs_eq_iff_of_scalar nofun nofun
  | array l ih =>
    cases v' with
    | array l' =>
      have hitems {i i' : Json} (hi : i ∈ l) (hi' : i' ∈ l') :
          canonical i = canonical i' ↔ Alike false i i' := by
        have h : canonicalAs false i = canonicalAs false i' ↔ Alike false i i' :=
          ih i hi (hv.item i hi) (hv'.item i' hi')
        exact h
      cases asSet with
      | false =>
        rw [canonicalAs_list, canonicalAs_list, alike_list, Json.array.injEq]
        simp only [List.ext_getElem_iff, List.length_map, List.getElem_map]
        refine and_congr_right fun _ => forall_congr' fun n => forall_congr' fun hn =>
          forall_congr' fun hn' => ?_
        exact hitems (List.getElem_mem hn) (List.getElem_mem hn')
      | true =>
        -- items are sorted in their canonical forms, which their texts tell apart
        have htexts : {j | Over D j}.InjOn compactText := fun j hj j' hj' =>
          compactText_inj hprint hj hj'
        have hover {l : List Json} (h : ∀ i ∈ l, Over D i) : ∀ j ∈ l.map canonical, Over D j := by
          intro j hj
          obtain ⟨i, hi, rfl⟩ := List.mem_map.1 hj
          exact (h i hi).canonicalAs false
        rw [canonicalAs_set, canonicalAs_set, alike_set, Json.array.injEq,
          sortItems_eq_iff htexts (hover hv.item) (hover hv'.item)]
        simp only [List.subset_def, List.mem_map, forall_exists_index, and_imp,
          forall_apply_eq_imp_iff₂]
        refine and_congr (forall₂_congr fun i hi => exists_congr fun i' => and_congr_right ?_)
          (forall₂_congr fun i' hi' => exists_congr fun i => and_congr_right ?_)
        · intro hi'
          rw [eq_comm]
          exact hitems hi hi'
        · intro hi
          exact hitems hi hi'
    | null | bool | number | string | object | beyond => exact canonicalAs_eq_iff_of_kind nofun
  | object m ih =>
    cases v' with
    | object m' =>
      rw [canonicalAs_object_eq_iff (over_object.1 hv).1 (over_object.1 hv').1, alike_object]
      refine forall_congr' fun k => and_congr_right fun _ => forall_congr' fun i =>
        forall_congr' fun hi => forall_congr' fun i' => forall_congr' fun hi' => ?_
      have hmem := mem_of_get? hi
      exact ih (k, i) hmem (hv.member _ hmem) (hv'.member _ (mem_of_get? hi'))
    | null | bool | number | string | array | beyond => exact canonicalAs_eq_iff_of_kind nofun

theorem canonical_eq_iff (hprint : D.InjOn doubleText) (hv : Over D v) (hv' : Over D v') :
    v.canonical = v'.canonical ↔ v.Equivalent v' := by
  have h : canonicalAs false v = canonicalAs false v' ↔ Alike false v v' :=
    canonicalAs_eq_iff hprint hv hv'
  exact h

end Json

namespace EngineSignature

variable {D : Set UInt64} {v v' : Json}

/-- The document that the text of a signature is of. -/
theorem over_signed (hv : Json.Over D v) (t m : String) :
    Json.Over D (.object [("engineOptions", v.canonical), ("mode", .string m),
      ("tool", .string t)]) := by
  have hstring (s : String) : Json.Over D (.string s) := ⟨rfl, nofun⟩
  refine Json.over_object.2 ⟨?_, ?_⟩
  · -- its members stand in the order of their keys, as those of a value do
    refine (List.pairwise_map (f := Prod.fst) (R := fun a b => compare a b = .lt)).1 ?_
    change ["engineOptions", "mode", "tool"].Pairwise fun a b => compare a b = .lt
    decide
  · intro e he
    simp only [List.mem_cons, List.not_mem_nil, or_false] at he
    obtain rfl | rfl | rfl := he
    · exact hv.canonicalAs false
    · exact hstring m
    · exact hstring t

/-- **The text of a signature tells the tool, the mode and the options up to lists that are sets.**
With it the digest does, as long as the two texts have digests of their own; and a signature holds
options that have its own digest. -/
theorem signedText_eq_iff (hprint : D.InjOn Json.doubleText) {j j' : Json}
    (hj : j.value? = some v) (hj' : j'.value? = some v') (hv : ∀ x ∈ v.doubles, x ∈ D)
    (hv' : ∀ x ∈ v'.doubles, x ∈ D) (t t' m m' : String) :
    (signedText t m v = signedText t' m' v' ↔ t = t' ∧ m = m' ∧ j.Equivalent j') ∧
      (Set.InjOn Sha256.hex {signedText t m v, signedText t' m' v'} →
        (hashOf t m v = hashOf t' m' v' ↔ t = t' ∧ m = m' ∧ j.Equivalent j')) ∧
      v.canonical.Equivalent j ∧ v.canonical.canonical = v.canonical ∧
      (ofOptions t m v).hash = hashOf t m (ofOptions t m v).engineOptions := by
  have hover : Json.Over D v := ⟨Json.normal_of_value? hj, hv⟩
  have hover' : Json.Over D v' := ⟨Json.normal_of_value? hj', hv'⟩
  have hidempotent : v.canonical.canonical = v.canonical := Json.canonicalAs_canonicalAs false v
  have hforms : v.canonical = v'.canonical ↔ j.Equivalent j' :=
    (Json.canonical_eq_iff hprint hover hover').trans (Json.equivalent_value hj hj').symm
  have htexts : signedText t m v = signedText t' m' v' ↔ t = t' ∧ m = m' ∧ j.Equivalent j' := by
    rw [← hforms]
    constructor
    · intro h
      have hsame := Json.compactText_inj hprint (over_signed hover t m) (over_signed hover' t' m') h
      simp only [Json.object.injEq, List.cons.injEq, Prod.mk.injEq, Json.string.injEq, true_and,
        and_true] at hsame
      obtain ⟨hcanonical, hmode, htool⟩ := hsame
      exact ⟨htool, hmode, hcanonical⟩
    · rintro ⟨rfl, rfl, hcanonical⟩
      rw [signedText, signedText, hcanonical]
  refine ⟨htexts, fun hdigests => ?_, ?_, hidempotent, ?_⟩
  · rw [← htexts]
    exact hdigests.eq_iff (.inl rfl) (.inr rfl)
  · have hcanonical : Json.Over D v.canonical := hover.canonicalAs false
    have hequivalent : v.canonical.Equivalent v :=
      (Json.canonical_eq_iff hprint hcanonical hover).1 hidempotent
    exact (Json.equivalent_value hcanonical.normal hj).2 hequivalent
  · change Sha256.hex (signedText t m v) = Sha256.hex (signedText t m v.canonical)
    rw [signedText, signedText, hidempotent]

/-- Options in another order of keys and of a list that is a set are equivalent; those in another
order of any other list are not. -/
theorem signedText_eq_iff_orders :
    let limit : Json := .number (.double 0x3FF8000000000000)
    let roots (l : List String) : Json := .object [("include", .ofStrings l)]
    let arguments (l : List String) : Json := .object [("pluginArgs", .ofStrings l)]
    Json.Equivalent (.object [("roots", roots ["src", "lib", "src"]), ("limit", limit)])
        (.object [("limit", limit), ("roots", roots ["lib", "src"])]) ∧
      ¬ (arguments ["--x", "--y"]).Equivalent (arguments ["--y", "--x"]) := by
  intro limit roots arguments
  have hprint : Set.InjOn Json.doubleText {0x3FF8000000000000} := Set.injOn_singleton _ _
  constructor
  · have hvalue : (Json.object [("roots", roots ["src", "lib", "src"]), ("limit", limit)]).value? =
        some (.object [("limit", limit), ("roots", roots ["src", "lib", "src"])]) := rfl
    have hvalue' : (Json.object [("limit", limit), ("roots", roots ["lib", "src"])]).value? =
        some (.object [("limit", limit), ("roots", roots ["lib", "src"])]) := rfl
    obtain ⟨htexts, -⟩ := signedText_eq_iff hprint hvalue hvalue' (fun _ => List.mem_singleton.1)
      (fun _ => List.mem_singleton.1) "tsc" "tsc" "check" "check"
    exact (htexts.1 (by decide +kernel)).2.2
  · have hvalue : (arguments ["--x", "--y"]).value? = some (arguments ["--x", "--y"]) := rfl
    have hvalue' : (arguments ["--y", "--x"]).value? = some (arguments ["--y", "--x"]) := rfl
    obtain ⟨htexts, -⟩ :=
      signedText_eq_iff hprint hvalue hvalue' nofun nofun "tsc" "tsc" "check" "check"
    intro h
    exact absurd (htexts.2 ⟨rfl, rfl, h⟩) (by decide +kernel)

end EngineSignature

end AnalysisGate
