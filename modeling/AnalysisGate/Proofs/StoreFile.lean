import AnalysisGate.Proofs.Json.Records
import AnalysisGate.Proofs.Json.Rereading
import AnalysisGate.Proofs.Saving
import AnalysisGate.RunCache.Store
import Mathlib

/-!
Store files keep their entries.

What is read from the text of a store is the entries that it was written for, key by key and field
by field, but for the doubles in their values, which are read as their echoes, and for a summary
that is null, which is read as none (`RunCache.decode_rereading`). So entries whose values have no
doubles are kept as they are (`RunCache.decode_encode`). All that is needed is that the containers
nest no deeper than a reader goes; nothing is read from a store where they do
(`RunCache.decode_eq_none`).
-/
namespace AnalysisGate

/-- A value that text keeps: one without doubles. -/
structure Json.Exact (j : Json) : Prop where
  normal : j.Normal
  noDouble : j.hasDouble = false

/-! ## Integers -/

theorem Number.exists_ofInt? {i : Int} (hlow : -0x8000000000000000 ≤ i) (hhigh : i < UInt64.size) :
    ∃ n, ofInt? i = some n ∧ n.int? = some i := by
  rw [ofInt?]
  split
  · next hi =>
    refine ⟨_, rfl, ?_⟩
    have hnat : i.toNat < UInt64.size := by omega
    simp [int?, UInt64.toNat_ofNat_of_lt' hnat, hi]
  · next hi =>
    have hnat : (-i - 1).toNat < 0x8000000000000000 := by omega
    simp only [hnat, dite_true]
    refine ⟨_, rfl, ?_⟩
    simp only [int?, Option.some.injEq]
    omega

theorem Json.seen_integer {m : Medium} {depth : Nat} {n : Number} {i : Int}
    (h : n.int? = some i) : (Json.number n).seen m depth = some (.number n) := by
  simp [seen, reread, rereadNumber_int h, value?]

/-! ## Parts of entries -/

namespace Reader

variable {m : Medium} {depth : Nat}

theorem recovers_bool {b : Bool} : Reader.bool.Recovers m depth (.bool b) b := by
  refine ⟨.bool b, ?_, rfl⟩
  simp [Json.seen, Json.reread, Json.value?]

theorem integer_eq_ok {α : Type} {wanted : String} {convert : Number → Option α} {n : Number}
    {i : Int} {a : α} (h : n.int? = some i) (ha : convert n = some a) :
    integer wanted convert m (.number n) = .ok a := by
  cases n with
  | double x => cases h
  | natural n | negative n => simp only [integer, ha]

theorem recovers_word32 {n : UInt32} :
    Reader.word32.Recovers m depth (.ofCount n.toUInt64) n := by
  have hint : (Number.natural n.toUInt64).int? = some (n.toNat : Int) := by simp [Number.int?]
  refine ⟨_, Json.seen_integer hint, integer_eq_ok hint ?_⟩
  simp [natural?, n.toNat_lt_size]

theorem recovers_int32 {i : Int32} : Reader.int32.Recovers m depth (.ofInt i.toInt) i := by
  have hlow := i.le_toInt
  have hhigh := i.toInt_lt
  have hsize : (UInt64.size : Int) = 0x10000000000000000 := rfl
  obtain ⟨n, hn, hint⟩ := Number.exists_ofInt? (i := i.toInt) (by omega) (by omega)
  have hrange : -0x80000000 ≤ i.toInt ∧ i.toInt < 0x80000000 := ⟨hlow, hhigh⟩
  refine ⟨.number n, ?_, integer_eq_ok hint ?_⟩
  · rw [Json.ofInt, hn]
    exact Json.seen_integer hint
  · rw [hint, Option.bind_some, if_pos hrange, Int32.ofInt_toInt]

theorem recovers_strings {l : List String} (hdepth : depth ≤ Json.nestingLimit) :
    Reader.strings.Recovers m depth (.ofStrings l) l :=
  recovers_list_self hdepth fun _ _ => recovers_string.2 rfl

theorem recovers_optional_count {n : UInt64} :
    (Reader.optional Reader.count).Recovers m depth (.ofCount n) (some n) := by
  have hseen : (Json.ofCount n).seen m depth = some (.ofCount n) :=
    Json.seen_integer (i := n.toNat) rfl
  refine (recovers_optional ?_).2 ⟨n, recovers_count.2 rfl, rfl⟩
  rw [hseen]
  simp [Json.ofCount]

theorem recovers_optional_string {o : Option String} :
    (Reader.optional Reader.string).Recovers m depth (.ofOption .string o) o := by
  cases o with
  | none => exact recovers_null.2 rfl
  | some s =>
    have hseen : (Json.string s).seen m depth = some (.string s) := by
      simp [Json.seen, Json.reread, Json.value?]
    refine (recovers_optional ?_).2 ⟨s, recovers_string.2 rfl, rfl⟩
    simp [Json.ofOption, hseen]

/-- A map whose values are recovered is recovered. -/
theorem recovers_mapValues {α β : Type} {read : Reader β} {write : α → Json} {f : α → β}
    {n : SortedMap String α} (hdepth : depth ≤ Json.nestingLimit)
    (h : ∀ e ∈ n.entries, read.Recovers m (depth + 1) (write e.2) (f e.2)) :
    (Reader.map read).Recovers m depth (.ofMap write n) (n.mapValues fun _ a => f a) := by
  refine recovers_map.2 ⟨hdepth, fun k => ?_⟩
  rw [SortedMap.get?_mapValues]
  cases hk : n.get? k with
  | none => exact .none
  | some a => exact .some (h _ (SortedMap.get?_eq_some_iff.1 hk))

theorem recovers_map_self {α : Type} {read : Reader α} {write : α → Json} {n : SortedMap String α}
    (hdepth : depth ≤ Json.nestingLimit)
    (h : ∀ e ∈ n.entries, read.Recovers m (depth + 1) (write e.2) e.2) :
    (Reader.map read).Recovers m depth (.ofMap write n) n := by
  have hself : (n.mapValues fun _ a => a) = n := SortedMap.mapValues_eq_self fun _ _ => rfl
  have hmapped := recovers_mapValues (f := fun a => a) hdepth h
  rwa [hself] at hmapped

/-- What is read as an optional value is read as a value, since null is one. -/
theorem exists_recovers_of_optional {j : Json} {o : Option Json}
    (h : (Reader.optional Reader.value).Recovers m depth j o) :
    ∃ v, Reader.value.Recovers m depth j v := by
  obtain ⟨v, hv, hread⟩ := h
  by_cases hnull : v = .null
  · exact ⟨.null, v, hv, by rw [hnull]; rfl⟩
  · rw [optional_of_ne hnull] at hread
    cases ha : Reader.value m v with
    | error e => simp [ha, Except.map] at hread
    | ok a => exact ⟨a, v, hv, ha⟩

/-- A summary that is null is read as none. -/
theorem recovers_optional_value {o : Option Json}
    (hover : ∀ j ∈ o, Json.Over Json.finiteDoubles j)
    (hdepth : ∀ j ∈ o, depth + j.height ≤ Json.nestingLimit + 1) :
    (Reader.optional Reader.value).Recovers m depth (.ofOption id o)
      ((o.map (Json.mapDoubles Json.echo)).filter (· ≠ .null)) := by
  cases o with
  | none => exact recovers_null.2 rfl
  | some j =>
    by_cases hnull : j = .null
    · subst hnull
      exact recovers_null.2 rfl
    · have hmapped : j.mapDoubles Json.echo ≠ .null := fun h => hnull (Json.mapDoubles_eq_null.1 h)
      have hseen := Json.seen_eq_mapDoubles (m := m) (hover j rfl) (hdepth j rfl)
      have hkept : ((some j).map (Json.mapDoubles Json.echo)).filter (· ≠ .null) =
          some (j.mapDoubles Json.echo) := by simp [Option.filter, hmapped]
      rw [hkept]
      refine (recovers_optional ?_).2 ⟨_, recovers_echo (hover j rfl) (hdepth j rfl), rfl⟩
      simpa [Json.ofOption, hseen] using hmapped

end Reader

/-! ## Records of entries -/

theorem Json.height_ofMap_le_iff {α : Type} {write : α → Json} {m : SortedMap String α} {n : Nat} :
    (Json.ofMap write m).height ≤ n + 1 ↔ ∀ e ∈ m.entries, (write e.2).height ≤ n := by
  rw [ofMap, height, Nat.add_le_add_iff_right, heightMembers_le_iff, List.forall_mem_map]

theorem Json.height_ofStrings_le (l : List String) : (Json.ofStrings l).height ≤ 1 := by
  refine Nat.succ_le_succ (heightItems_le_iff.2 ?_)
  rw [List.forall_mem_map]
  exact fun s _ => Nat.le_refl 0

theorem Json.height_ofOption_string (o : Option String) : (Json.ofOption .string o).height = 0 := by
  cases o <;> rfl

theorem Diagnostic.height_toJson (d : Diagnostic) : d.toJson.height = 1 := by
  simp [toJson, Json.height, Json.heightMembers, Json.height_ofOption_string, Json.ofCount]

theorem Fingerprint.height_toJson (f : Fingerprint) : f.toJson.height = 1 := by
  cases f <;> rfl

theorem FingerprintMap.height_toJson (n : FingerprintMap) : n.toJson.height ≤ 2 :=
  Json.height_ofMap_le_iff.2 fun e _ => e.2.height_toJson.le

theorem Diagnostic.recovers (d : Diagnostic) {depth : Nat} (hdepth : depth ≤ Json.nestingLimit) :
    Reader.Recovers reader .stream depth d.toJson d := by
  refine Shape.recovers_of_fills hdepth (by simp [shape, Shape.field]) ?_
  refine .field rfl (by simp) (Reader.recovers_string.2 rfl) ?_
  refine .field rfl (by simp) Reader.recovers_word32 ?_
  refine .field rfl (by simp) Reader.recovers_word32 ?_
  refine .field rfl (by simp) (Reader.recovers_string.2 rfl) ?_
  refine .field rfl (by simp) Reader.recovers_optional_string ?_
  refine .field rfl (by simp) (Reader.recovers_string.2 rfl) ?_
  exact .done

namespace Fingerprint

theorem recovers_fields {f : Fingerprint} {fields : Fields} {m : Medium} {depth : Nat} {j : Json}
    (h : Reader.Recovers fieldsShape.reader m depth j fields) (hf : ofFields fields = .ok f) :
    Reader.Recovers reader m depth j f := by
  obtain ⟨v, hv, hread⟩ := h
  refine ⟨v, hv, ?_⟩
  simp only [reader, hread, bind, Except.bind, hf]

theorem recovers (f : Fingerprint) {depth : Nat} (hdepth : depth ≤ Json.nestingLimit) :
    Reader.Recovers reader .stream depth f.toJson f := by
  have hrequired : ∀ g ∈ fieldsShape.fields, g.presence ≠ .required := by
    simp [fieldsShape, Shape.field]
  cases f with
  | content hash modified size =>
    have h : Reader.Recovers fieldsShape.reader .stream depth (content hash modified size).toJson
        ⟨some hash, some modified, some size, false, false⟩ := by
      refine Shape.recovers_of_fills hdepth hrequired ?_
      refine .field rfl (by simp) (Reader.recovers_optional_string (o := some hash)) ?_
      refine .field rfl (by simp) Reader.recovers_optional_count ?_
      refine .field rfl (by simp) Reader.recovers_optional_count ?_
      exact .done
    exact recovers_fields h rfl
  | missing =>
    have h : Reader.Recovers fieldsShape.reader .stream depth missing.toJson
        ⟨none, none, none, true, false⟩ :=
      Shape.recovers_of_fills hdepth hrequired (.field rfl (by simp) Reader.recovers_bool .done)
    exact recovers_fields h rfl
  | unreadable =>
    have h : Reader.Recovers fieldsShape.reader .stream depth unreadable.toJson
        ⟨none, none, none, false, true⟩ :=
      Shape.recovers_of_fills hdepth hrequired (.field rfl (by simp) Reader.recovers_bool .done)
    exact recovers_fields h rfl

end Fingerprint

theorem FingerprintMap.recovers (n : FingerprintMap) {depth : Nat}
    (hdepth : depth + 1 ≤ Json.nestingLimit) :
    Reader.Recovers reader .stream depth n.toJson n :=
  Reader.recovers_map_self (by omega) fun e _ => e.2.recovers hdepth

namespace CacheEntry

/-- The values that analyzers and projects give an entry are values of finite doubles. -/
structure Finite (e : CacheEntry) : Prop where
  overrides : ∀ o ∈ e.options.overrides.entries, Json.Over Json.finiteDoubles o.2
  summary : ∀ j ∈ e.toolSummary, Json.Over Json.finiteDoubles j

/-- The values that analyzers and projects give an entry are kept by text. -/
structure Exact (e : CacheEntry) : Prop where
  overrides : ∀ o ∈ e.options.overrides.entries, o.2.Exact
  summary : ∀ j ∈ e.toolSummary, j.Exact

theorem Exact.finite {e : CacheEntry} (h : e.Exact) : e.Finite where
  overrides o ho := Json.over_of_hasDouble (h.overrides o ho).normal (h.overrides o ho).noDouble
  summary j hj := Json.over_of_hasDouble (h.summary j hj).normal (h.summary j hj).noDouble

theorem exact_of_plain {e : CacheEntry} (hoverrides : e.options.overrides = .empty)
    (hsummary : e.toolSummary = none) : e.Exact where
  overrides o ho := by
    rw [hoverrides] at ho
    exact absurd ho List.not_mem_nil
  summary j hj := by
    rw [hsummary] at hj
    cases hj

/-- An entry in which a summary that is null counts as none. -/
def kept (e : CacheEntry) : CacheEntry := { e with toolSummary := e.toolSummary.filter (· ≠ .null) }

@[simp] theorem kept_kept (e : CacheEntry) : e.kept.kept = e.kept := by
  simp [kept, Option.filter_filter]

@[simp] theorem fingerprints_kept (e : CacheEntry) : e.kept.fingerprints = e.fingerprints := rfl

theorem Exact.kept {e : CacheEntry} (h : e.Exact) : e.kept.Exact where
  overrides := h.overrides
  summary j hj := h.summary j (Option.filter_eq_some_iff.1 hj).1

/-- An entry with other doubles in its values. -/
def mapDoubles (f : UInt64 → UInt64) (e : CacheEntry) : CacheEntry :=
  { e with
    options := { e.options with
      overrides := e.options.overrides.mapValues fun _ j => j.mapDoubles f }
    toolSummary := e.toolSummary.map (Json.mapDoubles f) }

/-- An entry as it is read from its text. -/
def reread (e : CacheEntry) : CacheEntry := (e.mapDoubles Json.echo).kept

theorem mapDoubles_eq_self {e : CacheEntry} {f : UInt64 → UInt64}
    (hoverrides : ∀ o ∈ e.options.overrides.entries, o.2.mapDoubles f = o.2)
    (hsummary : ∀ j ∈ e.toolSummary, j.mapDoubles f = j) : e.mapDoubles f = e := by
  have hmap : (e.options.overrides.mapValues fun _ j => j.mapDoubles f) = e.options.overrides :=
    SortedMap.mapValues_eq_self hoverrides
  have hoption : e.toolSummary.map (Json.mapDoubles f) = e.toolSummary := by
    cases hj : e.toolSummary with
    | none => rfl
    | some j => exact congrArg some (hsummary j hj)
  rw [mapDoubles, hmap, hoption]

theorem Exact.mapDoubles_eq {e : CacheEntry} (h : e.Exact) (f : UInt64 → UInt64) :
    e.mapDoubles f = e :=
  mapDoubles_eq_self (fun o ho => Json.mapDoubles_of_hasDouble (h.overrides o ho).noDouble)
    fun j hj => Json.mapDoubles_of_hasDouble (h.summary j hj).noDouble

theorem Exact.reread_eq {e : CacheEntry} (h : e.Exact) : e.reread = e.kept := by
  rw [reread, h.mapDoubles_eq]

/-! ### Doubles of entries -/

theorem kept_mapDoubles (e : CacheEntry) (f : UInt64 → UInt64) :
    (e.mapDoubles f).kept = e.kept.mapDoubles f := by
  have hnull (j : Json) : decide (j.mapDoubles f ≠ .null) = decide (j ≠ .null) := by
    simp [Json.mapDoubles_eq_null]
  have hsummary : (e.toolSummary.map (Json.mapDoubles f)).filter (· ≠ .null) =
      (e.toolSummary.filter (· ≠ .null)).map (Json.mapDoubles f) := by
    cases e.toolSummary with
    | none => rfl
    | some j => by_cases hj : j = .null <;> simp [Option.filter, hj, hnull]
  rw [kept, kept, mapDoubles, mapDoubles]
  simp only [hsummary]

theorem mapDoubles_mapDoubles (e : CacheEntry) (f g : UInt64 → UInt64) :
    (e.mapDoubles f).mapDoubles g = e.mapDoubles (g ∘ f) := by
  simp only [mapDoubles, SortedMap.mapValues_mapValues, Option.map_map, Function.comp_def,
    Json.mapDoubles_mapDoubles]

/-- An entry up to its doubles: each of them is zero, and a summary that is null counts as none. -/
def outline (e : CacheEntry) : CacheEntry := e.kept.mapDoubles fun _ => 0

theorem outline_kept (e : CacheEntry) : e.kept.outline = e.outline := by
  rw [outline, kept_kept, outline]

@[simp] theorem fingerprints_outline (e : CacheEntry) : e.outline.fingerprints = e.fingerprints :=
  rfl

/-- **Reading an entry from its text leaves its outline.** -/
theorem outline_reread (e : CacheEntry) : e.reread.outline = e.outline := by
  rw [reread, outline, kept_kept, kept_mapDoubles, mapDoubles_mapDoubles]
  rfl

/-- An entry without doubles is told by its outline. -/
theorem eq_of_outline {e e' : CacheEntry} (h : e.outline = e'.outline) (hexact : e'.Exact) :
    e.kept = e'.kept := by
  have hwhole : e'.outline = e'.kept := hexact.kept.mapDoubles_eq _
  have houtline : e.outline.Exact := (h.trans hwhole) ▸ hexact.kept
  have hself : e.outline = e.kept := by
    refine mapDoubles_eq_self (fun o ho => Json.outline_eq_self ?_) fun j hj =>
      Json.outline_eq_self ?_
    · exact (houtline.overrides _ (List.mem_map_of_mem ho)).noDouble
    · exact (houtline.summary _ (Option.map_eq_some_iff.2 ⟨j, hj, rfl⟩)).noDouble
  exact hself.symm.trans (h.trans hwhole)

/-- A field of the options is one of the entry. -/
theorem optionField_field {γ : Type} (k : String) (read : Reader γ)
    (set : EngineOptions → γ → EngineOptions) (presence : Presence) :
    optionField (Shape.field k read set presence) =
      Shape.field k read (fun e v => { e with options := set e.options v }) presence := by
  simp only [optionField, Shape.field, Field.mk.injEq, true_and]
  funext m j e
  cases read m j <;> rfl

/-- A member that is an option fills the options. -/
theorem fills_option {depth : Nat} {seen : List String} {k : String} {j : Json} {a b : CacheEntry}
    {γ : Type} {c : γ} {read : Reader γ} {set : EngineOptions → γ → EngineOptions}
    {presence : Presence} {l : List (String × Json)}
    (hfield : shape.fields.find? (·.name == k) =
      some (optionField (Shape.field k read set presence)))
    (hnew : k ∉ seen) (hrecovers : read.Recovers .stream depth j c)
    (h : shape.Fills depth (k :: seen) { a with options := set a.options c } l b) :
    shape.Fills depth seen a ((k, j) :: l) b :=
  .field (hfield.trans (congrArg some (optionField_field k read set presence))) hnew hrecovers h

/-- The members of an entry are fields, so a reader lets all of them pass. -/
theorem recovers_of_shape {e : CacheEntry} {depth : Nat} {l : List (String × Json)}
    (hfields : ∀ k ∈ l.map Prod.fst, shape.fields.any (·.name == k) = true)
    (h : Reader.Recovers shape.reader .stream depth (.object l) e) :
    Reader.Recovers reader .stream depth (.object l) e := by
  obtain ⟨hdepth, vs, hvs, he⟩ := Shape.recovers_iff.1 h
  refine ⟨.object vs, Json.seen_object.2 (.inl ⟨hdepth, vs, hvs, rfl⟩), ?_⟩
  have hvalues : hasValues vs = true := by
    rw [hasValues, List.all_eq_true]
    intro v hv
    obtain ⟨m, hm, hkey, -⟩ := exists_of_mem_right hvs hv
    have hfield := hfields m.1 (List.mem_map_of_mem hm)
    rw [hkey] at hfield
    simp only [hfield, Bool.true_or]
  simp only [reader, hvalues, if_true]
  exact he

/-- What nests deep in an entry is in the values that it is given. -/
theorem height_toJson_le_iff (e : CacheEntry) {n : Nat} (hn : 2 ≤ n) :
    e.toJson.height ≤ n + 1 ↔
      (Json.ofMap id e.options.overrides).height ≤ n ∧ ∀ j ∈ e.toolSummary, j.height ≤ n := by
  have hinteger : (Json.ofInt e.exitCode.toInt).height = 0 := by
    rw [Json.ofInt]
    split <;> rfl
  have hcount : (Json.ofCount e.durationMs).height = 0 := rfl
  have hstrings (l : List String) : (Json.ofStrings l).height ≤ n :=
    (Json.height_ofStrings_le l).trans (by omega)
  have hdiagnostics : (Json.array (e.diagnostics.map Diagnostic.toJson)).height ≤ n := by
    refine le_trans (Nat.succ_le_succ (Json.heightItems_le_iff.2 ?_)) hn
    rw [List.forall_mem_map]
    exact fun d _ => d.height_toJson.le
  have hfingerprints : e.fingerprints.toJson.height ≤ n := e.fingerprints.height_toJson.trans hn
  have hcategories : (Json.ofMap .string e.options.categories).height ≤ n :=
    le_trans (Json.height_ofMap_le_iff.2 fun _ _ => Nat.le_refl 0) (by omega : 1 ≤ n)
  have hsummary : (Json.ofOption id e.toolSummary).height ≤ n ↔
      ∀ j ∈ e.toolSummary, j.height ≤ n := by
    cases e.toolSummary <;> simp [Json.ofOption, Json.height]
  rw [toJson, Json.height, Nat.add_le_add_iff_right, Json.heightMembers_le_iff]
  simp only [EngineOptions.members, List.forall_mem_append, List.forall_mem_cons, hinteger, hcount,
    hstrings, hdiagnostics, hfingerprints, hcategories, hsummary, Json.height_ofOption_string,
    Nat.zero_le, List.not_mem_nil, false_imp_iff, implies_true, and_true, true_and]

/-- **An entry that does not nest too deep is read back as itself but for its doubles.** -/
theorem recovers {e : CacheEntry} (he : e.Finite) {depth : Nat}
    (hdepth : depth + 2 ≤ Json.nestingLimit)
    (hheight : depth + e.toJson.height ≤ Json.nestingLimit + 1) :
    Reader.Recovers reader .stream depth e.toJson e.reread := by
  have hshallow : depth + 1 ≤ Json.nestingLimit := by omega
  -- of what is in an entry only the overrides and the summary can nest deep
  obtain ⟨hmap, hsummary⟩ := (e.height_toJson_le_iff (n := Json.nestingLimit - depth)
    (by omega)).1 (by omega)
  have hoverrides : (Reader.map Reader.value).Recovers .stream (depth + 1)
      (.ofMap id e.options.overrides)
      (e.options.overrides.mapValues fun _ j => j.mapDoubles Json.echo) := by
    refine Reader.recovers_mapValues hshallow fun o ho => ?_
    have hpositive : Json.nestingLimit - depth = Json.nestingLimit - depth - 1 + 1 := by omega
    have hle : o.2.height ≤ Json.nestingLimit - depth - 1 :=
      Json.height_ofMap_le_iff.1 (hpositive ▸ hmap) o ho
    exact Reader.recovers_echo (he.overrides o ho) (by omega)
  have hrequired : ∀ f ∈ shape.fields, f.presence ≠ .required := by
    simp [shape, EngineOptions.shape, optionField, Shape.field]
  refine recovers_of_shape (by simp [EngineOptions.members, shape, EngineOptions.shape,
    optionField]) (Shape.recovers_of_fills (by omega) hrequired ?_)
  refine .field rfl (by simp) (Reader.recovers_strings hshallow) ?_
  refine .field rfl (by simp) Reader.recovers_int32 ?_
  refine .field rfl (by simp) (Reader.recovers_count.2 rfl) ?_
  refine .field rfl (by simp)
    (Reader.recovers_list_self hshallow fun d _ => d.recovers hdepth) ?_
  refine .field rfl (by simp) (e.fingerprints.recovers hdepth) ?_
  refine fills_option rfl (by simp) Reader.recovers_optional_string ?_
  refine fills_option rfl (by simp) Reader.recovers_optional_string ?_
  refine fills_option rfl (by simp) (Reader.recovers_strings hshallow) ?_
  refine fills_option rfl (by simp) (Reader.recovers_strings hshallow) ?_
  refine fills_option rfl (by simp) (Reader.recovers_strings hshallow) ?_
  refine fills_option rfl (by simp) hoverrides ?_
  refine fills_option rfl (by simp)
    (Reader.recovers_map_self hshallow fun _ _ => Reader.recovers_string.2 rfl) ?_
  refine .field rfl (by simp) (Reader.recovers_optional_value he.summary fun j hj => ?_) ?_
  · have hle := hsummary j hj
    omega
  · exact .done

/-- What is read as an entry is read field by field. -/
theorem recovers_shape {e : CacheEntry} {depth : Nat} {l : List (String × Json)}
    (h : Reader.Recovers reader .stream depth (.object l) e) :
    Reader.Recovers shape.reader .stream depth (.object l) e := by
  obtain ⟨v, hv, hread⟩ := h
  rcases Json.seen_object.1 hv with ⟨hdepth, vs, hvs, rfl⟩ | ⟨-, -, rfl⟩
  · rw [reader] at hread
    split at hread
    · exact Shape.recovers_iff.2 ⟨hdepth, vs, hvs, hread⟩
    · cases hread
  · cases hread

theorem part_overrides :
    shape.Part "overrides" (Reader.map Reader.value) fun e => e.options.overrides :=
  Shape.part_field (congrArg some (optionField_field "overrides" ..)) (fun _ _ => rfl)
    (by simp [shape, EngineOptions.shape, optionField_field])

theorem part_toolSummary :
    shape.Part "toolSummary" (Reader.optional Reader.value) CacheEntry.toolSummary :=
  Shape.part_field rfl (fun _ _ => rfl) (by simp [shape, EngineOptions.shape, optionField_field])

/-- **An entry that nests too deep is not read at all.** -/
theorem depth_of_recovers {e e' : CacheEntry} (he : e.Finite) {depth : Nat}
    (hdepth : depth + 2 ≤ Json.nestingLimit)
    (h : Reader.Recovers reader .stream depth e.toJson e') :
    depth + e.toJson.height ≤ Json.nestingLimit + 1 := by
  have hshape := recovers_shape h
  have hoverrides := Shape.recovers_part hshape part_overrides (by simp [EngineOptions.members])
    (j := .ofMap id e.options.overrides) (by simp [EngineOptions.members])
  have hsummary := Shape.recovers_part hshape part_toolSummary (by simp [EngineOptions.members])
    (j := .ofOption id e.toolSummary) (by simp [EngineOptions.members])
  have hpositive : Json.nestingLimit - depth = Json.nestingLimit - depth - 1 + 1 := by omega
  have hmap : (Json.ofMap id e.options.overrides).height ≤ Json.nestingLimit - depth := by
    rw [hpositive, Json.height_ofMap_le_iff]
    intro o ho
    obtain ⟨v, -, hv⟩ :=
      (Reader.recovers_map.1 hoverrides).2.exists_right (SortedMap.get?_eq_some_iff.2 ho)
    have hfits := (Reader.recovers_value_iff (he.overrides o ho)).1 ⟨v, hv⟩
    rw [id]
    omega
  have hvalue : ∀ j ∈ e.toolSummary, j.height ≤ Json.nestingLimit - depth := by
    intro j hj
    rw [Option.mem_def.1 hj] at hsummary
    have hfits := (Reader.recovers_value_iff (he.summary j hj)).1
      (Reader.exists_recovers_of_optional hsummary)
    omega
  have hheight := (e.height_toJson_le_iff (by omega)).2 ⟨hmap, hvalue⟩
  omega

/-- **The values of an entry that is read have finite doubles only.** -/
theorem finite_of_reader {m : Medium} {j : Json} {e : CacheEntry} (h : reader m j = .ok e) :
    e.Finite := by
  have hshape : shape.reader m j = .ok e := by
    cases j with
    | object l =>
      rw [reader] at h
      split at h
      · exact h
      · cases h
    | null | bool | number | string | array | beyond => cases h
  have hnames : (shape.fields.map Field.name).Nodup := by
    simp [shape, EngineOptions.shape, optionField_field]
  constructor
  · refine Shape.part_induct (P := fun n => ∀ o ∈ n.entries, Json.Over Json.finiteDoubles o.2)
      part_overrides hnames (fun o ho => absurd ho List.not_mem_nil)
      (fun j n hread o ho => ?_) hshape
    obtain ⟨i, hi⟩ := Reader.exists_of_map hread (SortedMap.get?_eq_some_iff.2 ho)
    exact Reader.over_value hi
  · exact Shape.part_induct (P := fun s => ∀ i ∈ s, Json.Over Json.finiteDoubles i)
      part_toolSummary hnames nofun
      (fun j s hread i hi => Reader.over_value (j := j) (Reader.of_optional (hi ▸ hread))) hshape

end CacheEntry

namespace RunCache

/-- What the text of entries stands for is what they are recovered as. -/
theorem decode_eq_some {entries entries' : SortedMap String CacheEntry} :
    decode (encode entries).toUTF8 = some entries' ↔
      entriesReader.Recovers .stream 1 (.ofMap CacheEntry.toJson entries) entries' := by
  have htext : (encode entries).toList =
      Json.write .pretty 0 (.ofMap CacheEntry.toJson entries) ++ [] := by
    rw [encode, Json.toList_prettyText, List.append_nil]
  rw [decode, Utf8.decode?_toUTF8]
  simp only [Option.bind_eq_bind, Option.bind_some, htext]
  rw [Json.read?_write Json.Layout.blank_pretty _ (by simp), Option.bind_some]
  have hseen : (Json.ofMap CacheEntry.toJson entries).seen .stream 1 =
      some ((Json.ofMap CacheEntry.toJson entries).reread 1) := if_neg (by decide)
  simp only [Reader.Recovers, hseen, Option.some.injEq, exists_eq_left']
  cases entriesReader .stream ((Json.ofMap CacheEntry.toJson entries).reread 1) with
  | error e => simp [Except.toOption]
  | ok n => simp [Except.toOption]

/-- **What is read from the text of a store is what it was written for**, but for the doubles. -/
theorem decode_rereading {entries : SortedMap String CacheEntry}
    (hfinite : ∀ e ∈ entries.entries, e.2.Finite)
    (hheight : (Json.ofMap CacheEntry.toJson entries).height ≤ Json.nestingLimit) :
    decode (encode entries).toUTF8 = some (entries.mapValues fun _ e => e.reread) := by
  refine decode_eq_some.2 (Reader.recovers_mapValues (by decide) fun e he => ?_)
  have hle : e.2.toJson.height ≤ 126 := Json.height_ofMap_le_iff.1 hheight e he
  have hlimit : Json.nestingLimit = 127 := rfl
  exact CacheEntry.recovers (hfinite e he) (by decide) (by omega)

/-- **Nothing is read from a store that nests too deep.** -/
theorem decode_eq_none {entries : SortedMap String CacheEntry}
    (hfinite : ∀ e ∈ entries.entries, e.2.Finite)
    (hdeep : Json.nestingLimit < (Json.ofMap CacheEntry.toJson entries).height) :
    decode (encode entries).toUTF8 = none := by
  rw [Option.eq_none_iff_forall_ne_some]
  intro entries' hread
  have hrel := (Reader.recovers_map.1 (decode_eq_some.1 hread)).2
  have hshallow : (Json.ofMap CacheEntry.toJson entries).height ≤ 126 + 1 := by
    rw [Json.height_ofMap_le_iff]
    intro e he
    obtain ⟨e', -, he'⟩ := hrel.exists_right (SortedMap.get?_eq_some_iff.2 he)
    have hdepth := CacheEntry.depth_of_recovers (hfinite e he) (by decide) he'
    have hlimit : Json.nestingLimit = 127 := rfl
    omega
  exact absurd hshallow (not_le.2 hdeep)

/-- The values of what is read from a store have finite doubles only. -/
theorem finite_of_decode {bytes : ByteArray} {entries : SortedMap String CacheEntry}
    (h : decode bytes = some entries) {t : String} {e : CacheEntry}
    (he : entries.get? t = some e) : e.Finite := by
  rw [decode, Option.bind_eq_bind, Option.bind_eq_some_iff] at h
  obtain ⟨text, -, h⟩ := h
  rw [Option.bind_eq_bind, Option.bind_eq_some_iff] at h
  obtain ⟨j, -, h⟩ := h
  cases hread : entriesReader .stream j with
  | error x =>
    rw [hread] at h
    cases h
  | ok n =>
    rw [hread] at h
    cases h
    obtain ⟨i, hi⟩ := Reader.exists_of_map hread he
    exact CacheEntry.finite_of_reader hi

/-- The text of a store keeps the entries: their values are exact, and it does not nest too deep. -/
structure Storable (entries : SortedMap String CacheEntry) : Prop where
  exact : ∀ e ∈ entries.entries, e.2.Exact
  height : (Json.ofMap CacheEntry.toJson entries).height ≤ Json.nestingLimit

/-- Entries whose values have no doubles are kept as they are. -/
theorem decode_encode {entries : SortedMap String CacheEntry} (h : Storable entries) :
    decode (encode entries).toUTF8 = some (entries.mapValues fun _ e => e.kept) := by
  rw [decode_rereading (fun e he => (h.exact e he).finite) h.height]
  exact congrArg some (SortedMap.mapValues_congr fun e he => (h.exact e he).reread_eq)

theorem decode_empty : decode .empty = none := by
  decide +kernel

end RunCache

end AnalysisGate
