import AnalysisGate.Proofs.Targets
import Mathlib

/-!
How far a collection goes under its limits.

The files are taken in the order of their keys, and taking them stops before the first one that
goes beyond a limit. What is taken so is the longest beginning within the limits
(`longest_takeWithin`), and a collection has the fingerprints of exactly this beginning
(`entries_collect`). Both limits only ever cut from the end, so a collection under wider limits
goes on where another has stopped.
-/
namespace AnalysisGate

namespace Collection

/-! ## Beginnings within limits -/

section

variable {α : Type} {maxFiles maxBytes maxFiles' maxBytes' : Option UInt64} {size : α → Nat}
  {files bytes : Nat} {a : α} {l kept : List α}

/-- A list keeps to both limits, after a number of files and of bytes. -/
structure Fits (maxFiles maxBytes : Option UInt64) (size : α → Nat) (files bytes : Nat)
    (l : List α) : Prop where
  files : ∀ limit, maxFiles = some limit → files + l.length ≤ limit.toNat
  bytes : ∀ limit, maxBytes = some limit → bytes + (l.map size).sum ≤ limit.toNat

/-- The longest beginning of a list that has a property. -/
structure Longest (P : List α → Prop) (l kept : List α) : Prop where
  beginning : kept <+: l
  holds : P kept
  longest : ∀ l', l' <+: l → P l' → l' <+: kept

/-- A limit is raised, dropped, or left as it is. -/
def Widens (limit limit' : Option UInt64) : Prop :=
  ∀ m', limit' = some m' → ∃ m, limit = some m ∧ m.toNat ≤ m'.toNat

theorem within_iff {limit : Option UInt64} {n : Nat} :
    within limit n = true ↔ ∀ m, limit = some m → n ≤ m.toNat := by
  cases limit <;> simp [within]

theorem fits_nil_iff : Fits maxFiles maxBytes size files bytes [] ↔
    within maxFiles files = true ∧ within maxBytes bytes = true := by
  rw [within_iff, within_iff]
  exact ⟨fun h => ⟨h.files, h.bytes⟩, fun h => ⟨h.1, h.2⟩⟩

theorem fits_cons_iff : Fits maxFiles maxBytes size files bytes (a :: l) ↔
    Fits maxFiles maxBytes size (files + 1) (bytes + size a) l := by
  have hfiles : files + (a :: l).length = files + 1 + l.length := by
    rw [List.length_cons]
    omega
  have hbytes : bytes + ((a :: l).map size).sum = bytes + size a + (l.map size).sum := by
    rw [List.map_cons, List.sum_cons]
    omega
  constructor
  · intro h
    exact ⟨hfiles ▸ h.files, hbytes ▸ h.bytes⟩
  · intro h
    exact ⟨hfiles ▸ h.files, hbytes ▸ h.bytes⟩

/-- What goes beyond a limit at once is not within it later. -/
theorem Fits.nil (h : Fits maxFiles maxBytes size files bytes l) :
    Fits maxFiles maxBytes size files bytes [] where
  files limit hlimit := (Nat.le_add_right _ _).trans (h.files limit hlimit)
  bytes limit hlimit := (Nat.le_add_right _ _).trans (h.bytes limit hlimit)

theorem Fits.widen (hfiles : Widens maxFiles maxFiles') (hbytes : Widens maxBytes maxBytes')
    (h : Fits maxFiles maxBytes size files bytes l) :
    Fits maxFiles' maxBytes' size files bytes l where
  files limit' hlimit' := by
    obtain ⟨limit, hlimit, hle⟩ := hfiles limit' hlimit'
    exact (h.files limit hlimit).trans hle
  bytes limit' hlimit' := by
    obtain ⟨limit, hlimit, hle⟩ := hbytes limit' hlimit'
    exact (h.bytes limit hlimit).trans hle

theorem fits_start_nil : Fits maxFiles maxBytes size 0 0 [] where
  files _ _ := Nat.zero_le _
  bytes _ _ := Nat.zero_le _

/-- There is only one longest beginning. -/
theorem Longest.unique {P : List α → Prop} {kept' : List α} (h : Longest P l kept)
    (h' : Longest P l kept') : kept = kept' :=
  (h'.longest kept h.beginning h.holds).eq_of_length_le
    (h.longest kept' h'.beginning h'.holds).length_le

/-- A file that fits starts the longest beginning. -/
theorem Longest.cons {P Q : List α → Prop} (hP : ∀ l, P (a :: l) ↔ Q l) (h : Longest Q l kept) :
    Longest P (a :: l) (a :: kept) where
  beginning := (List.prefix_cons_inj a).2 h.beginning
  holds := (hP kept).2 h.holds
  longest l' hl' hfits := by
    cases l' with
    | nil => exact List.nil_prefix
    | cons b l' =>
      obtain ⟨rfl, htail⟩ := List.cons_prefix_cons.1 hl'
      exact (List.prefix_cons_inj b).2 (h.longest l' htail ((hP l').1 hfits))

/-- **The longest beginning is taken**, if the bytes can be counted. -/
theorem longest_takeWithin (hsum : bytes + (l.map size).sum < UInt64.size)
    (hstart : Fits maxFiles maxBytes size files bytes []) :
    Longest (Fits maxFiles maxBytes size files bytes) l
      (takeWithin maxFiles maxBytes size files bytes l).1 := by
  -- on the list; what has been taken so far fits
  induction l generalizing files bytes with
  | nil => exact ⟨List.prefix_rfl, hstart, fun l' hl' _ => hl'⟩
  | cons a rest ih =>
    rw [List.map_cons, List.sum_cons] at hsum
    have hexact : min (bytes + size a) (UInt64.size - 1) = bytes + size a := by
      apply Nat.min_eq_left
      omega
    rw [takeWithin, hexact]
    split
    · next hwithin =>
      have hnext : Fits maxFiles maxBytes size (files + 1) (bytes + size a) [] :=
        fits_nil_iff.2 (Bool.and_eq_true_iff.1 hwithin)
      exact (ih (by omega) hnext).cons fun _ => fits_cons_iff
    · next hbeyond =>
      refine ⟨List.nil_prefix, hstart, fun l' hl' hfits => ?_⟩
      cases l' with
      | nil => exact List.nil_prefix
      | cons b l' =>
        obtain ⟨rfl, -⟩ := List.cons_prefix_cons.1 hl'
        have hnext := fits_nil_iff.1 (fits_cons_iff.1 hfits).nil
        exact absurd (Bool.and_eq_true_iff.2 hnext) hbeyond

theorem takeWithin_starts (maxFiles maxBytes : Option UInt64) (size : α → Nat) (files bytes : Nat)
    (l : List α) : (takeWithin maxFiles maxBytes size files bytes l).1 <+: l := by
  induction l generalizing files bytes with
  | nil => exact List.prefix_rfl
  | cons a rest ih =>
    rw [takeWithin]
    split
    · exact (List.prefix_cons_inj a).2 (ih _ _)
    · exact List.nil_prefix

/-- Something is reported as left out exactly if something is. -/
theorem truncated_takeWithin (maxFiles maxBytes : Option UInt64) (size : α → Nat)
    (files bytes : Nat) (l : List α) :
    (takeWithin maxFiles maxBytes size files bytes l).2 = true ↔
      (takeWithin maxFiles maxBytes size files bytes l).1 ≠ l := by
  induction l generalizing files bytes with
  | nil => simp [takeWithin]
  | cons a rest ih =>
    rw [takeWithin]
    split
    · rw [ih, ne_eq, ne_eq, List.cons_inj_right]
    · simp

end

/-! ## What a collection has -/

variable {w : Workspace} {root : Path} {targets : List Path} {o : CollectOptions}

theorem taken_starts (w : Workspace) (root : Path) (targets : List Path) (o : CollectOptions) :
    taken w root targets o <+: (selected w root targets o).entries :=
  takeWithin_starts _ _ _ _ _ _

theorem taken_ascending (w : Workspace) (root : Path) (targets : List Path) (o : CollectOptions) :
    (taken w root targets o).Pairwise fun a b => compare a.1 b.1 = .lt :=
  (selected w root targets o).ascending.sublist (taken_starts w root targets o).sublist

/-- The fingerprint that a collection has of a file. -/
def shown (w : Workspace) (baseline : Option FingerprintMap) (e : String × Path) :
    String × Fingerprint :=
  (e.1, (Fingerprint.probe w (baseline.bind (·.get? e.1)) e.2).1)

/-- **A collection has the fingerprints of the files that are taken**, in their order. -/
theorem entries_collect (w : Workspace) (root : Path) (targets : List Path) (o : CollectOptions) :
    (collect w root targets o).fingerprints.entries =
      (taken w root targets o).map (shown w o.baseline) := by
  have hascending : ((taken w root targets o).map (shown w o.baseline)).Pairwise
      fun a b => compare a.1 b.1 = .lt :=
    List.pairwise_map.2 (taken_ascending w root targets o)
  have hmap : (collect w root targets o).fingerprints =
      SortedMap.ofList ((taken w root targets o).map (shown w o.baseline)) := by
    rw [collect, fingerprints_foldl_add, SortedMap.ofList, List.foldl_map]
    rfl
  rw [hmap, SortedMap.ofList_of_ascending hascending]

/-- A collection counts the files, but its limits are set by the tree alone. -/
theorem truncated_foldl_add (w : Workspace) (baseline : Option FingerprintMap)
    (l : List (String × Path)) (c : Collection) :
    (l.foldl (add w baseline) c).truncated = c.truncated := by
  induction l generalizing c with
  | nil => rfl
  | cons e l ih =>
    rw [List.foldl_cons, ih]
    rfl

theorem truncated_collect : (collect w root targets o).truncated = true ↔
    taken w root targets o ≠ (selected w root targets o).entries := by
  rw [collect, truncated_foldl_add]
  exact truncated_takeWithin _ _ _ _ _ _

/-- Without limits everything is taken. -/
theorem taken_unlimited (hfiles : o.maxFiles = none) (hbytes : o.maxBytes = none) :
    taken w root targets o = (selected w root targets o).entries := by
  rw [taken, hfiles, hbytes, takeWithin_unlimited]

/-- How many bytes a file counts for: those that a look at it tells, and none where it tells of no
file. -/
inductive CountsFor (w : Workspace) (p : Path) : Nat → Prop
  | told {size : Nat} {modified : Int} (h : w.stat p = .ok (.regular size modified)) :
    CountsFor w p size
  | untold (h : ∀ size modified, w.stat p ≠ .ok (.regular size modified)) : CountsFor w p 0

theorem CountsFor.eq {p : Path} {n : Nat} (h : CountsFor w p n) : fileSize w p = n := by
  cases h with
  | told h => rw [fileSize, h]
  | untold h =>
    rw [fileSize]
    split
    · next size modified hstat => exact absurd hstat (h size modified)
    · rfl

theorem countsFor_fileSize (w : Workspace) (p : Path) : CountsFor w p (fileSize w p) := by
  rw [fileSize]
  split
  · next size modified hstat => exact .told hstat
  · next huntold => exact .untold huntold

/-- How many bytes files have together. -/
def totalSize (size : String × Path → Nat) (l : List (String × Path)) : Nat := (l.map size).sum

section

variable {size : String × Path → Nat} (hsize : ∀ e, CountsFor w e.2 (size e))

include hsize

theorem fileSize_eq : (fun e : String × Path => fileSize w e.2) = size := by
  funext e
  exact (hsize e).eq

/-- What a collection takes is a longest beginning of what there is. -/
theorem longest_taken
    (hsum : totalSize size (selected w root targets o).entries < UInt64.size) :
    Longest (Fits o.maxFiles o.maxBytes size 0 0)
      (selected w root targets o).entries (taken w root targets o) := by
  rw [taken, fileSize_eq hsize]
  exact longest_takeWithin (by rwa [Nat.zero_add]) fits_start_nil

/-- Wider limits only take more. -/
theorem taken_widen {maxFiles maxBytes : Option UInt64}
    (hsum : totalSize size (selected w root targets o).entries < UInt64.size)
    (hfiles : Widens o.maxFiles maxFiles) (hbytes : Widens o.maxBytes maxBytes) :
    taken w root targets o <+:
      taken w root targets { o with maxFiles := maxFiles, maxBytes := maxBytes } := by
  have hless := longest_taken hsize hsum
  have hmore : Longest (Fits maxFiles maxBytes size 0 0) (selected w root targets o).entries
      (taken w root targets { o with maxFiles := maxFiles, maxBytes := maxBytes }) :=
    longest_taken (o := { o with maxFiles := maxFiles, maxBytes := maxBytes }) hsize hsum
  exact hmore.longest _ hless.beginning (hless.holds.widen hfiles hbytes)

end

/-- A collection is the one without limits, at the keys of the files that are taken. -/
theorem fingerprints_eq_filter : (collect w root targets o).fingerprints =
    (collect w root targets { o with maxFiles := none, maxBytes := none }).fingerprints.filter
      fun key _ => ((taken w root targets o).map Prod.fst).contains key := by
  apply SortedMap.entries_inj
  have hall : (collect w root targets
      { o with maxFiles := none, maxBytes := none }).fingerprints.entries =
        (selected w root targets o).entries.map (shown w o.baseline) := by
    rw [entries_collect, taken_unlimited rfl rfl]
    rfl
  obtain ⟨rest, hrest⟩ := taken_starts w root targets o
  have hnodup := SortedMap.nodup_of_ascending (selected w root targets o).ascending
  rw [← hrest, List.map_append, List.nodup_append] at hnodup
  obtain ⟨-, -, happart⟩ := hnodup
  show _ = List.filter _ _
  rw [hall, entries_collect, ← hrest, List.map_append, List.filter_append,
    List.filter_eq_self.2, List.filter_eq_nil_iff.2, List.append_nil]
  · intro e he hkept
    obtain ⟨e', he', rfl⟩ := List.mem_map.1 he
    exact happart _ (List.contains_iff_mem.1 hkept) _ (List.mem_map_of_mem he') rfl
  · intro e he
    obtain ⟨e', he', rfl⟩ := List.mem_map.1 he
    exact List.contains_iff_mem.2 (List.mem_map_of_mem he')

/-- **Limits cut a collection to the longest beginning within them.** Of every map of candidates
the longest beginning of at most so many files and bytes is kept, in the order of the keys, and
something is reported as left out exactly if something is; a file has the bytes that a look at it
tells. So a collection has what the one without limits has at the keys of this beginning, and wider
limits only add to its end. -/
theorem collects_longest (w : Workspace) (root : Path) (targets : List Path) (o : CollectOptions)
    (m : SortedMap String Path) (size : String × Path → Nat)
    (hsize : ∀ e, CountsFor w e.2 (size e)) (hm : totalSize size m.entries < UInt64.size)
    (hsum : totalSize size (selected w root targets o).entries < UInt64.size) :
    (∀ maxFiles maxBytes,
      Longest (Fits maxFiles maxBytes size 0 0) m.entries
        (takeWithin maxFiles maxBytes (fun e => fileSize w e.2) 0 0 m.entries).1 ∧
      ((takeWithin maxFiles maxBytes (fun e => fileSize w e.2) 0 0 m.entries).2 = true ↔
        (takeWithin maxFiles maxBytes (fun e => fileSize w e.2) 0 0 m.entries).1 ≠ m.entries)) ∧
    ∃ kept, Longest (Fits o.maxFiles o.maxBytes size 0 0)
        (selected w root targets o).entries kept ∧
      (collect w root targets o).fingerprints =
        (collect w root targets
          { o with maxFiles := none, maxBytes := none }).fingerprints.filter
            (fun key _ => (kept.map Prod.fst).contains key) ∧
      (collect w root targets o).fingerprints.keys = kept.map Prod.fst ∧
      ((collect w root targets o).truncated = true ↔ kept ≠ (selected w root targets o).entries) ∧
      ∀ maxFiles maxBytes, Widens o.maxFiles maxFiles → Widens o.maxBytes maxBytes →
        (collect w root targets o).fingerprints.entries <+: (collect w root targets
          { o with maxFiles := maxFiles, maxBytes := maxBytes }).fingerprints.entries := by
  constructor
  · intro maxFiles maxBytes
    rw [fileSize_eq hsize]
    exact ⟨longest_takeWithin (by rwa [Nat.zero_add]) fits_start_nil,
      truncated_takeWithin _ _ _ _ _ _⟩
  · refine ⟨taken w root targets o, longest_taken hsize hsum, fingerprints_eq_filter, ?_,
      truncated_collect, fun maxFiles maxBytes hfiles hbytes => ?_⟩
    · rw [SortedMap.keys, entries_collect, List.map_map]
      rfl
    · rw [entries_collect, entries_collect]
      exact (taken_widen hsize hsum hfiles hbytes).map _

/-- Two files of one byte, and an empty one between them. -/
def sparse : Workspace :=
  ⟨SortedMap.ofList [(["a"], .file ⟨#[120]⟩ 0), (["b"], .file .empty 0),
    (["d"], .file ⟨#[121]⟩ 0)], [], 1⟩

theorem stat_sparse : sparse.stat ⟨"/a"⟩ = .ok (.regular 1 0) ∧
    sparse.stat ⟨"/b"⟩ = .ok (.regular 0 0) ∧ sparse.stat ⟨"/c"⟩ = .error .notFound ∧
    sparse.stat ⟨"/d"⟩ = .ok (.regular 1 0) := by
  have ha : Workspace.InRoot ⟨"/a"⟩ "a" :=
    ⟨by decide, by decide, by decide, by decide, by decide, by decide⟩
  have hb : Workspace.InRoot ⟨"/b"⟩ "b" :=
    ⟨by decide, by decide, by decide, by decide, by decide, by decide⟩
  have hc : Workspace.InRoot ⟨"/c"⟩ "c" :=
    ⟨by decide, by decide, by decide, by decide, by decide, by decide⟩
  have hd : Workspace.InRoot ⟨"/d"⟩ "d" :=
    ⟨by decide, by decide, by decide, by decide, by decide, by decide⟩
  have hfirst : sparse.entries.get? ["a"] = some (.file ⟨#[120]⟩ 0) := by
    simp [sparse, SortedMap.get?_ofList]
  have hempty : sparse.entries.get? ["b"] = some (.file .empty 0) := by
    simp [sparse, SortedMap.get?_ofList]
  have hlast : sparse.entries.get? ["d"] = some (.file ⟨#[121]⟩ 0) := by
    simp [sparse, SortedMap.get?_ofList]
  exact ⟨ha.stat_file hfirst, hb.stat_file hempty,
    hc.stat_free (by simp [sparse, SortedMap.get?_ofList]), hd.stat_file hlast⟩

theorem selected_sparse {maxFiles maxBytes : Option UInt64} :
    (selected sparse ⟨"/"⟩ [⟨"/d"⟩, ⟨"/c"⟩, ⟨"/b"⟩, ⟨"/a"⟩]
      ⟨[], false, maxFiles, maxBytes, none⟩).entries =
        [("a", ⟨"/a"⟩), ("b", ⟨"/b"⟩), ("c", ⟨"/c"⟩), ("d", ⟨"/d"⟩)] := by
  obtain ⟨ha, hb, hc, hd⟩ := stat_sparse
  have hnamed : ∀ target ∈ [Path.mk "/d", ⟨"/c"⟩, ⟨"/b"⟩, ⟨"/a"⟩],
      sparse.isDirectory (Path.join ⟨"/"⟩ target) = false := by
    simp [Path.join, Path.isAbsolute, Workspace.isDirectory, ha, hb, hc, hd]
  rw [selected, if_neg Bool.false_ne_true, files_candidates_of_named hnamed]
  decide

/-- One byte is allowed: after the file of one byte an empty one and a missing one are still taken,
but the second byte is one too many. With two bytes allowed it is taken as well. -/
theorem collects_longest_exact :
    let targets : List Path := [⟨"/d"⟩, ⟨"/c"⟩, ⟨"/b"⟩, ⟨"/a"⟩]
    let o : CollectOptions := ⟨[], false, some 4, some 1, none⟩
    let wider : CollectOptions := { o with maxBytes := some 2 }
    totalSize (fun e => fileSize sparse e.2) (selected sparse ⟨"/"⟩ targets o).entries <
        UInt64.size ∧
      (collect sparse ⟨"/"⟩ targets o).fingerprints.keys = ["a", "b", "c"] ∧
      (collect sparse ⟨"/"⟩ targets o).truncated = true ∧
      (collect sparse ⟨"/"⟩ targets o).fingerprints.entries <+:
        (collect sparse ⟨"/"⟩ targets wider).fingerprints.entries ∧
      (collect sparse ⟨"/"⟩ targets wider).fingerprints.keys = ["a", "b", "c", "d"] ∧
      (collect sparse ⟨"/"⟩ targets wider).truncated = false := by
  intro targets o wider
  obtain ⟨ha, hb, hc, hd⟩ := stat_sparse
  have hsize : ∀ e : String × Path, CountsFor sparse e.2 (fileSize sparse e.2) :=
    fun e => countsFor_fileSize sparse e.2
  have hsum : totalSize (fun e => fileSize sparse e.2)
      (selected sparse ⟨"/"⟩ targets o).entries < UInt64.size := by
    rw [selected_sparse]
    simp [totalSize, fileSize, ha, hb, hc, hd, UInt64.size]
  obtain ⟨-, kept, hkept, -, hkeys, htruncated, hwider⟩ :=
    collects_longest sparse ⟨"/"⟩ targets o _ _ hsize hsum hsum
  obtain rfl : kept = [("a", ⟨"/a"⟩), ("b", ⟨"/b"⟩), ("c", ⟨"/c"⟩)] := by
    rw [hkept.unique (longest_taken hsize hsum), taken, selected_sparse]
    simp [takeWithin, within, fileSize, ha, hb, hc, hd, o]
  obtain ⟨-, all, hall, -, hallKeys, hnone, -⟩ :=
    collects_longest sparse ⟨"/"⟩ targets wider _ _ hsize hsum hsum
  obtain rfl : all = [("a", ⟨"/a"⟩), ("b", ⟨"/b"⟩), ("c", ⟨"/c"⟩), ("d", ⟨"/d"⟩)] := by
    rw [hall.unique (longest_taken hsize hsum), taken, selected_sparse]
    simp [takeWithin, within, fileSize, ha, hb, hc, hd, o, wider]
  refine ⟨hsum, hkeys, ?_, hwider (some 4) (some 2) ?_ ?_, hallKeys, ?_⟩
  · rw [htruncated, selected_sparse]
    decide
  · intro limit hlimit
    exact ⟨limit, hlimit, le_rfl⟩
  · intro limit hlimit
    obtain rfl := Option.some.inj hlimit
    exact ⟨1, rfl, by decide⟩
  · rw [Bool.eq_false_iff, ne_eq, hnone, selected_sparse]
    decide

end Collection

end AnalysisGate
