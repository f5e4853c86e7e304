import AnalysisGate.Proofs.Limits
import Mathlib

/-!
Fingerprints that are known already.

A baseline is trusted for a file of the same size and time, and only there. So a collection with a
baseline has the same fingerprints as one without if the baseline is right about those files, and
each file with bytes is either hashed or taken over (`collect_with_baseline`). A baseline that comes
from the same files leaves nothing to hash, unless it has a file under a spelling by which the file
could not be looked at.
-/
namespace AnalysisGate

namespace Fingerprint

variable {w : Workspace} {p : Path} {known : Option Fingerprint} {size : Nat} {modified : Int}
  {bytes : ByteArray}

/-- A fingerprint that is known has the size and the time of a file. -/
def matchesFile (w : Workspace) (known : Option Fingerprint) (p : Path) : Bool :=
  match w.stat p with
  | .ok (.regular size modified) => known.any (sameStat (nanos modified) (.ofNat size))
  | _ => false

theorem sameStat_iff {m s : UInt64} {f : Fingerprint} :
    sameStat m s f = true ↔ ∃ hash, f = .content hash m s := by
  cases f with
  | content hash m' s' => simp [sameStat]
  | missing | unreadable => simp [sameStat]

theorem matchesFile_iff : matchesFile w known p = true ↔ ∃ hash size modified,
    w.stat p = .ok (.regular size modified) ∧
      known = some (.content hash (nanos modified) (.ofNat size)) := by
  rw [matchesFile]
  constructor
  · intro h
    split at h
    · next size modified hstat =>
      obtain ⟨f, rfl, hf⟩ := (Option.any_eq_true _ _).1 h
      obtain ⟨hash, rfl⟩ := sameStat_iff.1 hf
      exact ⟨hash, size, modified, hstat, rfl⟩
    · cases h
  · rintro ⟨hash, size, modified, hstat, rfl⟩
    rw [hstat]
    exact sameStat_iff.2 ⟨hash, rfl⟩

/-- What is known of a file is taken over. -/
theorem probe_of_matches {f : Fingerprint} (h : matchesFile w (some f) p = true) :
    probe w (some f) p = (f, .reused) ∧ f.isContent = true := by
  obtain ⟨hash, size, modified, hstat, hf⟩ := matchesFile_iff.1 h
  obtain rfl := Option.some.inj hf
  have hkept : (some (content hash (nanos modified) (.ofNat size))).filter
      (sameStat (nanos modified) (.ofNat size)) =
        some (content hash (nanos modified) (.ofNat size)) := by
    simp [Option.filter, sameStat]
  refine ⟨?_, rfl⟩
  rw [probe, hstat]
  simp only [hkept]

/-- A file of which nothing is known that matches is hashed. -/
theorem probe_of_not_matches (hstat : w.stat p = .ok (.regular size modified))
    (hread : w.read p = .ok bytes) (h : matchesFile w known p = false) :
    probe w known p = (.content (Xxh3.hex bytes) (nanos modified) (.ofNat size), .hashed) := by
  rw [matchesFile, hstat] at h
  have hnone : known.filter (sameStat (nanos modified) (.ofNat size)) = none := by
    rw [Option.filter_eq_none_iff]
    intro f hf
    rw [hf] at h
    simpa using h
  rw [probe, hstat]
  simp only [hnone, hread]

/-- What is no file has no bytes. -/
theorem probe_of_not_regular (known : Option Fingerprint) (h : w.isRegular p = false) :
    (probe w known p).2 = .terminal ∧ (probe w known p).1.isContent = false ∧
      probe w known p = probe w none p ∧ matchesFile w known p = false := by
  rw [Workspace.isRegular] at h
  rw [probe, probe, matchesFile]
  cases hstat : w.stat p with
  | error e => cases e <;> exact ⟨rfl, rfl, rfl, rfl⟩
  | ok s =>
    rw [hstat] at h
    cases s with
    | regular size modified => cases h
    | directory | other => exact ⟨rfl, rfl, rfl, rfl⟩

/-- A file with bytes is hashed or taken over, and other files are neither. -/
theorem probe_cases (w : Workspace) (known : Option Fingerprint) (p : Path) :
    (probe w known p).1.isContent = w.isRegular p ∧
      decide ((probe w known p).2 = .reused) = matchesFile w known p ∧
      decide ((probe w known p).2 = .hashed) = (w.isRegular p && !matchesFile w known p) := by
  cases hregular : w.isRegular p with
  | false =>
    obtain ⟨hterminal, hcontent, -, hmatches⟩ := probe_of_not_regular known hregular
    rw [hterminal, hcontent, hmatches]
    exact ⟨rfl, rfl, rfl⟩
  | true =>
    obtain ⟨x, bytes, modified, hx, hne, he⟩ := Workspace.isRegular_iff.1 hregular
    obtain ⟨hstat, hread⟩ := Collection.view_of_file hx hne he
    cases hmatches : matchesFile w known p with
    | false =>
      rw [probe_of_not_matches hstat hread hmatches]
      exact ⟨rfl, rfl, rfl⟩
    | true =>
      obtain ⟨hash, size, modified', -, rfl⟩ := matchesFile_iff.1 hmatches
      obtain ⟨hprobe, hcontent⟩ := probe_of_matches hmatches
      rw [hprobe, hcontent]
      exact ⟨rfl, rfl, rfl⟩

end Fingerprint

namespace Collection

variable {w : Workspace} {root : Path} {targets : List Path} {o : CollectOptions}
  {b : FingerprintMap}

/-! ## Counting -/

/-- What a baseline has for a file. -/
def known (baseline : Option FingerprintMap) (e : String × Path) : Option Fingerprint :=
  baseline.bind (·.get? e.1)

/-- A file that has to be hashed. -/
def isFresh (w : Workspace) (baseline : Option FingerprintMap) (e : String × Path) : Bool :=
  w.isRegular e.2 && !Fingerprint.matchesFile w (known baseline e) e.2

/-- A file of which the baseline has the size and the time. -/
def isKnown (w : Workspace) (baseline : Option FingerprintMap) (e : String × Path) : Bool :=
  Fingerprint.matchesFile w (known baseline e) e.2

theorem counts_add (c : Collection) (baseline : Option FingerprintMap) (e : String × Path) :
    (add w baseline c e).hashed = c.hashed + (if isFresh w baseline e then 1 else 0) ∧
      (add w baseline c e).reused = c.reused + (if isKnown w baseline e then 1 else 0) := by
  obtain ⟨-, hreused, hhashed⟩ := Fingerprint.probe_cases w (known baseline e) e.2
  have hcount (p : Prop) [Decidable p] (n : Nat) :
      (if p then n + 1 else n) = n + if decide p = true then 1 else 0 := by
    by_cases hp : p <;> simp [hp]
  rw [isFresh, ← hhashed, isKnown, ← hreused]
  exact ⟨hcount _ _, hcount _ _⟩

theorem counts_foldl_add (w : Workspace) (baseline : Option FingerprintMap)
    (l : List (String × Path)) (c : Collection) :
    (l.foldl (add w baseline) c).hashed = c.hashed + l.countP (isFresh w baseline) ∧
      (l.foldl (add w baseline) c).reused = c.reused + l.countP (isKnown w baseline) := by
  induction l generalizing c with
  | nil => exact ⟨rfl, rfl⟩
  | cons e l ih =>
    obtain ⟨hhashed, hreused⟩ := counts_add (w := w) c baseline e
    obtain ⟨ihhashed, ihreused⟩ := ih (add w baseline c e)
    rw [List.foldl_cons, ihhashed, ihreused, hhashed, hreused, List.countP_cons, List.countP_cons]
    omega

/-- The counts of a collection are numbers of files that are taken. -/
theorem counts_collect (w : Workspace) (root : Path) (targets : List Path) (o : CollectOptions) :
    (collect w root targets o).hashed = (taken w root targets o).countP (isFresh w o.baseline) ∧
      (collect w root targets o).reused =
        (taken w root targets o).countP (isKnown w o.baseline) := by
  obtain ⟨hhashed, hreused⟩ := counts_foldl_add w o.baseline (taken w root targets o)
    ⟨.empty, (takeWithin o.maxFiles o.maxBytes (fun e => fileSize w e.2) 0 0
      (selected w root targets o).entries).2, 0, 0⟩
  exact ⟨hhashed.trans (Nat.zero_add _), hreused.trans (Nat.zero_add _)⟩

theorem matches_none (p : Path) : Fingerprint.matchesFile w none p = false := by
  rw [Fingerprint.matchesFile]
  split <;> rfl

theorem isRegular_of_isKnown {baseline : Option FingerprintMap} {e : String × Path}
    (h : isKnown w baseline e = true) : w.isRegular e.2 = true := by
  obtain ⟨hash, size, modified, hstat, -⟩ := Fingerprint.matchesFile_iff.1 h
  rw [Workspace.isRegular, hstat]

/-- Each file with bytes is either hashed or taken over. -/
theorem countP_fresh_add_known (baseline : Option FingerprintMap) (l : List (String × Path)) :
    l.countP (isFresh w baseline) + l.countP (isKnown w baseline) =
      l.countP fun e => w.isRegular e.2 := by
  induction l with
  | nil => rfl
  | cons e l ih =>
    rw [List.countP_cons, List.countP_cons, List.countP_cons, ← ih]
    cases hknown : isKnown w baseline e with
    | true =>
      have hregular := isRegular_of_isKnown hknown
      rw [isKnown] at hknown
      simp [isFresh, hknown, hregular]
      omega
    | false =>
      rw [isKnown] at hknown
      simp [isFresh, hknown]
      omega

/-- The fingerprints with a digest are those of the files with bytes. -/
theorem countP_isContent (w : Workspace) (root : Path) (targets : List Path) (o : CollectOptions) :
    (collect w root targets o).fingerprints.values.countP Fingerprint.isContent =
      (taken w root targets o).countP fun e => w.isRegular e.2 := by
  rw [SortedMap.values, entries_collect, List.map_map, List.countP_map]
  refine List.countP_congr fun e _ => ?_
  show (Fingerprint.probe w _ e.2).1.isContent = true ↔ _
  rw [(Fingerprint.probe_cases w _ e.2).1]

/-! ## Trust -/

/-- A baseline has the right digests of the files that it is trusted for: those of which it has the
size and the time. -/
def Vouches (w : Workspace) (b : FingerprintMap) (l : List (String × Path)) : Prop :=
  ∀ e ∈ l, ∀ hash size modified bytes, w.stat e.2 = .ok (.regular size modified) →
    w.read e.2 = .ok bytes →
      b.get? e.1 = some (.content hash (Fingerprint.nanos modified) (.ofNat size)) →
        hash = Xxh3.hex bytes

/-- What is taken over is what would be hashed. -/
theorem Vouches.shown_eq {l : List (String × Path)} (h : Vouches w b l) {e : String × Path}
    (he : e ∈ l) : shown w (some b) e = shown w none e := by
  refine congrArg (Prod.mk e.1) ?_
  show (Fingerprint.probe w (b.get? e.1) e.2).1 = (Fingerprint.probe w none e.2).1
  cases hregular : w.isRegular e.2 with
  | false =>
    obtain ⟨-, -, hsame, -⟩ := Fingerprint.probe_of_not_regular (b.get? e.1) hregular
    rw [hsame]
  | true =>
    obtain ⟨x, bytes, modified, hx, hne, hentry⟩ := Workspace.isRegular_iff.1 hregular
    obtain ⟨hstat, hread⟩ := view_of_file hx hne hentry
    rw [Fingerprint.probe_of_not_matches hstat hread (matches_none e.2)]
    cases hmatches : Fingerprint.matchesFile w (b.get? e.1) e.2 with
    | false => rw [Fingerprint.probe_of_not_matches hstat hread hmatches]
    | true =>
      obtain ⟨hash, size, modified', hstat', hknown⟩ := Fingerprint.matchesFile_iff.1 hmatches
      rw [hstat] at hstat'
      cases hstat'
      rw [hknown] at hmatches ⊢
      rw [(Fingerprint.probe_of_matches hmatches).1, h e he hash _ _ bytes hstat hread hknown]

/-! ## Earlier collections -/

theorem get?_candidates_of_taken {key : String} {p : Path}
    (h : (key, p) ∈ taken w root targets o) :
    (candidates w root o.extensions targets).files.get? key = some p :=
  get?_candidates_of_selected
    (SortedMap.get?_eq_some_iff.2 ((taken_starts w root targets o).subset h))

/-- What a collection has is of a file that it has taken. -/
theorem get?_collect_eq_some {key : String} {f : Fingerprint} :
    (collect w root targets o).fingerprints.get? key = some f ↔ ∃ p,
      (key, p) ∈ taken w root targets o ∧
        (Fingerprint.probe w (known o.baseline (key, p)) p).1 = f := by
  rw [SortedMap.get?_eq_some_iff, entries_collect, List.mem_map]
  constructor
  · rintro ⟨⟨key', p⟩, hmem, heq⟩
    obtain ⟨rfl, rfl⟩ := Prod.mk.inj heq
    exact ⟨p, hmem, rfl⟩
  · rintro ⟨p, hmem, rfl⟩
    exact ⟨(key, p), hmem, rfl⟩

/-- The fingerprint of a file has its size and its time, wherever it is from. -/
theorem exists_probe_eq (known : Option Fingerprint) {p : Path} {size : Nat} {modified : Int}
    {bytes : ByteArray} (hstat : w.stat p = .ok (.regular size modified))
    (hread : w.read p = .ok bytes) :
    ∃ hash, (Fingerprint.probe w known p).1 =
        .content hash (Fingerprint.nanos modified) (.ofNat size) ∧
      (known = none → hash = Xxh3.hex bytes) := by
  cases hmatches : Fingerprint.matchesFile w known p with
  | false =>
    rw [Fingerprint.probe_of_not_matches hstat hread hmatches]
    exact ⟨_, rfl, fun _ => rfl⟩
  | true =>
    obtain ⟨hash, size', modified', hstat', rfl⟩ := Fingerprint.matchesFile_iff.1 hmatches
    rw [hstat] at hstat'
    cases hstat'
    rw [(Fingerprint.probe_of_matches hmatches).1]
    exact ⟨hash, rfl, fun hnone => by cases hnone⟩

section

variable {targets' : List Path} {o' : CollectOptions} {e : String × Path}
  (he : e ∈ taken w root targets o)

include he

/-- Of a file that was taken under its key before, the same bytes were looked at. -/
theorem same_file {p : Path} (hp : (e.1, p) ∈ taken w root targets' o')
    (hregular : w.isRegular e.2 = true) (hregular' : w.isRegular p = true) :
    w.stat p = w.stat e.2 ∧ w.read p = w.read e.2 := by
  obtain ⟨x, bytes, modified, hx, hne, hentry⟩ := Workspace.isRegular_iff.1 hregular
  obtain ⟨x', -, -, hx', -, -⟩ := Workspace.isRegular_iff.1 hregular'
  obtain rfl := (respelled_of_candidates (get?_candidates_of_taken he)
    (get?_candidates_of_taken hp)).placeOf_unique hx hx'
  obtain ⟨hstat, hread⟩ := view_of_file hx hne hentry
  obtain ⟨hstat', hread'⟩ := view_of_file hx' hne hentry
  exact ⟨hstat'.trans hstat.symm, hread'.trans hread.symm⟩

/-- A file is known from an earlier collection exactly if that has looked at it. -/
theorem isKnown_earlier_iff (hregular : w.isRegular e.2 = true) :
    isKnown w (some (collect w root targets' o').fingerprints) e = true ↔
      ∃ p, (e.1, p) ∈ taken w root targets' o' ∧ w.isRegular p = true := by
  rw [isKnown, Fingerprint.matchesFile_iff]
  constructor
  · rintro ⟨hash, size, modified, -, hknown⟩
    obtain ⟨p, hp, hprobe⟩ := get?_collect_eq_some.1 hknown
    refine ⟨p, hp, ?_⟩
    rw [← (Fingerprint.probe_cases w _ p).1, hprobe]
    rfl
  · rintro ⟨p, hp, hregular'⟩
    obtain ⟨x, bytes, modified, hx, hne, hentry⟩ := Workspace.isRegular_iff.1 hregular
    obtain ⟨hstat, hread⟩ := view_of_file hx hne hentry
    obtain ⟨hstat', hread'⟩ := same_file he hp hregular hregular'
    obtain ⟨hash, hprobe, -⟩ := exists_probe_eq (known o'.baseline (e.1, p))
      (hstat'.trans hstat) (hread'.trans hread)
    exact ⟨hash, _, _, hstat, get?_collect_eq_some.2 ⟨p, hp, hprobe⟩⟩

end

/-- The digests of an earlier collection are right, if they were not taken over themselves. -/
theorem vouches_earlier {targets' : List Path} {o' : CollectOptions} (ho' : o'.baseline = none) :
    Vouches w (collect w root targets' o').fingerprints (taken w root targets o) := by
  intro e he hash size modified bytes hstat hread hget
  obtain ⟨p, hp, hprobe⟩ := get?_collect_eq_some.1 hget
  have hregular : w.isRegular e.2 = true := by
    rw [Workspace.isRegular, hstat]
  have hregular' : w.isRegular p = true := by
    rw [← (Fingerprint.probe_cases w _ p).1, hprobe]
    rfl
  obtain ⟨hstat', hread'⟩ := same_file he hp hregular hregular'
  obtain ⟨hash', hprobe', hdigest⟩ := exists_probe_eq (known o'.baseline (e.1, p))
    (hstat'.trans hstat) (hread'.trans hread)
  rw [hprobe] at hprobe'
  rw [(Fingerprint.content.inj hprobe').1]
  exact hdigest (by rw [known, ho']; rfl)

/-- **A baseline saves the hashing and changes nothing else.** If it is right about the files that
it is trusted for, the fingerprints are those of a collection without it; always are the same files
left out, and each file with bytes is hashed or taken over, the latter exactly if the baseline has
its size and its time. A baseline from an earlier collection of the same tree, of whatever targets
and within whatever limits, is right about them, and nothing is hashed exactly if the earlier
collection took each of the files for one. -/
theorem collect_with_baseline (w : Workspace) (root : Path) (targets : List Path)
    (o : CollectOptions) (b : FingerprintMap) :
    let c := collect w root targets { o with baseline := some b }
    let c₀ := collect w root targets { o with baseline := none }
    (Vouches w b (taken w root targets o) → c.fingerprints = c₀.fingerprints) ∧
    c.truncated = c₀.truncated ∧
    c.hashed + c.reused = c₀.hashed ∧
    c₀.hashed = c₀.fingerprints.values.countP Fingerprint.isContent ∧
    c₀.hashed = c.fingerprints.values.countP Fingerprint.isContent ∧
    c.reused = (taken w root targets o).countP (isKnown w (some b)) ∧
    ∀ targets' o', b = (collect w root targets' o').fingerprints →
      (o'.baseline = none → Vouches w b (taken w root targets o)) ∧
      (c.hashed = 0 ↔ ∀ e ∈ taken w root targets o, w.isRegular e.2 = true →
        ∃ p, (e.1, p) ∈ taken w root targets' o' ∧ w.isRegular p = true) := by
  intro c c₀
  have hcounts : c.hashed = (taken w root targets o).countP (isFresh w (some b)) ∧
      c.reused = (taken w root targets o).countP (isKnown w (some b)) :=
    counts_collect w root targets { o with baseline := some b }
  -- without a baseline every file is hashed
  have hfiles : c₀.hashed = (taken w root targets o).countP fun e => w.isRegular e.2 := by
    have hhashed := (counts_collect w root targets { o with baseline := none }).1
    refine hhashed.trans (List.countP_congr fun e _ => ?_)
    show (w.isRegular e.2 && !Fingerprint.matchesFile w none e.2) = true ↔ _
    rw [matches_none, Bool.not_false, Bool.and_true]
  refine ⟨fun hvouches => ?_, ?_, ?_, ?_, ?_, hcounts.2, fun targets' o' hb => ⟨?_, ?_⟩⟩
  · apply SortedMap.entries_inj
    rw [entries_collect, entries_collect]
    exact List.map_congr_left fun e he => hvouches.shown_eq he
  · exact (truncated_foldl_add w _ _ _).trans (truncated_foldl_add w _ _ _).symm
  · rw [hcounts.1, hcounts.2, hfiles, countP_fresh_add_known]
  · exact hfiles.trans (countP_isContent w root targets { o with baseline := none }).symm
  · exact hfiles.trans (countP_isContent w root targets { o with baseline := some b }).symm
  · subst hb
    exact vouches_earlier
  · subst hb
    rw [hcounts.1, List.countP_eq_zero]
    refine forall₂_congr fun e he => ?_
    rw [isFresh, Bool.and_eq_true, not_and, Bool.not_eq_true', Bool.not_eq_false]
    exact forall_congr' fun hregular => isKnown_earlier_iff he hregular

/-- **A file that is hashed again**: the earlier collection has its key, but had asked for it as a
directory. -/
theorem hashed_again :
    let o : CollectOptions := ⟨[], false, none, none, none⟩
    let b := (collect single ⟨""⟩ [⟨"f/"⟩] o).fingerprints
    b.keys = (collect single ⟨""⟩ [⟨"f"⟩] o).fingerprints.keys ∧
      (collect single ⟨""⟩ [⟨"f"⟩] { o with baseline := some b }).hashed = 1 := by
  intro o b
  obtain ⟨hstat, -, hslash⟩ := stat_single
  have hjoin : Path.join ⟨""⟩ ⟨"f"⟩ = ⟨"f"⟩ := by decide
  have hjoin' : Path.join ⟨""⟩ ⟨"f/"⟩ = ⟨"f/"⟩ := by decide
  have hkey : Path.key ⟨""⟩ ⟨"f"⟩ = "f" := by decide
  have hkey' : Path.key ⟨""⟩ ⟨"f/"⟩ = "f" := by decide
  have htaken (baseline : Option FingerprintMap) :
      taken single ⟨""⟩ [⟨"f"⟩] { o with baseline := baseline } = [("f", ⟨"f"⟩)] := by
    rw [taken_file (by simp [hjoin, Workspace.isDirectory, hstat]) rfl rfl rfl, hjoin, hkey]
  have htaken' : taken single ⟨""⟩ [⟨"f/"⟩] o = [("f", ⟨"f/"⟩)] := by
    rw [taken_file (by simp [hjoin', Workspace.isDirectory, hslash]) rfl rfl rfl, hjoin', hkey']
  have hunreadable : b.get? "f" = some .unreadable := by
    refine get?_collect_eq_some.2 ⟨⟨"f/"⟩, by rw [htaken']; exact List.mem_singleton.2 rfl, ?_⟩
    rw [Fingerprint.probe, hslash]
    rfl
  constructor
  · rw [SortedMap.keys, SortedMap.keys, entries_collect, entries_collect, htaken', htaken none]
    rfl
  · rw [(counts_collect _ _ _ _).1, htaken]
    have hfresh : isFresh single (some b) ("f", ⟨"f"⟩) = true := by
      rw [isFresh, known, Workspace.isRegular, Fingerprint.matchesFile, hstat]
      simp [hunreadable, Fingerprint.sameStat]
    rw [List.countP_singleton, if_pos hfresh]

end Collection

end AnalysisGate
