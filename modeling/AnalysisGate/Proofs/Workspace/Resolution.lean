import AnalysisGate.Workspace.Change
import Mathlib

/-!
Where paths lead.

`Leads` is the way of a path without a limit on links: it counts the links that are followed, and
a walk succeeds exactly if they are few enough (`walk_eq_ok`). The way is unique, and the way of
joined steps is made of the ways of their parts, so a way can be cut where it meets an entry.
-/
namespace AnalysisGate.Workspace

/-- A step that names an entry. -/
structure Named (name : String) : Prop where
  notHere : name ≠ "."
  notUp : name ≠ ".."
  short : name.utf8ByteSize ≤ nameLimit

/-- Where the target of a link is read from. -/
def linkBase (place : Place) (target : String) : Place :=
  if isAbsoluteText target then [] else place

/-- Steps lead from a place to a target over a number of links. -/
inductive Leads (w : Workspace) : Place → List String → Nat → Target → Prop
  | done (place : Place) : Leads w place [] 0 (.found place)
  | here {place : Place} {name : String} {rest : List String} {n : Nat} {t : Target}
      (hdir : w.isDirectoryAt place = true) (hstep : name = ".") (h : Leads w place rest n t) :
      Leads w place (name :: rest) n t
  | up {place : Place} {name : String} {rest : List String} {n : Nat} {t : Target}
      (hdir : w.isDirectoryAt place = true) (hstep : name = "..")
      (h : Leads w place.dropLast rest n t) : Leads w place (name :: rest) n t
  | free {place : Place} {name : String} (hdir : w.isDirectoryAt place = true) (hname : Named name)
      (hfree : w.entries.get? (place ++ [name]) = none) : Leads w place [name] 0 (.free place name)
  | enter {place : Place} {name : String} {rest : List String} {n : Nat} {t : Target}
      (hdir : w.isDirectoryAt place = true) (hname : Named name) (e : Entry)
      (he : w.entries.get? (place ++ [name]) = some e) (hlink : ∀ target, e ≠ .link target)
      (h : Leads w (place ++ [name]) rest n t) : Leads w place (name :: rest) n t
  | follow {place : Place} {name : String} {rest : List String} {n : Nat} {t : Target}
      (hdir : w.isDirectoryAt place = true) (hname : Named name) (target : String)
      (he : w.entries.get? (place ++ [name]) = some (.link target))
      (htarget : target.isEmpty = false)
      (h : Leads w (linkBase place target) (steps target ++ rest) n t) :
      Leads w place (name :: rest) (n + 1) t

variable {w : Workspace} {place q : Place} {names rest : List String} {name : String} {n k : Nat}
  {t t' : Target}

/-! ## Walks -/

theorem walk_cons (w : Workspace) (follow : Bool) (links : Nat) (place : Place)
    (hdir : w.isDirectoryAt place = true) (hname : Named name) :
    w.walk follow links place (name :: rest) =
      match w.entries.get? (place ++ [name]) with
      | none => if rest.isEmpty then .ok (.free place name) else .error .notFound
      | some (.link target) =>
        if rest.isEmpty && !follow then .ok (.found (place ++ [name]))
        else
          match links with
          | 0 => .error .tooManyLinks
          | links + 1 =>
            if target.isEmpty then .error .notFound
            else w.walk follow links (linkBase place target) (steps target ++ rest)
      | some _ => w.walk follow links (place ++ [name]) rest := by
  rw [walk]
  simp only [hdir, Bool.not_true, Bool.false_eq_true, if_false, if_neg hname.notHere,
    if_neg hname.notUp, if_neg (Nat.not_lt.2 hname.short)]
  rfl

theorem walk_of_leads (h : w.Leads place names n t) :
    ∀ {links : Nat}, n ≤ links → w.walk true links place names = .ok t := by
  induction h with
  | done place =>
    intro links _
    rw [walk]
  | here hdir hstep _ ih =>
    subst hstep
    intro links hn
    rw [walk]
    simpa [hdir] using ih hn
  | up hdir hstep _ ih =>
    subst hstep
    intro links hn
    rw [walk]
    simpa [hdir] using ih hn
  | free hdir hname hfree =>
    intro links _
    rw [walk_cons w true links _ hdir hname, hfree]
    rfl
  | enter hdir hname e he hlink _ ih =>
    intro links hn
    rw [walk_cons w true links _ hdir hname, he]
    cases e with
    | link target => exact absurd rfl (hlink target)
    | file | directory | pipe | device => exact ih hn
  | follow hdir hname target he htarget _ ih =>
    intro links hn
    rw [walk_cons w true links _ hdir hname, he]
    -- the count of the way is what the link takes from the limit
    obtain ⟨links, rfl⟩ : ∃ m, links = m + 1 := ⟨links - 1, by omega⟩
    simpa [htarget] using ih (Nat.le_of_succ_le_succ hn)

theorem leads_of_walk {links : Nat} (h : w.walk true links place names = .ok t) :
    ∃ n ≤ links, w.Leads place names n t := by
  fun_induction walk w true links place names with
  | case1 links place =>
    cases h
    exact ⟨0, Nat.zero_le _, .done place⟩
  | case3 links place rest hdir ih =>
    obtain ⟨n, hn, hleads⟩ := ih h
    exact ⟨n, hn, .here (by simpa using hdir) rfl hleads⟩
  | case4 links place rest hdir _ ih =>
    obtain ⟨n, hn, hleads⟩ := ih h
    exact ⟨n, hn, .up (by simpa using hdir) rfl hleads⟩
  | case6 links place name rest hdir hhere hup hshort hfree hrest =>
    cases h
    obtain rfl := List.isEmpty_iff.1 hrest
    exact ⟨0, Nat.zero_le _, .free (by simpa using hdir) ⟨hhere, hup, Nat.not_lt.1 hshort⟩ hfree⟩
  | case8 => simp_all
  | case11 place name rest hdir hhere hup hshort target he hrest links htarget ih =>
    obtain ⟨n, hn, hleads⟩ := ih h
    exact ⟨n + 1, Nat.succ_le_succ hn, .follow (by simpa using hdir)
      ⟨hhere, hup, Nat.not_lt.1 hshort⟩ target he (by simpa using htarget) hleads⟩
  | case12 links place name rest hdir hhere hup hshort e hlink he ih =>
    obtain ⟨n, hn, hleads⟩ := ih h
    exact ⟨n, hn, .enter (by simpa using hdir) ⟨hhere, hup, Nat.not_lt.1 hshort⟩ e he hlink
      hleads⟩
  | case2 | case5 | case7 | case9 | case10 => cases h

/-- A walk succeeds exactly if the way is over few enough links. -/
theorem walk_eq_ok {links : Nat} :
    w.walk true links place names = .ok t ↔ ∃ n ≤ links, w.Leads place names n t :=
  ⟨leads_of_walk, fun ⟨_, hn, h⟩ => walk_of_leads h hn⟩

/-- A walk that does not follow a last link ends where that link stands. -/
theorem walk_last (h : w.Leads place names n (.found q)) (hdir : w.isDirectoryAt q = true)
    (hname : Named name) :
    ∀ {links : Nat}, n ≤ links → w.walk false links place (names ++ [name]) =
      .ok (match w.entries.get? (q ++ [name]) with
        | none => .free q name
        | some _ => .found (q ++ [name])) := by
  generalize ht : Target.found q = t at h
  induction h with
  | done place =>
    cases ht
    intro links _
    rw [List.nil_append, walk_cons w false links _ hdir hname]
    cases w.entries.get? (q ++ [name]) with
    | none => rfl
    | some e => cases e <;> simp [walk]
  | here hd hstep _ ih =>
    subst hstep
    intro links hn
    rw [List.cons_append, walk]
    simpa [hd] using ih ht hn
  | up hd hstep _ ih =>
    subst hstep
    intro links hn
    rw [List.cons_append, walk]
    simpa [hd] using ih ht hn
  | free => cases ht
  | enter hd hstep e he hlink _ ih =>
    intro links hn
    rw [List.cons_append, walk_cons w false links _ hd hstep, he]
    cases e with
    | link target => exact absurd rfl (hlink target)
    | file | directory | pipe | device => exact ih ht hn
  | @follow place step rest n t hd hstep target he htarget _ ih =>
    intro links hn
    rw [List.cons_append, walk_cons w false links _ hd hstep, he]
    -- a link on the way costs one of the links that are left
    obtain ⟨links, rfl⟩ : ∃ m, links = m + 1 := ⟨links - 1, by omega⟩
    have hwalk := ih ht (Nat.le_of_succ_le_succ hn)
    rw [List.append_assoc] at hwalk
    simpa [htarget] using hwalk

/-- A walk by one name ends at the entry of that name, if it is no link. -/
theorem walk_name (w : Workspace) (follow : Bool) (links : Nat)
    (hdir : w.isDirectoryAt place = true) (hname : Named name)
    (hlink : ∀ target, w.entries.get? (place ++ [name]) ≠ some (.link target)) :
    w.walk follow links place [name] = .ok (match w.entries.get? (place ++ [name]) with
      | none => .free place name
      | some _ => .found (place ++ [name])) := by
  rw [walk_cons w follow links place hdir hname]
  cases he : w.entries.get? (place ++ [name]) with
  | none => rfl
  | some e =>
    cases e with
    | link target => exact absurd he (hlink target)
    | file | directory | pipe | device => simp [walk]

/-! ## Ways -/

theorem Leads.unique (h : w.Leads place names n t) :
    ∀ {k : Nat} {t' : Target}, w.Leads place names k t' → n = k ∧ t = t' := by
  -- the constructors exclude each other: a step is one or two dots or a name, and under a name
  -- stands nothing, a link or another entry
  induction h with
  | done place =>
    intro k t' h'
    cases h'
    exact ⟨rfl, rfl⟩
  | here hdir hstep _ ih =>
    intro k t' h'
    cases h' with
    | here _ _ h' => exact ih h'
    | up _ hup => exact absurd (hstep.symm.trans hup) (by decide)
    | free _ hname _ | enter _ hname | follow _ hname => exact absurd hstep hname.notHere
  | up hdir hstep _ ih =>
    intro k t' h'
    cases h' with
    | here _ hhere => exact absurd (hstep.symm.trans hhere) (by decide)
    | up _ _ h' => exact ih h'
    | free _ hname _ | enter _ hname | follow _ hname => exact absurd hstep hname.notUp
  | free hdir hname hfree =>
    intro k t' h'
    cases h' with
    | here _ hstep => exact absurd hstep hname.notHere
    | up _ hstep => exact absurd hstep hname.notUp
    | free => exact ⟨rfl, rfl⟩
    | enter _ _ e he => simp [hfree] at he
    | follow _ _ target he => simp [hfree] at he
  | enter hdir hname e he hlink _ ih =>
    intro k t' h'
    cases h' with
    | here _ hstep => exact absurd hstep hname.notHere
    | up _ hstep => exact absurd hstep hname.notUp
    | free _ _ hfree => simp [hfree] at he
    | enter _ _ _ _ _ h' => exact ih h'
    | follow _ _ target he' => exact absurd (Option.some.inj (he.symm.trans he')) (hlink target)
  | follow hdir hname target he htarget _ ih =>
    intro k t' h'
    cases h' with
    | here _ hstep => exact absurd hstep hname.notHere
    | up _ hstep => exact absurd hstep hname.notUp
    | free _ _ hfree => simp [hfree] at he
    | enter _ _ e he' hlink => exact absurd (Option.some.inj (he'.symm.trans he)) (hlink target)
    | follow _ _ target' he' _ h' =>
      cases he.symm.trans he'
      obtain ⟨rfl, rfl⟩ := ih h'
      exact ⟨rfl, rfl⟩

theorem Leads.append (h : w.Leads place names n (.found q)) (hrest : w.Leads q rest k t) :
    w.Leads place (names ++ rest) (n + k) t := by
  generalize ht : Target.found q = t' at h
  induction h with
  | done place =>
    cases ht
    simpa using hrest
  | here hdir hstep _ ih => exact .here hdir hstep (ih ht)
  | up hdir hstep _ ih => exact .up hdir hstep (ih ht)
  | free => cases ht
  | enter hdir hname e he hlink _ ih => exact .enter hdir hname e he hlink (ih ht)
  | follow hdir hname target he htarget _ ih =>
    have hway := ih ht
    rw [List.append_assoc] at hway
    have hfollow := Leads.follow hdir hname target he htarget hway
    rwa [Nat.add_right_comm] at hfollow

/-- The way of joined steps is the way of the first ones and then that of the others. -/
theorem Leads.split {first : List String} (hrest : rest ≠ [])
    (h : w.Leads place (first ++ rest) n t) :
    ∃ q m k, w.Leads place first m (.found q) ∧ w.Leads q rest k t ∧ n = m + k := by
  generalize hnames : first ++ rest = names at h
  -- the steps of a link's target are put before the rest, so the first part changes on the way
  induction h generalizing first with
  | done place => exact absurd (List.append_eq_nil_iff.1 hnames).2 hrest
  | @here place name names n t hdir hstep h ih =>
    cases first with
    | nil =>
      obtain rfl : rest = name :: names := hnames
      exact ⟨place, 0, n, .done place, .here hdir hstep h, by omega⟩
    | cons step first =>
      obtain ⟨rfl, htail⟩ := List.cons.inj hnames
      obtain ⟨q, m, k, hq, hk, rfl⟩ := ih htail
      exact ⟨q, m, k, .here hdir hstep hq, hk, rfl⟩
  | @up place name names n t hdir hstep h ih =>
    cases first with
    | nil =>
      obtain rfl : rest = name :: names := hnames
      exact ⟨place, 0, n, .done place, .up hdir hstep h, by omega⟩
    | cons step first =>
      obtain ⟨rfl, htail⟩ := List.cons.inj hnames
      obtain ⟨q, m, k, hq, hk, rfl⟩ := ih htail
      exact ⟨q, m, k, .up hdir hstep hq, hk, rfl⟩
  | @free place name hdir hname hfree =>
    cases first with
    | nil =>
      obtain rfl : rest = [name] := hnames
      exact ⟨place, 0, 0, .done place, .free hdir hname hfree, rfl⟩
    | cons step first =>
      exact absurd (List.append_eq_nil_iff.1 (List.cons.inj hnames).2).2 hrest
  | @enter place name names n t hdir hname e he hlink h ih =>
    cases first with
    | nil =>
      obtain rfl : rest = name :: names := hnames
      exact ⟨place, 0, n, .done place, .enter hdir hname e he hlink h, by omega⟩
    | cons step first =>
      obtain ⟨rfl, htail⟩ := List.cons.inj hnames
      obtain ⟨q, m, k, hq, hk, rfl⟩ := ih htail
      exact ⟨q, m, k, .enter hdir hname e he hlink hq, hk, rfl⟩
  | @follow place name names n t hdir hname target he htarget h ih =>
    cases first with
    | nil =>
      obtain rfl : rest = name :: names := hnames
      exact ⟨place, 0, n + 1, .done place, .follow hdir hname target he htarget h, by omega⟩
    | cons step first =>
      obtain ⟨rfl, htail⟩ := List.cons.inj hnames
      have hjoined : (steps target ++ first) ++ rest = steps target ++ names := by
        rw [List.append_assoc]
        exact congrArg (steps target ++ ·) htail
      obtain ⟨q, m, k, hq, hk, rfl⟩ := ih hjoined
      exact ⟨q, m + 1, k, .follow hdir hname target he htarget hq, hk, by omega⟩

/-- Nothing leads on from what is no directory. -/
theorem Leads.of_leaf (h : w.Leads place names n t) (hdir : w.isDirectoryAt place = false) :
    names = [] ∧ t = .found place := by
  cases h with
  | done => exact ⟨rfl, rfl⟩
  | here h | up h | free h | enter h | follow h => simp [hdir] at h

end AnalysisGate.Workspace
