import Mathlib.Data.List.Sort
import ReleaseRecovery.Proofs.Applying
import ReleaseRecovery.Proofs.Filling
import ReleaseRecovery.Proofs.GitWriting

/-!
# Names that are read and names that are written

Refs are read by short names and written by full names. A new ref gets in the way of reading if it
is listed itself, or if it has a name that was looked for in vain when a short name was resolved.

## Main Definitions

* `ApplyReport.newRefs` — the full names of the refs that are reported as new
* `Git.Store.Undisturbed` — the same names are listed, and stand for the same
* `Git.Store.Apart` — new refs do not get in the way of reading

## Main Statements

* `Git.Store.adds_applyPlan` — an applied plan has added objects, the refs that it reports as new,
  and logs
* `Git.Store.undisturbed_of_apart` — reading is undisturbed by new refs that are apart from it
-/

namespace ReleaseRecovery

/-! ### New refs -/

/-- The full names, in normal form, of those among some refs that are reported as new. -/
def newRefs (start : String) (refs : List RefOutcome) : List String :=
  refs.filterMap fun t => if t.created then Git.RefName.normal? (start ++ t.name) else none

/-- The full names, in normal form, of the refs that are reported as new. -/
def ApplyReport.newRefs (report : ApplyReport) : List String :=
  ReleaseRecovery.newRefs "refs/tags/" report.tags ++
    ReleaseRecovery.newRefs "refs/heads/" report.legacyBranch.toList

theorem newRefs_append (start : String) (refs refs' : List RefOutcome) :
    newRefs start (refs ++ refs') = newRefs start refs ++ newRefs start refs' :=
  List.filterMap_append

theorem mem_newRefs {start name full : String} {commit : CommitId} {update : RefUpdate}
    (h : update = .created ∧ Git.RefName.normal? (start ++ name) = some full) :
    full ∈ newRefs start [⟨name, commit, update == .created⟩] := by
  obtain ⟨rfl, hfull⟩ := h
  exact List.mem_filterMap.2 ⟨_, List.mem_singleton_self _, hfull⟩

namespace Git

/-- Whether a name leads to a ref or to nothing: it is not the place of a log or of an object, and
none of its parts is too long for a file. -/
def RefName.isClear (name : String) : Bool :=
  !isBelow "logs" name && !isBelow "objects" name && (Path.parts name).all isShort

namespace Store

variable {s t : Store} {layout : Layout} {new : List String}

section Applying

variable {options : ApplyOptions} {interrupt : Interrupt} {total : Nat} {a b : Session Store}

theorem adds_commitFor {names : String → Prop} {last : Option CommitId} {r : PlannedRelease}
    {commit : CommitId} (h : (commitFor options last r).after a = (.ok commit, b)) :
    Adds names a.repo b.repo := by
  unfold commitFor at h
  split at h
  · obtain rfl : a = b := (Prod.mk.inj h).2
    exact .refl a.repo
  · obtain ⟨hresult, rfl⟩ := Prod.mk.inj h
    exact adds_createCommit (Prod.ext hresult rfl)

/-- Applying a release adds no ref but its tag, if that is reported as new. -/
theorem adds_applyRelease {p p' : Progress} {r : PlannedRelease}
    (h : (applyRelease options interrupt total p r).after a = (.ok p', b)) :
    ∃ tag, p'.tags = p.tags ++ [tag] ∧ Adds (· ∈ newRefs "refs/tags/" [tag]) a.repo b.repo := by
  obtain ⟨commit, a', update, hcommit, htag, rfl⟩ := applyRelease_eq_ok h
  obtain ⟨hresult, rfl⟩ := Prod.mk.inj htag
  refine ⟨_, p.tags_add .., (adds_commitFor hcommit).trans ?_⟩
  exact (adds_writeRef (Prod.ext hresult rfl)).mono fun full => mem_newRefs

/-- A plan that was applied has added objects, the refs that are reported as new, and logs. -/
theorem adds_applyPlan {plan : ReleasePlan} {report : ApplyReport}
    (h : (applyPlan options interrupt plan).after a = (.ok report, b)) :
    Adds (· ∈ report.newRefs) a.repo b.repo := by
  obtain ⟨p, a', branch, hreleases, hbranch, rfl⟩ := applyPlan_eq_ok h
  have htags : Adds (· ∈ newRefs "refs/tags/" p.tags) a.repo a'.repo := by
    refine Writing.foldlM_invariant (P := fun _ (p : Progress) (a' : Session Store) =>
      Adds (· ∈ newRefs "refs/tags/" p.tags) a.repo a'.repo) ?_ (.refl a.repo) hreleases
    intro done r p a' p' a'' hadds hstep
    obtain ⟨tag, htags, hadds'⟩ := adds_applyRelease hstep
    rw [htags, newRefs_append]
    refine (hadds.mono fun full hfull => ?_).trans (hadds'.mono fun full hfull => ?_)
    · exact List.mem_append_left _ hfull
    · exact List.mem_append_right _ hfull
  refine (htags.mono fun full hfull => List.mem_append_left _ hfull).trans ?_
  rcases applyBranch_eq_ok hbranch with ⟨-, -, rfl⟩ | ⟨commit, update, -, hplaced, rfl⟩
  · exact .refl _
  · obtain ⟨hresult, rfl⟩ := Prod.mk.inj hplaced
    refine (adds_writeRef (Prod.ext hresult rfl)).mono fun full hfull => ?_
    exact List.mem_append_right _ (mem_newRefs hfull)

end Applying

/-! ### Reading by name -/

/-- For whoever collects histories, two stores have the same refs: the same names are listed, and
these and the reference line stand for the same objects. -/
structure Undisturbed (layout : Layout) (s t : Store) : Prop where
  shortNames_eq : t.shortNames layout.start = s.shortNames layout.start
  resolve_eq : ∀ name ∈ layout.reference :: s.shortNames layout.start,
    t.resolve name = s.resolve name

variable {names : String → Prop}

/-- A name under which nothing was found is still without anything once other refs have been
added. -/
theorem Adds.lookUp_missing (h : Adds names s t) {name : String}
    (hclear : RefName.isClear name = true) (hname : ¬ names name)
    (hs : s.lookUp name = .error .missing) :
    t.lookUp name = .error .missing := by
  rw [RefName.isClear, Bool.and_eq_true, Bool.and_eq_true, Bool.not_eq_true', Bool.not_eq_true']
    at hclear
  obtain ⟨⟨hlogs, hobjects⟩, hshort⟩ := hclear
  have hget : t.refs.get? name = none := by
    cases htarget : t.refs.get? name with
    | none => rfl
    | some target =>
      rcases h.added name target htarget with hold | ⟨hnew, -⟩
      · rw [lookUp_eq_ok_iff.2 hold] at hs
        cases hs
      · exact absurd hnew hname
  have hfile : t.holdsFile name = false := by
    have hs' : s.holdsFile name = false := by
      unfold lookUp at hs
      split at hs
      · cases hs
      · split at hs
        · cases hs
        · rename_i hnone
          exact (Bool.or_eq_false_iff.1 (Bool.eq_false_iff.2 hnone)).1
    rw [holdsFile, hobjects, Bool.false_and, Bool.or_false] at hs' ⊢
    rw [Bool.eq_false_iff, ne_eq, List.contains_iff_mem, List.mem_append] at hs' ⊢
    rintro (hfirst | hother)
    · exact hs' (.inl hfirst)
    · rcases h.others name hother with hold | hlog
      · exact hs' (.inr hold)
      · exact absurd hlog (by rw [hlogs]; exact Bool.false_ne_true)
  have hbars : t.bars name = false := by
    rw [bars, hshort]
    rfl
  rw [lookUp, hget, hfile, hbars]
  rfl

theorem follow_succ (s : Store) (room : Nat) (next : String) :
    s.follow (room + 1) (.ref next) = (s.lookUp next >>= s.follow room) := by
  rw [follow]
  cases s.lookUp next <;> rfl

/-- A name that leads to nothing through other refs leads to nothing after that if the last of the
names is still missing. -/
theorem Within.follow_missing (h : Within s t) {room : Nat} {name : String}
    (hlast : ∀ last, s.lastName? room name = some last → s.lookUp last = .error .missing →
      t.lookUp last = .error .missing)
    (hs : (s.lookUp name >>= s.follow room) = .error .missing) :
    (t.lookUp name >>= t.follow room) = .error .missing := by
  induction room generalizing name with
  | zero =>
    rcases bind_eq_error_iff.1 hs with hmissing | ⟨target, htarget, hs⟩
    · refine bind_eq_error_iff.2 (.inl (hlast name ?_ hmissing))
      rw [lastName?, hmissing]
    · cases target <;> cases hs
  | succ room ih =>
    rcases bind_eq_error_iff.1 hs with hmissing | ⟨target, htarget, hs⟩
    · refine bind_eq_error_iff.2 (.inl (hlast name ?_ hmissing))
      rw [lastName?, hmissing]
    cases target with
    | object id => cases hs
    | ref next =>
      refine bind_eq_error_iff.2 (.inr ⟨.ref next, h.lookUp name _ htarget, ?_⟩)
      rw [follow_succ] at hs ⊢
      refine ih (fun last hnext => hlast last ?_) hs
      rw [lastName?, htarget]
      exact hnext

/-- A short name that stands for an object still does if the names before it that lead to nothing
still do. -/
theorem Within.firstOf (h : Within s t) {candidates : List String} {last : NoObject} {id : Id}
    (hmissing : ∀ full ∈ candidates, s.followName full = .error .missing →
      t.followName full = .error .missing)
    (hs : s.firstOf last candidates = .ok id) : t.firstOf last candidates = .ok id := by
  induction candidates generalizing last with
  | nil => cases hs
  | cons full rest ih =>
    have ih : ∀ {last}, s.firstOf last rest = .ok id → t.firstOf last rest = .ok id :=
      ih fun full' hfull' => hmissing full' (List.mem_cons_of_mem full hfull')
    unfold Store.firstOf at hs ⊢
    split at hs
    · rename_i hvalid
      rw [if_pos hvalid]
      exact ih hs
    rename_i hvalid
    rw [if_neg hvalid]
    split at hs
    · cases hs
    rename_i hfits
    rw [if_neg hfits]
    cases hfull : s.followName full with
    | ok id' =>
      rw [hfull] at hs
      rw [h.followName full id' hfull]
      exact hs
    | error e =>
      rw [hfull] at hs
      cases e with
      | broken => cases hs
      | missing =>
        rw [hmissing full List.mem_cons_self hfull]
        exact ih hs

/-! ### Listing -/

theorem mem_shortNames_iff {start name : String} :
    name ∈ s.shortNames start ↔ name.startsWith start = true ∧
      ∃ full id, s.refs.get? full = some (.object id) ∧ RefName.isBelow "refs" full = true ∧
        RefName.short full = name := by
  rw [shortNames, List.mem_filter, and_comm, ← ascendingDistinct, mem_ascendingDistinct_iff,
    List.mem_map]
  simp only [List.mem_filter, listed, Prod.exists, ← SortedMap.get?_eq_some_iff]
  refine and_congr_right fun _ => exists_congr fun full => ?_
  constructor
  · rintro ⟨target, ⟨⟨hget, hbelow⟩, hdirect⟩, hname⟩
    cases target with
    | object id => exact ⟨id, hget, hbelow, hname⟩
    | ref next => cases hdirect
  · rintro ⟨id, hget, hbelow, hname⟩
    exact ⟨.object id, ⟨⟨hget, hbelow⟩, rfl⟩, hname⟩

theorem ascending_shortNames (s : Store) (start : String) :
    (s.shortNames start).Pairwise (· < ·) := by
  rw [shortNames]
  exact (SortedMap.ascending_keys _).filter _

/-- New refs do not get in the way of reading: none of them is listed under a name that was not
there, and none of them has a name that a short name was looked for under. The names that lead to
nothing are clear of whatever else is written. -/
structure Apart (layout : Layout) (new : List String) (s : Store) : Prop where
  unlisted : ∀ full ∈ new, (RefName.short full).startsWith layout.start = true →
    RefName.short full ∈ s.shortNames layout.start
  unread : ∀ name ∈ layout.reference :: s.shortNames layout.start,
    ∀ full ∈ RefName.candidates name, ∀ last ∈ s.lastName? maxRefs full,
      s.refs.get? last = none → last ∉ new ∧ RefName.isClear last = true

/-- Reading is undisturbed by new refs that are apart from it. -/
theorem undisturbed_of_apart (apart : Apart layout new s) (h : Adds (· ∈ new) s t)
    (hresolve : ∀ name ∈ layout.reference :: s.shortNames layout.start,
      ∃ id, s.resolve name = .ok id) : Undisturbed layout s t := by
  refine ⟨?_, fun name hname => ?_⟩
  · have irrefl : Std.Irrefl fun a b : String => a < b := ⟨String.lt_irrefl⟩
    refine (t.ascending_shortNames _).eq_of_mem_iff (s.ascending_shortNames _) fun name => ?_
    constructor
    · intro hname
      obtain ⟨hstart, full, id, hget, hbelow, rfl⟩ := mem_shortNames_iff.1 hname
      rcases h.added full _ hget with hold | ⟨hnew, -⟩
      · exact mem_shortNames_iff.2 ⟨hstart, full, id, hold, hbelow, rfl⟩
      · exact apart.unlisted full hnew hstart
    · intro hname
      obtain ⟨hstart, full, id, hget, hbelow, rfl⟩ := mem_shortNames_iff.1 hname
      exact mem_shortNames_iff.2 ⟨hstart, full, id, h.refs _ _ hget, hbelow, rfl⟩
  · obtain ⟨id, hid⟩ := hresolve name hname
    rw [hid]
    refine h.toWithin.firstOf (fun full hfull hmissing => ?_) hid
    refine h.toWithin.follow_missing (fun last hlast hlook => ?_) hmissing
    have habsent : s.refs.get? last = none := by
      cases hget : s.refs.get? last with
      | none => rfl
      | some target =>
        rw [lookUp_eq_ok_iff.2 hget] at hlook
        cases hlook
    obtain ⟨hnew, hclear⟩ := apart.unread name hname full hfull last hlast habsent
    exact h.lookUp_missing hclear hnew hlook

end Store

end Git

end ReleaseRecovery
