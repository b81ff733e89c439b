import ReleaseRecovery.Proofs.LegacyChain
import ReleaseRecovery.Proofs.PlainAnswers
import ReleaseRecovery.Proofs.Stopping

/-!
# The writes of a plan

Which writes a plan comes to is known before the first of them: for every release a commit, if it is
planned without one, and a tag, and at last the branch. A run makes them one after the other. It
ends before the last one if it is asked to stop, which it heeds between two releases, or if a ref
points elsewhere. So whatever a run has written, it is how the whole list of writes begins.

## Main Definitions

* `Write`, `Memory.write` — one write, and what it does
* `Memory.takes`, `Memory.Conflicts` — whether it can be made, and what comes of it if not
* `Session.perform` — several writes
* `Memory.attempted` — the writes up to the first one that cannot be made
* `ReleasePlan.writes` — the writes of a plan
* `IsStopped`, `IsRefused` — what has been written where a run ended early
* `AccountsFor` — what a result says of what has been written

## Main Statements

* `performs_applyRelease`, `performs_applyReleases` — the writes of releases that were applied
* `refused_applyRelease`, `refused_applyReleases` — the writes of releases one of which was refused
* `applyPlan_performs` — what a run has written, and what its result says of that
* `applyPlan_writes_prefix` — a run that is asked to stop writes what every run writes first
* `applyPlan_reordered` — the order in which a plan lists its releases makes no difference
-/

namespace ReleaseRecovery

/-! ### Writes -/

/-- One write to a store. -/
inductive Write
  | commit (content : NewCommit)
  | tag (name : String) (target : CommitId)
  | branch (name : String) (target : CommitId)
deriving DecidableEq

namespace Write

/-- The request to the store. -/
def action : Write → Action
  | commit content => .createCommit content.tree
  | tag name _ => .createTag name
  | branch name _ => .createBranch name

/-- The ref that is written, by its full name, and the commit that it is to point at. -/
def ref? : Write → Option (String × CommitId)
  | commit _ => none
  | tag name target => some ("refs/tags/" ++ name, target)
  | branch name target => some ("refs/heads/" ++ name, target)

end Write

namespace Memory

/-- A store after a write. It is as it was if the ref points elsewhere. -/
def write (m : Memory) : Write → Memory
  | .commit content => (m.createCommit content).2
  | .tag name target => (m.writeRef ("refs/tags/" ++ name) target).2
  | .branch name target => (m.writeRef ("refs/heads/" ++ name) target).2

/-- A store takes a write unless the ref is there and points elsewhere. -/
def takes (m : Memory) (w : Write) : Bool :=
  w.ref?.all fun ref => (m.refs.get? ref.1).all fun existing => existing == ref.2

/-- A store refuses a write since the ref is there and points elsewhere, as the failure says. -/
def Conflicts (m : Memory) (w : Write) (e : Failure) : Prop :=
  ∃ name existing wanted, w.ref? = some (name, wanted) ∧ m.refs.get? name = some existing ∧
    existing ≠ wanted ∧ e = .refConflict name existing wanted

/-- A store takes all of some writes, one after the other. -/
def TakesAll (m : Memory) : List Write → Prop
  | [] => True
  | w :: ws => m.takes w = true ∧ (m.write w).TakesAll ws

/-- The writes up to the first one that the store does not take, and this one as well. -/
def attempted (m : Memory) : List Write → List Write
  | [] => []
  | w :: ws => w :: if m.takes w then (m.write w).attempted ws else []

end Memory

/-- A session after some writes, if nothing else is done. Each of them is noted, whether the store
has taken it or not. -/
def Session.perform (s : Session Memory) (ws : List Write) : Session Memory :=
  ⟨ws.foldl Memory.write s.repo, (ws.map Write.action).reverse ++ s.done⟩

section Writes

variable {m : Memory} {s : Session Memory} {w : Write} {ws ws' : List Write}

theorem Session.perform_append (s : Session Memory) (ws ws' : List Write) :
    s.perform (ws ++ ws') = (s.perform ws).perform ws' := by
  simp [perform]

theorem Session.unpolled_perform (s : Session Memory) (ws : List Write) :
    unpolled (s.perform ws).done = (ws.map Write.action).reverse ++ unpolled s.done := by
  rw [perform, unpolled_append, unpolled_of_forall]
  intro action hmem
  obtain ⟨w, -, rfl⟩ := List.mem_map.1 (List.mem_reverse.1 hmem)
  cases w <;> nofun

/-- To look at the request to stop makes no difference to the writes. -/
theorem Session.Alike.perform {s' : Session Memory} (h : s.Alike s') (ws : List Write) :
    (s.perform ws).Alike (s'.perform ws) := by
  refine ⟨congrArg (ws.foldl Memory.write) h.repo_eq, ?_⟩
  rw [Session.unpolled_perform, Session.unpolled_perform, h.unpolled_eq]

namespace Memory

theorem takesAll_append :
    m.TakesAll (ws ++ ws') ↔ m.TakesAll ws ∧ (ws.foldl write m).TakesAll ws' := by
  induction ws generalizing m with
  | nil => exact (and_iff_right trivial).symm
  | cons w ws ih =>
    rw [List.cons_append, TakesAll, TakesAll, ih, and_assoc]
    rfl

/-- What the store takes is attempted, and then the rest, from the store as it is by then. -/
theorem attempted_append (h : m.TakesAll ws) :
    m.attempted (ws ++ ws') = ws ++ (ws.foldl write m).attempted ws' := by
  induction ws generalizing m with
  | nil => rfl
  | cons w ws ih =>
    obtain ⟨htakes, hrest⟩ := h
    rw [List.cons_append, attempted, if_pos htakes, ih hrest]
    rfl

theorem attempted_of_takesAll (h : m.TakesAll ws) : m.attempted ws = ws := by
  have hall : m.attempted (ws ++ []) = ws ++ [] := attempted_append h
  rwa [List.append_nil] at hall

variable {name : String} {target : CommitId}

theorem takes_of_ok {u : RefUpdate} (hw : w.ref? = some (name, target))
    (h : (m.writeRef name target).1 = .ok u) : m.takes w = true := by
  rw [takes, hw, Option.all_some]
  cases hget : m.refs.get? name with
  | none => rfl
  | some existing =>
    by_cases he : existing = target
    · exact beq_iff_eq.2 he
    · rw [writeRef_of_ne he hget] at h
      cases h

theorem conflicts_of_error {e : Failure} (hw : w.ref? = some (name, target))
    (h : (m.writeRef name target).1 = .error e) : m.Conflicts w e := by
  obtain ⟨existing, hget, hne, rfl⟩ := writeRef_eq_error_iff.1 h
  exact ⟨name, existing, target, hw, hget, hne, rfl⟩

theorem Conflicts.takes_eq_false {e : Failure} (h : m.Conflicts w e) : m.takes w = false := by
  obtain ⟨name, existing, wanted, hw, hget, hne, -⟩ := h
  rw [takes, hw, Option.all_some, hget, Option.all_some]
  exact beq_false_of_ne hne

/-- A write that is refused leaves the store as it is. -/
theorem Conflicts.write_eq {e : Failure} (h : m.Conflicts w e) : m.write w = m := by
  obtain ⟨name, existing, wanted, hw, hget, hne, -⟩ := h
  cases w with
  | commit content => cases hw
  | tag tagName target =>
    obtain ⟨rfl, rfl⟩ := Prod.mk.inj (Option.some.inj hw)
    rw [write, writeRef_of_ne hne hget]
  | branch branchName target =>
    obtain ⟨rfl, rfl⟩ := Prod.mk.inj (Option.some.inj hw)
    rw [write, writeRef_of_ne hne hget]

end Memory

end Writes

/-- Of some writes one was refused, the first one that could not be made. -/
structure IsRefused (s : Session Memory) (ws : List Write) (e : Failure) (earlier : List Write)
    (w : Write) : Prop where
  begins : earlier ++ [w] <+: ws
  taken : s.repo.TakesAll earlier
  conflict : (s.perform earlier).repo.Conflicts w e
  unchanged : (s.perform (earlier ++ [w])).repo = (s.perform earlier).repo

section Refused

variable {s : Session Memory} {ws ws' earlier : List Write} {w : Write} {e : Failure}

/-- Where a write is refused, nothing more is tried. -/
theorem IsRefused.attempted_eq (h : IsRefused s ws e earlier w) :
    s.repo.attempted ws = earlier ++ [w] := by
  obtain ⟨later, rfl⟩ := h.begins
  have htakes := h.conflict.takes_eq_false
  rw [List.append_assoc, Memory.attempted_append h.taken, List.singleton_append, Memory.attempted]
  show earlier ++ w :: (if (s.perform earlier).repo.takes w then _ else []) = _
  rw [htakes]
  rfl

/-- Which write is refused depends on the store alone. -/
theorem IsRefused.congr {s' : Session Memory} (h : IsRefused s ws e earlier w)
    (hrepo : s.repo = s'.repo) : IsRefused s' ws e earlier w where
  begins := h.begins
  taken := hrepo ▸ h.taken
  conflict := by
    have hconflict := h.conflict
    rwa [Session.perform, hrepo] at hconflict
  unchanged := by
    have hunchanged := h.unchanged
    rwa [Session.perform, Session.perform, hrepo] at hunchanged

/-- What follows a refused write does not matter. -/
theorem IsRefused.append (h : IsRefused s ws e earlier w) (ws' : List Write) :
    IsRefused s (ws ++ ws') e earlier w :=
  { h with begins := h.begins.trans (List.prefix_append ws ws') }

/-- What comes before a refused write has been made. -/
theorem IsRefused.behind (hws : s.repo.TakesAll ws) (h : IsRefused (s.perform ws) ws' e earlier w) :
    IsRefused s (ws ++ ws') e (ws ++ earlier) w where
  begins := by
    rw [List.append_assoc]
    exact (List.prefix_append_right_inj ws).2 h.begins
  taken := Memory.takesAll_append.2 ⟨hws, h.taken⟩
  conflict := by
    rw [s.perform_append]
    exact h.conflict
  unchanged := by
    rw [List.append_assoc, s.perform_append, s.perform_append]
    exact h.unchanged

/-- The only write that there is may be refused. -/
theorem isRefused_singleton (h : s.repo.Conflicts w e) : IsRefused s [w] e [] w where
  begins := List.prefix_rfl
  taken := trivial
  conflict := h
  unchanged := h.write_eq

end Refused

/-! ### The writes of releases -/

section Releases

variable (options : ApplyOptions)

/-- The writes for a release, and the last commit that has been made by then. -/
def writesOf (m : Memory) (last : Option CommitId) (r : PlannedRelease) :
    List Write × Option CommitId :=
  let name := options.tagName r.version
  match r.trunkCommit with
  | some commit => ([.tag name commit], last)
  | none =>
    let draft := r.draft options last
    let commit := (m.createCommit draft).1
    ([.commit draft, .tag name commit], some commit)

/-- The writes for some releases, and the last commit that has been made by then. -/
def writesFor (m : Memory) (last : Option CommitId) :
    List PlannedRelease → List Write × Option CommitId
  | [] => ([], last)
  | r :: rest =>
    let first := writesOf options m last r
    let others := writesFor (first.1.foldl Memory.write m) first.2 rest
    (first.1 ++ others.1, others.2)

/-- The writes of a plan: those for its releases, by ascending version, and then the branch if a
commit was made. -/
def ReleasePlan.writes (plan : ReleasePlan) (m : Memory) : List Write :=
  let releases := writesFor options m none plan.ordered
  releases.1 ++ releases.2.toList.map (Write.branch options.legacyBranch)

variable {options}

/-- The writes for the first releases come first. -/
theorem writesFor_take_prefix (m : Memory) (last : Option CommitId) (l : List PlannedRelease)
    (k : Nat) : (writesFor options m last (l.take k)).1 <+: (writesFor options m last l).1 := by
  induction l generalizing m last k with
  | nil => cases k <;> exact List.prefix_rfl
  | cons r l ih =>
    cases k with
    | zero => exact List.nil_prefix
    | succ k =>
      rw [List.take_succ_cons, writesFor, writesFor]
      exact (List.prefix_append_right_inj _).2 (ih _ _ k)

/-- No branch is written for a release. -/
theorem ne_branch_of_mem_writesFor {m : Memory} {last : Option CommitId} {l : List PlannedRelease}
    {w : Write} (h : w ∈ (writesFor options m last l).1) (name : String) (target : CommitId) :
    w ≠ .branch name target := by
  induction l generalizing m last with
  | nil => cases h
  | cons r l ih =>
    rcases List.mem_append.1 h with h | h
    · rintro rfl
      unfold writesOf at h
      cases htrunk : r.trunkCommit <;> simp [htrunk] at h
    · exact ih h

variable {interrupt : Interrupt} {total : Nat} {p p' : Progress} {r : PlannedRelease}
  {l : List PlannedRelease} {s s' : Session Memory} {e : Failure}

/-- Once the commit of a release has been found or made, only the tag is left to be written. -/
theorem performs_commitFor (options : ApplyOptions) (last : Option CommitId) (r : PlannedRelease)
    (s : Session Memory) :
    ∃ ws commit, (commitFor options last r).after s = (.ok commit, s.perform ws) ∧
      s.repo.TakesAll ws ∧
      writesOf options s.repo last r = (ws ++ [.tag (options.tagName r.version) commit],
        if r.trunkCommit.isSome then last else some commit) := by
  unfold commitFor writesOf
  cases r.trunkCommit with
  | some commit => exact ⟨[], commit, rfl, trivial, rfl⟩
  | none => exact ⟨[.commit (r.draft options last)], _, rfl, ⟨rfl, trivial⟩, rfl⟩

/-- A release that was applied was written, and all of that was taken. -/
theorem performs_applyRelease
    (h : (applyRelease options interrupt total p r).after s = (.ok p', s')) :
    s.repo.TakesAll (writesOf options s.repo p.last r).1 ∧
      s'.Alike (s.perform (writesOf options s.repo p.last r).1) ∧
      p'.last = (writesOf options s.repo p.last r).2 := by
  obtain ⟨commit, s₁, update, hcommit, htag, rfl⟩ := applyRelease_eq_ok h
  obtain ⟨ws, commit, hfor, htaken, hwrites⟩ := performs_commitFor options p.last r s.polled
  rw [hfor] at hcommit
  obtain ⟨⟨⟩, rfl⟩ := Prod.mk.inj hcommit
  rw [Memory.after_createTag] at htag
  obtain ⟨hresult, rfl⟩ := Prod.mk.inj htag
  rw [Session.repo_polled] at htaken hwrites
  rw [hwrites]
  refine ⟨Memory.takesAll_append.2 ⟨htaken, Memory.takes_of_ok rfl hresult, trivial⟩, ?_, ?_⟩
  · rw [s.perform_append]
    exact (s.alike_polled.perform ws).perform [.tag (options.tagName r.version) commit]
  · unfold Progress.add
    split <;> rfl

/-- Releases that were applied were written, and all of that was taken. -/
theorem performs_applyReleases
    (h : (l.foldlM (applyRelease options interrupt total) p).after s = (.ok p', s')) :
    s.repo.TakesAll (writesFor options s.repo p.last l).1 ∧
      s'.Alike (s.perform (writesFor options s.repo p.last l).1) ∧
      p'.last = (writesFor options s.repo p.last l).2 := by
  induction l generalizing p s with
  | nil =>
    obtain ⟨⟨⟩, rfl⟩ := Prod.mk.inj h
    exact ⟨trivial, .refl s, rfl⟩
  | cons r l ih =>
    rw [List.foldlM_cons] at h
    obtain ⟨p₁, s₁, hfirst, hrest⟩ := Writing.after_bind_eq_ok_iff.1 h
    obtain ⟨htaken, halike, hlast⟩ := performs_applyRelease hfirst
    obtain ⟨htaken', halike', hlast'⟩ := ih hrest
    rw [halike.repo_eq, hlast] at htaken' halike' hlast'
    refine ⟨Memory.takesAll_append.2 ⟨htaken, htaken'⟩, halike'.trans ?_, hlast'⟩
    rw [writesFor, s.perform_append]
    exact halike.perform _

/-- A release that was not applied was not begun, or it was refused. -/
theorem refused_applyRelease
    (h : (applyRelease options interrupt total p r).after s = (.error e, s')) :
    (∃ completed remaining, e = .interrupted .apply completed remaining) ∨
      ∃ earlier w, IsRefused s (writesOf options s.repo p.last r).1 e earlier w ∧
        s'.Alike (s.perform (earlier ++ [w])) := by
  rw [applyRelease_eq, Writing.after_unlessRaised_bind] at h
  split at h
  · obtain ⟨⟨⟩, -⟩ := Prod.mk.inj h
    exact .inl ⟨_, _, rfl⟩
  obtain ⟨ws, commit, hfor, htaken, hwrites⟩ := performs_commitFor options p.last r s.polled
  rw [Writing.after_bind_of_ok hfor] at h
  rcases Writing.after_bind_eq_error_iff.1 h with htag | ⟨_, _, -, hnone⟩
  · rw [Memory.after_createTag] at htag
    obtain ⟨hresult, rfl⟩ := Prod.mk.inj htag
    -- A commit that was made stays.
    have hrefused := isRefused_singleton (w := .tag _ _) (Memory.conflicts_of_error rfl hresult)
    rw [Session.repo_polled] at hwrites
    rw [hwrites]
    refine .inr ⟨_, _, (hrefused.behind htaken).congr s.repo_polled, ?_⟩
    rw [List.append_nil, s.perform_append]
    exact (s.alike_polled.perform ws).perform [.tag (options.tagName r.version) commit]
  · cases hnone

/-- Of releases that were not all applied one was not begun, or it was refused. -/
theorem refused_applyReleases
    (h : (l.foldlM (applyRelease options interrupt total) p).after s = (.error e, s')) :
    (∃ completed remaining, e = .interrupted .apply completed remaining) ∨
      ∃ earlier w, IsRefused s (writesFor options s.repo p.last l).1 e earlier w ∧
        s'.Alike (s.perform (earlier ++ [w])) := by
  induction l generalizing p s with
  | nil => cases h
  | cons r l ih =>
    rw [List.foldlM_cons] at h
    rcases Writing.after_bind_eq_error_iff.1 h with hfirst | ⟨p₁, s₁, hfirst, hrest⟩
    · refine (refused_applyRelease hfirst).imp_right ?_
      rintro ⟨earlier, w, hrefused, halike⟩
      exact ⟨earlier, w, hrefused.append _, halike⟩
    · obtain ⟨htaken, halike, hlast⟩ := performs_applyRelease hfirst
      refine (ih hrest).imp_right ?_
      rintro ⟨earlier, w, hrefused, halike'⟩
      rw [halike.repo_eq, hlast] at hrefused
      refine ⟨_, w, (hrefused.congr halike.repo_eq).behind htaken, halike'.trans ?_⟩
      rw [List.append_assoc, s.perform_append]
      exact halike.perform _

/-- A branch that was written was taken. -/
theorem performs_applyBranch {branch : Option RefOutcome}
    (h : (applyBranch options interrupt total p).after s = (.ok branch, s')) :
    s.repo.TakesAll (p.last.toList.map (Write.branch options.legacyBranch)) ∧
      s'.Alike (s.perform (p.last.toList.map (Write.branch options.legacyBranch))) := by
  rcases applyBranch_eq_ok h with ⟨hlast, -, rfl⟩ | ⟨commit, update, hlast, hbranch, -⟩
  · rw [hlast]
    exact ⟨trivial, .refl s'⟩
  · rw [Memory.after_createBranch] at hbranch
    obtain ⟨hresult, rfl⟩ := Prod.mk.inj hbranch
    rw [hlast]
    exact ⟨⟨Memory.takes_of_ok rfl hresult, trivial⟩,
      s.alike_polled.perform [.branch options.legacyBranch commit]⟩

/-- A branch that was not written was not begun, or it was refused. -/
theorem refused_applyBranch
    (h : (applyBranch options interrupt total p).after s = (.error e, s')) :
    (∃ completed remaining, e = .interrupted .apply completed remaining) ∨
      ∃ earlier w, IsRefused s (p.last.toList.map (Write.branch options.legacyBranch)) e earlier w ∧
        s'.Alike (s.perform (earlier ++ [w])) := by
  unfold applyBranch at h
  cases hlast : p.last with
  | none =>
    rw [hlast] at h
    cases h
  | some commit =>
    rw [hlast] at h
    dsimp only at h
    rw [Writing.after_unlessRaised_bind] at h
    split at h
    · obtain ⟨⟨⟩, -⟩ := Prod.mk.inj h
      exact .inl ⟨_, _, rfl⟩
    rcases Writing.after_bind_eq_error_iff.1 h with hbranch | ⟨_, _, -, hnone⟩
    · rw [Memory.after_createBranch] at hbranch
      obtain ⟨hresult, rfl⟩ := Prod.mk.inj hbranch
      have hconflict := Memory.conflicts_of_error (w := .branch _ _) rfl hresult
      exact .inr ⟨[], _, isRefused_singleton hconflict,
        s.alike_polled.perform [.branch options.legacyBranch commit]⟩
    · cases hnone

end Releases

/-! ### The writes of a plan -/

/-- What has been written where a run was stopped: its first releases, and nothing else. -/
structure IsStopped (options : ApplyOptions) (plan : ReleasePlan) (s : Session Memory)
    (performed : List Write) (completed remaining : Nat) : Prop where
  count : completed + remaining = plan.releases.length
  writes : performed = (writesFor options s.repo none (plan.ordered.take completed)).1
  taken : s.repo.TakesAll performed
  fits : ∃ made p,
    Fits options (plan.ordered.take completed) s.repo made p (s.perform performed)
  noBranch : ∀ name target, .branch name target ∉ performed

/-- What the result of a plan says of what has been written. -/
def AccountsFor (options : ApplyOptions) (plan : ReleasePlan) (s : Session Memory)
    (performed : List Write) : Except Failure ApplyReport → Prop
  | .ok _ => performed = plan.writes options s.repo ∧ s.repo.TakesAll performed
  | .error (.interrupted .apply completed remaining) =>
    IsStopped options plan s performed completed remaining
  | .error (.refConflict name existing wanted) => ∃ earlier w, performed = earlier ++ [w] ∧
    IsRefused s (plan.writes options s.repo) (.refConflict name existing wanted) earlier w
  | .error _ => False

section Plan

variable {options : ApplyOptions} {interrupt : Interrupt} {plan : ReleasePlan}
  {s s' : Session Memory}

theorem performs_applyPlan {report : ApplyReport}
    (h : (applyPlan options interrupt plan).after s = (.ok report, s')) :
    s.repo.TakesAll (plan.writes options s.repo) ∧
      s'.Alike (s.perform (plan.writes options s.repo)) := by
  obtain ⟨p, s₁, branch, hreleases, hbranch, rfl⟩ := applyPlan_eq_ok h
  obtain ⟨htaken, halike, hlast⟩ := performs_applyReleases hreleases
  obtain ⟨htaken', halike'⟩ := performs_applyBranch hbranch
  rw [halike.repo_eq, hlast] at htaken'
  rw [hlast] at halike'
  refine ⟨Memory.takesAll_append.2 ⟨htaken, htaken'⟩, halike'.trans ?_⟩
  rw [ReleasePlan.writes, s.perform_append]
  exact halike.perform _

theorem refused_applyPlan {e : Failure}
    (h : (applyPlan options interrupt plan).after s = (.error e, s')) :
    (∃ completed remaining, e = .interrupted .apply completed remaining) ∨
      ∃ earlier w, IsRefused s (plan.writes options s.repo) e earlier w ∧
        s'.Alike (s.perform (earlier ++ [w])) := by
  unfold applyPlan at h
  rcases Writing.after_bind_eq_error_iff.1 h with hreleases | ⟨p, s₁, hreleases, hrest⟩
  · refine (refused_applyReleases hreleases).imp_right ?_
    rintro ⟨earlier, w, hrefused, halike⟩
    exact ⟨earlier, w, hrefused.append _, halike⟩
  obtain ⟨htaken, halike, hlast⟩ := performs_applyReleases hreleases
  rcases Writing.after_bind_eq_error_iff.1 hrest with hbranch | ⟨_, _, -, hnone⟩
  · refine (refused_applyBranch hbranch).imp_right ?_
    rintro ⟨earlier, w, hrefused, halike'⟩
    rw [hlast] at hrefused
    refine ⟨_, w, (hrefused.congr halike.repo_eq).behind htaken, halike'.trans ?_⟩
    rw [List.append_assoc, s.perform_append]
    exact halike.perform _
  · cases hnone

/-- Where a run was stopped, its first releases have been written. -/
theorem stopped_applyPlan {completed remaining : Nat}
    (h : (applyPlan options interrupt plan).after s =
      (.error (.interrupted .apply completed remaining), s')) :
    interrupt.StopsAt s'.done ∧
      ∃ performed, IsStopped options plan s performed completed remaining ∧
        s'.Alike (s.perform performed) := by
  rcases interrupted_applyPlan h with ⟨hle, rfl, p, s₁, hreleases, hraised, rfl⟩ | hrefusal
  · obtain ⟨made, hfits⟩ := fits_applyReleases hreleases
    obtain ⟨htaken, halike, -⟩ := performs_applyReleases hreleases
    refine ⟨⟨_, rfl, hraised⟩, _, ⟨?_, rfl, htaken, ?_, ?_⟩, s₁.alike_polled.trans halike⟩
    · rw [Nat.add_sub_cancel' hle, ReleasePlan.ordered, List.length_mergeSort]
    · exact ⟨made, p, hfits.tagged, halike.repo_eq ▸ hfits.gains⟩
    · intro name target hmem
      exact ne_branch_of_mem_writesFor hmem name target rfl
  · exact absurd hrefusal (Memory.answersPlainly.not_isRefusal rfl)

/-- What a run has written, and what its result says of that. -/
theorem applyPlan_performs (options : ApplyOptions) (interrupt : Interrupt) (plan : ReleasePlan)
    (s : Session Memory) :
    ∃ performed, ((applyPlan options interrupt plan).after s).2.Alike (s.perform performed) ∧
      AccountsFor options plan s performed ((applyPlan options interrupt plan).after s).1 := by
  rcases h : (applyPlan options interrupt plan).after s with ⟨e | report, s'⟩
  · rcases refused_applyPlan h with ⟨completed, remaining, rfl⟩ | ⟨earlier, w, hrefused, hs'⟩
    · obtain ⟨-, performed, hstopped, hs'⟩ := stopped_applyPlan h
      exact ⟨performed, hs', hstopped⟩
    · obtain ⟨name, existing, wanted, -, -, -, rfl⟩ := hrefused.conflict
      exact ⟨_, hs', earlier, w, rfl, hrefused⟩
  · obtain ⟨htaken, hs'⟩ := performs_applyPlan h
    exact ⟨_, hs', rfl, htaken⟩

/-- What has been written is how the attempted writes begin. -/
theorem AccountsFor.isPrefix {performed : List Write} {result : Except Failure ApplyReport}
    (h : AccountsFor options plan s performed result) :
    performed <+: s.repo.attempted (plan.writes options s.repo) := by
  unfold AccountsFor at h
  split at h
  · refine ⟨[], ?_⟩
    rw [List.append_nil, ← h.1, Memory.attempted_of_takesAll h.2]
  · rename_i completed _
    have hfirst : performed <+: (writesFor options s.repo none plan.ordered).1 := by
      rw [h.writes]
      exact writesFor_take_prefix s.repo none plan.ordered completed
    obtain ⟨later, hlater⟩ := hfirst
    rw [ReleasePlan.writes, ← hlater, List.append_assoc, Memory.attempted_append h.taken]
    exact List.prefix_append _ _
  · obtain ⟨earlier, w, rfl, hrefused⟩ := h
    refine ⟨[], ?_⟩
    rw [List.append_nil, hrefused.attempted_eq]
  · exact absurd h not_false

/-- A run that is never asked to stop attempts all writes, up to the first that is refused. -/
theorem applyPlan_never (options : ApplyOptions) (plan : ReleasePlan) (s : Session Memory) :
    ((applyPlan options .never plan).after s).2.Alike
      (s.perform (s.repo.attempted (plan.writes options s.repo))) := by
  rcases h : (applyPlan options .never plan).after s with ⟨e | report, s'⟩
  · rcases refused_applyPlan h with ⟨completed, remaining, rfl⟩ | ⟨earlier, w, hrefused, hs'⟩
    · obtain ⟨⟨_, -, hraised⟩, -⟩ := stopped_applyPlan h
      cases hraised
    · rw [hrefused.attempted_eq]
      exact hs'
  · obtain ⟨htaken, hs'⟩ := performs_applyPlan h
    rw [Memory.attempted_of_takesAll htaken]
    exact hs'

/-- A run that is never asked to stop attempts all writes, up to the first that is refused. Any
other run has written what comes first among these, and its result says how much of it. Apart from
that a run only looks at the request to stop. -/
theorem applyPlan_writes_prefix (options : ApplyOptions) (interrupt : Interrupt)
    (plan : ReleasePlan) (s : Session Memory) :
    ((applyPlan options .never plan).after s).2.Alike
        (s.perform (s.repo.attempted (plan.writes options s.repo))) ∧
      ∃ performed, performed <+: s.repo.attempted (plan.writes options s.repo) ∧
        ((applyPlan options interrupt plan).after s).2.Alike (s.perform performed) ∧
        AccountsFor options plan s performed ((applyPlan options interrupt plan).after s).1 := by
  obtain ⟨performed, hs', haccounts⟩ := applyPlan_performs options interrupt plan s
  exact ⟨applyPlan_never options plan s, performed, haccounts.isPrefix, hs', haccounts⟩

end Plan

/-! ### The order of a plan -/

section Reordered

variable {plan : ReleasePlan} {releases : List PlannedRelease}
  (hdistinct : plan.releases.Pairwise fun a b => a.version ≠ b.version)
  (hperm : releases.Perm plan.releases)

include hperm

/-- Whether a version is released does not depend on the order. -/
theorem skipped_of_perm : ReleasePlan.skipped { plan with releases } = plan.skipped := by
  refine List.map_congr_left fun u _ => ?_
  rw [hperm.any_eq]

include hdistinct

/-- Releases of different versions have one ascending order. -/
theorem ordered_of_perm : ReleasePlan.ordered { plan with releases } = plan.ordered :=
  Version.mergeSort_eq_of_perm PlannedRelease.version hdistinct hperm

/-- In whatever order a plan lists releases of different versions, it comes to the same on every
store; and on a store in memory by the same writes, which the result accounts for. -/
theorem applyPlan_reordered (options : ApplyOptions) (interrupt : Interrupt) :
    (∀ (ρ : Type) [Repository ρ] (s : Session ρ),
        (applyPlan options interrupt { plan with releases }).after s =
          (applyPlan options interrupt plan).after s) ∧
      ∀ s : Session Memory, ∃ result s' performed,
        (applyPlan options interrupt { plan with releases }).after s = (result, s') ∧
        (applyPlan options interrupt plan).after s = (result, s') ∧
        s'.Alike (s.perform performed) ∧ AccountsFor options plan s performed result := by
  have hsame (ρ : Type) [Repository ρ] :
      (applyPlan options interrupt { plan with releases } : Writing ρ ApplyReport) =
        applyPlan options interrupt plan := by
    unfold applyPlan
    rw [ordered_of_perm hdistinct hperm, skipped_of_perm hperm]
  refine ⟨fun ρ _ s => congrArg (Writing.after · s) (hsame ρ), fun s => ?_⟩
  obtain ⟨performed, halike, haccounts⟩ := applyPlan_performs options interrupt plan s
  refine ⟨_, _, performed, ?_, Prod.ext rfl rfl, halike, haccounts⟩
  rw [hsame]
  exact Prod.ext rfl rfl

end Reordered

/-- Two lost releases and one of the reference line, the latest first. -/
def backwards : ReleasePlan where
  releases := [⟨⟨[1, 10]⟩, "svn/tags/v1.10/", "T3", none⟩,
    ⟨⟨[1, 9]⟩, "svn/tags/v1.9/", "T2", some "C2"⟩, ⟨⟨[1, 0]⟩, "svn/tags/v1.0/", "T1", none⟩]
  unresolved := [⟨⟨[1, 9]⟩, "svn/tags/v01.9/", .emptyHistory, []⟩]

/-- Asked to stop while the commit of the earliest release is made, a run still tags it. -/
theorem applyPlan_reordered_backwards :
    let options : ApplyOptions := ⟨"", "legacy", ⟨"Recovery", "recovery@example.com"⟩, 0⟩
    let forwards := { backwards with releases := backwards.releases.reverse }
    let start : Session Memory := ⟨.empty, []⟩
    ∃ s' performed,
      (applyPlan options (.after (.createCommit "T1")) forwards).after start =
        (.error (.interrupted .apply 1 2), s') ∧
      (applyPlan options (.after (.createCommit "T1")) backwards).after start =
        (.error (.interrupted .apply 1 2), s') ∧
      s'.Alike (start.perform performed) ∧
      performed.map Write.action = [.createCommit "T1", .createTag "v1.0"] := by
  intro options forwards start
  have hdistinct : backwards.releases.Pairwise fun a b => a.version ≠ b.version := by decide
  obtain ⟨result, s', performed, hforwards, hbackwards, halike, -⟩ :=
    (applyPlan_reordered hdistinct (List.reverse_perm _) options
      (.after (.createCommit "T1"))).2 start
  have hordered : backwards.ordered = backwards.releases.reverse :=
    (Version.isStableSort_mergeSort _ _).unique ⟨by decide, by decide, by decide⟩
  have hresult : ((applyPlan options (.after (.createCommit "T1")) backwards).after start).1 =
      .error (.interrupted .apply 1 2) := by
    simp only [applyPlan, hordered]
    decide +kernel
  have hdone : ((applyPlan options (.after (.createCommit "T1")) backwards).after start).2.done =
      [.poll, .createTag "v1.0", .createCommit "T1", .poll] := by
    simp only [applyPlan, hordered]
    decide +kernel
  rw [hbackwards] at hresult hdone
  obtain rfl : result = _ := hresult
  refine ⟨s', performed, hforwards, hbackwards, halike, List.reverse_injective ?_⟩
  have hactions := halike.unpolled_eq
  rw [hdone, start.unpolled_perform, unpolled_nil, List.append_nil] at hactions
  exact hactions.symm

end ReleaseRecovery
