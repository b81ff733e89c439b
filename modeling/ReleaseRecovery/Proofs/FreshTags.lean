import Mathlib.Data.List.Nodup
import ReleaseRecovery.Proofs.Applying
import ReleaseRecovery.Proofs.AscendingPlans
import ReleaseRecovery.Proofs.Soundness

/-!
# Plans do not stand in their own way

A plan names every tag once, and no tag like the branch. So a store in memory that has none of these
refs takes the whole plan: every ref that is written is a new one.

## Main Statements

* `nodup_tagNames` — a plan names every tag once
* `applyRelease_of_absent` — a release whose tag is not there yet gets a new one
* `applyReleases_of_absent` — so does every release of a list
* `applyPlan_of_absent` — so does every release of a plan, and the branch is new as well
* `crossReference_applies` — a plan that was made from an index never conflicts with itself
-/

namespace ReleaseRecovery

section Names

variable {options : ApplyOptions}

/-- Releases of different versions have different tags. -/
theorem tagName_inj {v w : Version} : options.tagName v = options.tagName w ↔ v = w := by
  refine ⟨fun h => Version.text_inj.1 ?_, fun h => h ▸ rfl⟩
  exact (String.append_right_inj options.tagStart).1 h

theorem tagRef_inj {a b : PlannedRelease} :
    options.tagRef a = options.tagRef b ↔ a.version = b.version := by
  rw [ApplyOptions.tagRef, ApplyOptions.tagRef, String.append_right_inj, tagName_inj]

/-- A list that releases every version once names every tag once. -/
theorem nodup_tagNames {l : List PlannedRelease}
    (h : l.Pairwise fun a b => a.version ≠ b.version) :
    (l.map fun r => options.tagName r.version).Nodup := by
  refine List.pairwise_map.2 (h.imp ?_)
  intro a b hne heq
  exact hne (tagName_inj.1 heq)

end Names

/-! ### New refs -/

section Absent

variable {options : ApplyOptions}

/-- A ref that is not there is made. -/
theorem Memory.writeRef_of_absent {m : Memory} {name : String} (h : m.refs.get? name = none)
    (target : CommitId) :
    m.writeRef name target = (.ok .created, { m with refs := m.refs.insert name target }) := by
  rw [writeRef_eq_place, place_of_none h]

theorem Memory.createTag_of_absent {name : String} {s : Session Memory}
    (h : s.repo.refs.get? ("refs/tags/" ++ name) = none) (target : CommitId) :
    ∃ s', (Writing.createTag name target).after s = (.ok .created, s') ∧
      s'.repo.refs = s.repo.refs.insert ("refs/tags/" ++ name) target := by
  rw [after_createTag, writeRef_of_absent h]
  exact ⟨_, rfl, rfl⟩

theorem Memory.createBranch_of_absent {name : String} {s : Session Memory}
    (h : s.repo.refs.get? ("refs/heads/" ++ name) = none) (target : CommitId) :
    ∃ s', (Writing.createBranch name target).after s = (.ok .created, s') := by
  rw [after_createBranch, writeRef_of_absent h]
  exact ⟨_, rfl⟩

/-- A release whose tag is not there yet gets a new one, and no other ref is touched. -/
theorem applyRelease_of_absent (total : Nat) (p : Progress) {r : PlannedRelease}
    {s : Session Memory} (h : s.repo.refs.get? (options.tagRef r) = none) :
    ∃ commit s', (applyRelease options .never total p r).after s =
        (.ok (p.add options r commit .created), s') ∧
      s'.repo.refs = s.repo.refs.insert (options.tagRef r) commit := by
  obtain ⟨commit, s₁, hcommit, hrefs, -⟩ := Memory.after_commitFor options p.last r s.polled
  rw [Session.repo_polled] at hrefs
  rw [← hrefs] at h ⊢
  obtain ⟨s₂, htag, hinsert⟩ := Memory.createTag_of_absent h commit
  refine ⟨commit, s₂, ?_, hinsert⟩
  rw [applyRelease_eq, Writing.after_bind_of_ok (Writing.after_unlessRaised_never _ s),
    Writing.after_bind_of_ok hcommit, Writing.after_bind_of_ok htag, Writing.after_pure]

/-- If none of their tags is there yet, releases of different versions all get new ones. -/
theorem applyReleases_of_absent (total : Nat) {l : List PlannedRelease}
    (hdistinct : l.Pairwise fun a b => a.version ≠ b.version) (p : Progress) (s : Session Memory)
    (h : ∀ r ∈ l, s.repo.refs.get? (options.tagRef r) = none) :
    ∃ p' s', (l.foldlM (applyRelease options .never total) p).after s = (.ok p', s') ∧
      p'.tags.map (fun t => (t.name, t.created)) =
        p.tags.map (fun t => (t.name, t.created)) ++
          l.map (fun r => (options.tagName r.version, true)) ∧
      ∀ name, (∀ r ∈ l, name ≠ options.tagRef r) →
        s'.repo.refs.get? name = s.repo.refs.get? name := by
  induction l generalizing p s with
  | nil => exact ⟨p, s, rfl, (List.append_nil _).symm, fun _ _ => rfl⟩
  | cons r l ih =>
    rw [List.pairwise_cons] at hdistinct
    obtain ⟨commit, s₁, hfirst, hrefs⟩ := applyRelease_of_absent total p (h r List.mem_cons_self)
    -- The tags of the other releases are still missing, since none of them is this one's.
    have habsent : ∀ r' ∈ l, s₁.repo.refs.get? (options.tagRef r') = none := by
      intro r' hr'
      have hne : options.tagRef r' ≠ options.tagRef r := fun heq =>
        hdistinct.1 r' hr' (tagRef_inj.1 heq).symm
      rw [hrefs, SortedMap.get?_insert, if_neg hne]
      exact h r' (List.mem_cons_of_mem r hr')
    obtain ⟨p', s', hrest, htags, hother⟩ :=
      ih hdistinct.2 (p.add options r commit .created) s₁ habsent
    refine ⟨p', s', ?_, ?_, ?_⟩
    · rw [List.foldlM_cons, Writing.after_bind_of_ok hfirst, hrest]
    · rw [htags, Progress.tags_add, List.map_append, List.append_assoc]
      rfl
    · intro name hname
      rw [hother name fun r' hr' => hname r' (List.mem_cons_of_mem r hr'), hrefs,
        SortedMap.get?_insert, if_neg (hname r List.mem_cons_self)]

/-- The branch is made if it is to be written and not there yet. -/
theorem applyBranch_of_absent (total : Nat) (p : Progress) {s : Session Memory}
    (h : s.repo.refs.get? options.branchRef = none) :
    ∃ branch s', (applyBranch options .never total p).after s = (.ok branch, s') ∧
      ∀ b ∈ branch, b.created = true := by
  unfold applyBranch
  cases p.last with
  | none => exact ⟨none, s, rfl, nofun⟩
  | some commit =>
    obtain ⟨s₁, hbranch⟩ := Memory.createBranch_of_absent (s := s.polled) h commit
    refine ⟨some ⟨options.legacyBranch, commit, true⟩, s₁, ?_, by simp⟩
    rw [Writing.after_bind_of_ok (Writing.after_unlessRaised_never _ s),
      Writing.after_bind_of_ok hbranch]
    rfl

/-- A store that has no ref of a plan takes the whole plan, and every ref is new. -/
theorem applyPlan_of_absent (options : ApplyOptions) {plan : ReleasePlan}
    (horder : plan.ordered = plan.releases)
    (hdistinct : plan.releases.Pairwise fun a b => a.version ≠ b.version) (s : Session Memory)
    (htags : ∀ r ∈ plan.releases, s.repo.refs.get? (options.tagRef r) = none)
    (hbranch : s.repo.refs.get? options.branchRef = none) :
    ∃ report s', (applyPlan options .never plan).after s = (.ok report, s') ∧
      report.tags.map (fun t => (t.name, t.created)) =
        plan.releases.map (fun r => (options.tagName r.version, true)) ∧
      ∀ b ∈ report.legacyBranch, b.created = true := by
  obtain ⟨p, s₁, hreleases, hcreated, hother⟩ :=
    applyReleases_of_absent plan.releases.length hdistinct .start s htags
  have habsent : s₁.repo.refs.get? options.branchRef = none := by
    rw [hother options.branchRef fun r _ => (tagRef_ne_branchRef options r).symm, hbranch]
  obtain ⟨branch, s₂, hafter, hnew⟩ :=
    applyBranch_of_absent plan.releases.length p habsent
  refine ⟨⟨p.tags, p.synthesized, branch, plan.skipped⟩, s₂, ?_, ?_, hnew⟩
  · unfold applyPlan
    rw [horder, Writing.after_bind_of_ok hreleases, Writing.after_bind_of_ok hafter,
      Writing.after_pure]
  · rw [hcreated]
    rfl

end Absent

section Plan

variable {index : ContentIndex} {reference : String} {x : CrossReference}

theorem ascending_of_crossReference (h : crossReference index reference = .ok x) :
    x.plan.releases.Pairwise fun a b => a.version < b.version := by
  obtain ⟨trunk, -, -, hplan⟩ := crossReference_eq_ok_iff.1 h
  rw [hplan]
  exact ascending_releases

theorem ordered_of_crossReference (h : crossReference index reference = .ok x) :
    x.plan.ordered = x.plan.releases := by
  obtain ⟨trunk, -, -, hplan⟩ := crossReference_eq_ok_iff.1 h
  rw [hplan]
  exact ordered_resolveReleases

end Plan

/-- A plan that was made from an index lists versions, and what it leaves to decide, in strictly
ascending order. So it names every tag once, and a store in memory that has none of these tags and
not the branch takes the whole plan: every tag is a new one. -/
theorem crossReference_applies {index : ContentIndex} {reference : String} {x : CrossReference}
    (h : crossReference index reference = .ok x) :
    x.plan.releases.Pairwise (fun a b => a.version < b.version) ∧
      x.plan.unresolved.Pairwise UnresolvedRelease.Before ∧
      ∀ options : ApplyOptions,
        (x.plan.releases.map fun r => options.tagName r.version).Nodup ∧
        ∀ s : Session Memory,
          (∀ r ∈ x.plan.releases, s.repo.refs.get? (options.tagRef r) = none) →
          s.repo.refs.get? options.branchRef = none →
          ∃ report s', (applyPlan options .never x.plan).after s = (.ok report, s') ∧
            report.tags.map (fun t => (t.name, t.created)) =
              x.plan.releases.map (fun r => (options.tagName r.version, true)) ∧
            ∀ b ∈ report.legacyBranch, b.created = true := by
  have hascending := ascending_of_crossReference h
  have hunresolved : x.plan.unresolved.Pairwise UnresolvedRelease.Before := by
    obtain ⟨trunk, -, -, hplan⟩ := crossReference_eq_ok_iff.1 h
    rw [hplan]
    exact ascending_unresolved
  have hdistinct := hascending.imp Version.ne_of_lt
  refine ⟨hascending, hunresolved, fun options => ⟨nodup_tagNames hdistinct, ?_⟩⟩
  intro s htags hbranch
  exact applyPlan_of_absent options (ordered_of_crossReference h) hdistinct s htags hbranch

/-- One release under two spellings, one whose content the reference line never had, and one that
has to be left to decide. -/
def respelled : ContentIndex where
  histories := .ofList [("svn/tags", ["G2", "G1"]), ("svn/trunk", ["C1"])]
  records := .ofList
    [("C1", ⟨.ofList [("/", "T1")], .empty⟩),
      ("G1", ⟨.ofList [("/v01.2/", "T1"), ("/v1.10/", "T9"), ("/v1.2/", "T1"), ("/v3.0/", "T7")],
        .empty⟩),
      ("G2", ⟨.ofList [("/v3.0/", "T8")], .empty⟩)]

theorem crossReference_applies_respelled :
    ∃ x, crossReference respelled "svn/trunk" = .ok x ∧
      x.plan.releases = [⟨⟨[1, 2]⟩, "svn/tags/v01.2/", "T1", some "C1"⟩,
        ⟨⟨[1, 10]⟩, "svn/tags/v1.10/", "T9", none⟩] ∧
      x.plan.unresolved.Pairwise UnresolvedRelease.Before ∧
      ∃ report s', (applyPlan ⟨"release-", "legacy", ⟨"Recovery", "recovery@example.com"⟩, 0⟩ .never
          x.plan).after ⟨Memory.empty, []⟩ = (.ok report, s') ∧
        report.tags.map (fun t => (t.name, t.created)) =
          [("release-v1.2", true), ("release-v1.10", true)] ∧
        ∀ b ∈ report.legacyBranch, b.created = true := by
  let trunk : SortedMap CommitId := .ofList [("T1", "C1")]
  let subs : SortedMap Subhistory := .ofList
    [("svn/tags/v01.2/", ⟨["T1"], some "C1", some "C1"⟩),
      ("svn/tags/v1.10/", ⟨["T9"], none, none⟩), ("svn/tags/v1.2/", ⟨["T1"], some "C1", some "C1"⟩),
      ("svn/tags/v3.0/", ⟨["T8", "T7"], none, none⟩)]
  have hx : crossReference respelled "svn/trunk" = .ok ⟨subs, resolveReleases subs trunk⟩ :=
    crossReference_eq_ok_iff.2 ⟨trunk, by decide +kernel, by decide +kernel, rfl⟩
  have hversions : ((copies subs).map (·.version)).eraseDups =
      [⟨[1, 2]⟩, ⟨[1, 10]⟩, ⟨[3, 0]⟩] := by decide +kernel
  have hreleases : (resolveReleases subs trunk).releases =
      [⟨⟨[1, 2]⟩, "svn/tags/v01.2/", "T1", some "C1"⟩,
        ⟨⟨[1, 10]⟩, "svn/tags/v1.10/", "T9", none⟩] := by
    rw [releases_of_versions hversions (by decide)]
    decide +kernel
  obtain ⟨-, hunresolved, happlies⟩ := crossReference_applies hx
  obtain ⟨report, s', hafter, htags, hbranch⟩ :=
    (happlies ⟨"release-", "legacy", ⟨"Recovery", "recovery@example.com"⟩, 0⟩).2 ⟨Memory.empty, []⟩
      (fun _ _ => rfl) rfl
  refine ⟨_, hx, hreleases, hunresolved, report, s', hafter, ?_, hbranch⟩
  rw [htags, hreleases]
  decide +kernel

end ReleaseRecovery
