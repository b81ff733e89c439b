import Mathlib.Data.List.Forall2
import ReleaseRecovery.Proofs.Applying
import ReleaseRecovery.Proofs.Versions

/-!
# What an applied plan leaves

The releases of a plan are applied by ascending version. Every one of them gets a tag. For those
that are planned without a commit one is made, and these commits form a chain that passes over the
other releases. So what is left in the store is determined by the plan and by what was there: some
commits behind those that the store had, and some refs.

## Main Definitions

* `IsChain` — commits that were made one after the other
* `Tagged` — what has come of some releases
* `Memory.Gains` — what exactly a store in memory has got
* `Fits` — both, for the releases that have been applied so far
* `IsEffect` — what a plan that was applied has left, and what is reported of it

## Main Statements

* `fits_applyRelease` — what one release adds
* `fits_applyReleases` — what has come of releases that were applied one after the other
* `isEffect_applyPlan` — a plan that was applied has its effect, all of it and nothing else
-/

namespace ReleaseRecovery

/-- A release is planned without a commit, so one is made for it. -/
def PlannedRelease.isLost (r : PlannedRelease) : Bool := r.trunkCommit.isNone

/-- Commits were made one after the other, each as the child of the one before it, and the first of
them without a parent. The next one is to be made as the child of `last`. -/
def IsChain (made : List WrittenCommit) (last : Option CommitId) : Prop :=
  made.map (·.content.parent) ++ [last] = none :: made.map fun w => some w.id

namespace RefOutcome

/-- The full name and the target of a tag. -/
def asTag (t : RefOutcome) : String × CommitId := ("refs/tags/" ++ t.name, t.commit)

/-- The full name and the target of a branch. -/
def asBranch (t : RefOutcome) : String × CommitId := ("refs/heads/" ++ t.name, t.commit)

end RefOutcome

/-- Tags are new if they were not there when they were written: neither among the refs that there
were before, nor among the tags that were written earlier. -/
def AreNewWhereAbsent (old : SortedMap CommitId) (tags : List RefOutcome) : Prop :=
  ∀ earlier t later, tags = earlier ++ t :: later → (t.created = true ↔
    old.get? ("refs/tags/" ++ t.name) = none ∧ ∀ t' ∈ earlier, t'.name ≠ t.name)

/-- What has come of some releases that were applied in this order, where the refs of the store were
`old` before. -/
structure Tagged (options : ApplyOptions) (releases : List PlannedRelease)
    (old : SortedMap CommitId) (made : List WrittenCommit) (p : Progress) : Prop where
  /-- One commit was made for each release that was planned without one. -/
  commits : List.Forall₂ (fun r w => w.content = ⟨r.tree, w.content.parent,
      "Legacy release " ++ r.version.text, options.identity, options.time⟩)
    (releases.filter PlannedRelease.isLost) made
  chain : IsChain made p.last
  synthesized : p.synthesized =
    List.zipWith (fun r w => ⟨r.version, w.id, r.tree, w.content.parent⟩)
      (releases.filter PlannedRelease.isLost) made
  /-- Each release has a tag, which points at the planned commit if there is one. -/
  tags : List.Forall₂ (fun r t => t.name = options.tagStart ++ r.version.text ∧
    ∀ c, r.trunkCommit = some c → t.commit = c) releases p.tags
  /-- The tags of the other releases point at the commits that were made for them. -/
  targets : ((releases.zip p.tags).filter fun x => x.1.isLost).map (fun x => x.2.commit) =
    made.map (·.id)
  created : AreNewWhereAbsent old p.tags

/-- A store in memory has got certain commits, behind those that it had, and certain refs, and
nothing else. -/
structure Memory.Gains (before after : Memory) (made : List WrittenCommit)
    (placed : List (String × CommitId)) : Prop where
  store : after = { before with written := before.written ++ made, refs := after.refs }
  refs : ∀ name c, after.refs.get? name = some c ↔
    before.refs.get? name = some c ∨ (name, c) ∈ placed

/-- What a plan that was applied has left in a store in memory, and what is reported of it. -/
structure IsEffect (options : ApplyOptions) (plan : ReleasePlan) (before after : Memory)
    (made : List WrittenCommit) (report : ApplyReport) : Prop where
  /-- The releases were applied by ascending version. -/
  order : Version.IsStableSort PlannedRelease.version plan.releases plan.ordered
  tagged : Tagged options plan.ordered before.refs made
    ⟨report.tags, report.synthesized, made.getLast?.map (·.id)⟩
  gains : before.Gains after made (report.tags.map RefOutcome.asTag ++
    report.legacyBranch.toList.map RefOutcome.asBranch)
  /-- The branch is written if a commit was made, and points at the last one. -/
  branch : report.legacyBranch.map (fun b => (b.name, b.commit)) =
    made.getLast?.map fun w => (options.legacyBranch, w.id)
  branchCreated : ∀ b ∈ report.legacyBranch,
    (b.created = true ↔ before.refs.get? ("refs/heads/" ++ b.name) = none)
  /-- Every copy that is left to decide is reported, and whether another one was tagged. -/
  skipped : List.Forall₂ (fun u x => x.version = u.version ∧ x.source = u.source ∧
      (x.tagged = true ↔ ∃ r ∈ plan.releases, r.version = u.version))
    plan.unresolved report.skipped

/-! ### Chains -/

section Chains

variable {made : List WrittenCommit} {last : Option CommitId} {w : WrittenCommit}

theorem IsChain.nil : IsChain [] none := rfl

theorem IsChain.concat (h : IsChain made last) (hw : w.content.parent = last) :
    IsChain (made ++ [w]) (some w.id) := by
  unfold IsChain at h ⊢
  rw [List.map_append, List.map_singleton, hw, h, List.map_append, List.map_singleton]
  rfl

/-- The next commit is made as the child of the last one. -/
theorem IsChain.last_eq (h : IsChain made last) : last = made.getLast?.map (·.id) := by
  have hlast := congrArg List.getLast? h
  rw [List.getLast?_concat, List.getLast?_cons, List.getLast?_map, Option.some.injEq] at hlast
  rw [hlast]
  cases made.getLast? <;> rfl

end Chains

/-! ### What a store has got -/

namespace Memory

variable {a b c : Memory} {made made' : List WrittenCommit}
  {placed placed' : List (String × CommitId)}

theorem Gains.refl (m : Memory) : Gains m m [] [] := by
  refine ⟨?_, fun name c => ?_⟩
  · rw [List.append_nil]
  · simp

theorem Gains.trans (h : Gains a b made placed) (h' : Gains b c made' placed') :
    Gains a c (made ++ made') (placed ++ placed') := by
  refine ⟨?_, fun name target => ?_⟩
  · rw [h'.store, h.store, List.append_assoc]
  · rw [h'.refs, h.refs, List.mem_append, or_assoc]

/-- A ref is not there if it was not there and is not among the new ones. -/
theorem Gains.get?_eq_none_iff (h : Gains a b made placed) {name : String} :
    b.refs.get? name = none ↔ a.refs.get? name = none ∧ ∀ x ∈ placed, x.1 ≠ name := by
  simp only [Option.eq_none_iff_forall_ne_some, ne_eq, h.refs, not_or, forall_and]
  refine and_congr_right fun _ => ⟨?_, ?_⟩
  · rintro hnone x hx rfl
    exact hnone x.2 hx
  · intro hne c hc
    exact hne (name, c) hc rfl

theorem gains_createCommit (m : Memory) (content : NewCommit) :
    Gains m (m.createCommit content).2 [⟨(m.createCommit content).1, content⟩] [] :=
  ⟨rfl, fun _ _ => by simp [createCommit]⟩

/-- A ref that was written is there, and is new if it was not there. -/
theorem gains_writeRef {m : Memory} {name : String} {target : CommitId} {u : RefUpdate}
    (h : (m.writeRef name target).1 = .ok u) :
    Gains m (m.writeRef name target).2 [] [(name, target)] ∧
      (u = .created ↔ m.refs.get? name = none) := by
  rw [writeRef_eq_place] at h ⊢
  cases hget : m.refs.get? name with
  | none =>
    rw [place_of_none hget] at h ⊢
    cases h
    refine ⟨⟨?_, fun key c => ?_⟩, by simp⟩
    · rw [List.append_nil]
    · rw [SortedMap.get?_insert, List.mem_singleton, Prod.mk.injEq]
      by_cases hkey : key = name
      · simp [hkey, hget, eq_comm]
      · simp [hkey]
  | some existing =>
    by_cases he : existing = target
    · subst he
      rw [place_of_some hget] at h ⊢
      cases h
      refine ⟨⟨?_, fun key c => ?_⟩, by simp⟩
      · rw [List.append_nil]
      · rw [List.mem_singleton, Prod.mk.injEq]
        refine ⟨.inl, ?_⟩
        rintro (hold | ⟨rfl, rfl⟩)
        · exact hold
        · exact hget
    · rw [place_of_ne hget he] at h
      cases h

end Memory

/-! ### One release -/

section Releases

variable {options : ApplyOptions} {interrupt : Interrupt} {total : Nat}
  {releases : List PlannedRelease} {old : SortedMap CommitId} {before : Memory}
  {made : List WrittenCommit} {tags : List RefOutcome} {t : RefOutcome} {p p' : Progress}
  {r : PlannedRelease} {s s' : Session Memory}

theorem AreNewWhereAbsent.concat (h : AreNewWhereAbsent old tags)
    (ht : t.created = true ↔
      old.get? ("refs/tags/" ++ t.name) = none ∧ ∀ t' ∈ tags, t'.name ≠ t.name) :
    AreNewWhereAbsent old (tags ++ [t]) := by
  intro earlier x later hsplit
  rcases List.eq_nil_or_concat later with rfl | ⟨later, y, rfl⟩
  · obtain ⟨rfl, hx⟩ := List.append_inj' hsplit rfl
    obtain rfl := (List.cons.inj hx).1
    exact ht
  · have hsplit' : tags ++ [t] = (earlier ++ x :: later) ++ [y] := by simpa using hsplit
    exact h earlier x later (List.append_inj' hsplit' rfl).1

theorem Tagged.start (options : ApplyOptions) (old : SortedMap CommitId) :
    Tagged options [] old [] .start where
  commits := .nil
  chain := .nil
  synthesized := rfl
  tags := .nil
  targets := rfl
  created earlier t later h := by cases earlier <;> cases h

theorem filter_zip_concat (h : Tagged options releases old made p) (r : PlannedRelease)
    (t : RefOutcome) :
    (((releases ++ [r]).zip (p.tags ++ [t])).filter fun x => x.1.isLost).map (fun x => x.2.commit) =
      made.map (·.id) ++ if r.isLost then [t.commit] else [] := by
  rw [List.zip_append h.tags.length_eq, List.filter_append, List.map_append, h.targets]
  cases hr : r.isLost <;> simp [hr]

/-- A release was tagged at the commit that was planned for it. -/
theorem Tagged.concat_planned (h : Tagged options releases old made p)
    (hr : r.trunkCommit = some t.commit) (hname : t.name = options.tagName r.version)
    (hnew : t.created = true ↔
      old.get? ("refs/tags/" ++ t.name) = none ∧ ∀ t' ∈ p.tags, t'.name ≠ t.name) :
    Tagged options (releases ++ [r]) old made { p with tags := p.tags ++ [t] } := by
  have hlost : r.isLost = false := by rw [PlannedRelease.isLost, hr]; rfl
  have hfilter : (releases ++ [r]).filter PlannedRelease.isLost =
      releases.filter PlannedRelease.isLost := by
    rw [List.filter_append, List.filter_singleton, hlost]
    exact List.append_nil _
  constructor
  case commits => rw [hfilter]; exact h.commits
  case chain => exact h.chain
  case synthesized => rw [hfilter]; exact h.synthesized
  case tags =>
    refine List.rel_append h.tags (.cons ⟨hname, fun c hc => ?_⟩ .nil)
    exact Option.some.inj (hr.symm.trans hc)
  case targets =>
    rw [filter_zip_concat h r t, hlost]
    exact List.append_nil _
  case created => exact h.created.concat hnew

/-- A release was tagged at the commit that was made for it. -/
theorem Tagged.concat_made (h : Tagged options releases old made p) (hr : r.trunkCommit = none)
    {w : WrittenCommit} (hw : w.content = r.draft options p.last) (ht : t.commit = w.id)
    (hname : t.name = options.tagName r.version)
    (hnew : t.created = true ↔
      old.get? ("refs/tags/" ++ t.name) = none ∧ ∀ t' ∈ p.tags, t'.name ≠ t.name) :
    Tagged options (releases ++ [r]) old (made ++ [w])
      ⟨p.tags ++ [t], p.synthesized ++ [⟨r.version, w.id, r.tree, p.last⟩], some w.id⟩ := by
  have hlost : r.isLost = true := by rw [PlannedRelease.isLost, hr]; rfl
  have hfilter : (releases ++ [r]).filter PlannedRelease.isLost =
      releases.filter PlannedRelease.isLost ++ [r] := by
    rw [List.filter_append, List.filter_singleton, hlost]
    rfl
  have hparent : w.content.parent = p.last := by rw [hw]; rfl
  constructor
  case commits =>
    rw [hfilter]
    refine List.rel_append h.commits (.cons ?_ .nil)
    rw [hw]
    rfl
  case chain => exact h.chain.concat hparent
  case synthesized =>
    rw [hfilter, List.zipWith_append h.commits.length_eq, ← h.synthesized, List.zipWith_cons_cons,
      hparent]
    rfl
  case tags =>
    refine List.rel_append h.tags (.cons ⟨hname, fun c hc => ?_⟩ .nil)
    rw [hr] at hc
    cases hc
  case targets =>
    rw [filter_zip_concat h r t, hlost, List.map_append, ht]
    rfl
  case created => exact h.created.concat hnew

/-- The commit of a release is the planned one, or is made. -/
theorem gains_commitFor {last : Option CommitId} {commit : CommitId}
    (h : (commitFor options last r).after s = (.ok commit, s')) :
    (r.trunkCommit = some commit ∧ s = s') ∨
      (r.trunkCommit = none ∧ s.repo.Gains s'.repo [⟨commit, r.draft options last⟩] []) := by
  unfold commitFor at h
  cases htrunk : r.trunkCommit with
  | some planned =>
    rw [htrunk] at h
    obtain ⟨⟨⟩, rfl⟩ := Prod.mk.inj h
    exact .inl ⟨rfl, rfl⟩
  | none =>
    rw [htrunk] at h
    obtain ⟨⟨⟩, rfl⟩ := Prod.mk.inj h
    exact .inr ⟨rfl, Memory.gains_createCommit s.repo _⟩

/-- What has come of some releases so far, in a store that was `before` at first. -/
structure Fits (options : ApplyOptions) (releases : List PlannedRelease) (before : Memory)
    (made : List WrittenCommit) (p : Progress) (s : Session Memory) : Prop where
  tagged : Tagged options releases before.refs made p
  gains : before.Gains s.repo made (p.tags.map RefOutcome.asTag)

/-- What one release adds: a tag, and a commit if one had to be made. -/
theorem fits_applyRelease (h : Fits options releases before made p s)
    (hstep : (applyRelease options interrupt total p r).after s = (.ok p', s')) :
    ∃ more, Fits options (releases ++ [r]) before (made ++ more) p' s' := by
  obtain ⟨commit, s₁, update, hcommit, htag, rfl⟩ := applyRelease_eq_ok hstep
  rw [Memory.after_createTag] at htag
  obtain ⟨hresult, rfl⟩ := Prod.mk.inj htag
  obtain ⟨hplaced, hnew⟩ := Memory.gains_writeRef hresult
  -- Whether the tag is there when it is written is known from what has been done so far.
  have hcreated {more : List WrittenCommit} (hmore : s.repo.Gains s₁.repo more []) :
      (update == .created) = true ↔ before.refs.get? (options.tagRef r) = none ∧
        ∀ t ∈ p.tags, t.name ≠ options.tagName r.version := by
    rw [beq_iff_eq, hnew, hmore.get?_eq_none_iff, h.gains.get?_eq_none_iff]
    simp [RefOutcome.asTag, ApplyOptions.tagRef]
  have hgains {more : List WrittenCommit} (hmore : s.repo.Gains s₁.repo more []) :
      before.Gains (s₁.repo.writeRef (options.tagRef r) commit).2 (made ++ more)
        ((p.add options r commit update).tags.map RefOutcome.asTag) := by
    have hall := h.gains.trans (hmore.trans hplaced)
    rw [List.append_nil, List.nil_append] at hall
    rw [Progress.tags_add, List.map_append]
    exact hall
  rcases gains_commitFor hcommit with ⟨htrunk, rfl⟩ | ⟨htrunk, hmore⟩
  · have hmore := Memory.Gains.refl s.repo
    refine ⟨[], ?_, hgains hmore⟩
    rw [List.append_nil, Progress.add, htrunk]
    exact h.tagged.concat_planned (t := ⟨_, _, _⟩) htrunk rfl (hcreated hmore)
  · refine ⟨[⟨commit, r.draft options p.last⟩], ?_, hgains hmore⟩
    rw [Progress.add, htrunk]
    exact h.tagged.concat_made (t := ⟨_, _, _⟩) htrunk rfl rfl rfl (hcreated hmore)

/-- What has come of releases that were applied one after the other. -/
theorem fits_applyReleases {l : List PlannedRelease}
    (hrun : (l.foldlM (applyRelease options interrupt total) Progress.start).after s =
      (.ok p, s')) :
    ∃ made, Fits options l s.repo made p s' := by
  refine Writing.foldlM_invariant (P := fun done p s' => ∃ made, Fits options done s.repo made p s')
    ?_ ⟨[], .start options s.repo.refs, .refl s.repo⟩ hrun
  rintro done r p s₁ p' s₂ ⟨made, h⟩ hstep
  obtain ⟨more, hmore⟩ := fits_applyRelease h hstep
  exact ⟨made ++ more, hmore⟩

end Releases

/-! ### The whole plan -/

section Plan

variable {options : ApplyOptions} {interrupt : Interrupt} {total : Nat} {p : Progress}
  {plan : ReleasePlan} {s s' : Session Memory}

/-- The branch is written at the last commit that was made, if one was. -/
theorem gains_applyBranch {branch : Option RefOutcome}
    (h : (applyBranch options interrupt total p).after s = (.ok branch, s')) :
    s.repo.Gains s'.repo [] (branch.toList.map RefOutcome.asBranch) ∧
      branch.map (fun b => (b.name, b.commit)) = p.last.map (fun c => (options.legacyBranch, c)) ∧
      ∀ b ∈ branch, (b.created = true ↔ s.repo.refs.get? ("refs/heads/" ++ b.name) = none) := by
  rcases applyBranch_eq_ok h with ⟨hlast, rfl, rfl⟩ | ⟨commit, update, hlast, hbranch, rfl⟩
  · rw [hlast]
    exact ⟨.refl s'.repo, rfl, nofun⟩
  · rw [Memory.after_createBranch] at hbranch
    obtain ⟨hresult, rfl⟩ := Prod.mk.inj hbranch
    obtain ⟨hplaced, hnew⟩ := Memory.gains_writeRef hresult
    rw [hlast]
    refine ⟨hplaced, rfl, fun b hb => ?_⟩
    obtain rfl := Option.some.inj hb
    rw [beq_iff_eq, hnew, Session.repo_polled]

theorem forall₂_skipped (plan : ReleasePlan) :
    List.Forall₂ (fun u x => x.version = u.version ∧ x.source = u.source ∧
        (x.tagged = true ↔ ∃ r ∈ plan.releases, r.version = u.version))
      plan.unresolved plan.skipped := by
  unfold ReleasePlan.skipped
  rw [List.forall₂_map_right_iff, List.forall₂_same]
  intro u _
  exact ⟨rfl, rfl, by simp⟩

/-- A plan that was applied has its effect, all of it and nothing else. -/
theorem isEffect_applyPlan {report : ApplyReport}
    (h : (applyPlan options interrupt plan).after s = (.ok report, s')) :
    ∃ made, IsEffect options plan s.repo s'.repo made report := by
  obtain ⟨p, s₁, branch, hreleases, hbranch, rfl⟩ := applyPlan_eq_ok h
  obtain ⟨made, htagged, hgains⟩ := fits_applyReleases hreleases
  obtain ⟨hmore, htarget, hcreated⟩ := gains_applyBranch hbranch
  have hlast := htagged.chain.last_eq
  refine ⟨made, Version.isStableSort_mergeSort _ _, hlast ▸ htagged, ?_, ?_, ?_,
    forall₂_skipped plan⟩
  · have hall := hgains.trans hmore
    rwa [List.append_nil] at hall
  · rw [htarget, hlast, Option.map_map]
    rfl
  · intro b hb
    rw [hcreated b hb, hgains.get?_eq_none_iff]
    refine and_iff_left fun x hx => ?_
    obtain ⟨t, -, rfl⟩ := List.mem_map.1 hx
    exact tag_ne_branch t.name b.name

end Plan

/-- Two lost releases with a release of the reference line between them that was copied twice, in no
particular order, and copies of it and of another release that are left to decide. -/
def interleaved : ReleasePlan where
  releases := [⟨⟨[2, 0]⟩, "svn/tags/v2.0/", "T20", none⟩,
    ⟨⟨[1, 0]⟩, "svn/tags/v1.0/", "T10", some "C10"⟩,
    ⟨⟨[0, 9]⟩, "svn/tags/v0.9/", "T09", none⟩,
    ⟨⟨[1, 0]⟩, "svn/old/v1.0/", "T10", some "C10"⟩]
  unresolved := [⟨⟨[1, 0]⟩, "svn/tags/v01.0/", .noTrunkMatch 2, ["T12", "T11"]⟩,
    ⟨⟨[0, 8]⟩, "svn/tags/v0.8/", .emptyHistory, []⟩]

/-- A store that has got a commit and its branch, and a tag that a plan will find right. -/
def begun : Memory :=
  let maker : Identity := ⟨"Recovery", "recovery@example.com"⟩
  { Memory.empty with
    written := [⟨"S1", "T01", none, "Legacy release v0.1", maker, 0⟩]
    refs := .ofList [("refs/heads/old", "S1"), ("refs/tags/release/v1.0", "C10")] }

theorem isEffect_applyPlan_interleaved :
    let options : ApplyOptions :=
      ⟨"release/", "legacy", ⟨"Recovery", "recovery@example.com"⟩, 1577836800⟩
    ∃ report s', (applyPlan options .never interleaved).after ⟨begun, []⟩ = (.ok report, s') ∧
      report.tags = [⟨"release/v0.9", "S2", true⟩, ⟨"release/v1.0", "C10", false⟩,
        ⟨"release/v1.0", "C10", false⟩, ⟨"release/v2.0", "S3", true⟩] ∧
      ∃ made, IsEffect options interleaved begun s'.repo made report := by
  intro options
  let report : ApplyReport :=
    ⟨[⟨"release/v0.9", "S2", true⟩, ⟨"release/v1.0", "C10", false⟩,
      ⟨"release/v1.0", "C10", false⟩, ⟨"release/v2.0", "S3", true⟩],
      [⟨⟨[0, 9]⟩, "S2", "T09", none⟩, ⟨⟨[2, 0]⟩, "S3", "T20", some "S2"⟩],
      some ⟨"legacy", "S3", true⟩,
      [⟨⟨[1, 0]⟩, "svn/tags/v01.0/", true⟩, ⟨⟨[0, 8]⟩, "svn/tags/v0.8/", false⟩]⟩
  have hordered : interleaved.ordered = [⟨⟨[0, 9]⟩, "svn/tags/v0.9/", "T09", none⟩,
      ⟨⟨[1, 0]⟩, "svn/tags/v1.0/", "T10", some "C10"⟩,
      ⟨⟨[1, 0]⟩, "svn/old/v1.0/", "T10", some "C10"⟩, ⟨⟨[2, 0]⟩, "svn/tags/v2.0/", "T20", none⟩] :=
    (Version.isStableSort_mergeSort _ _).unique ⟨by decide, by decide, by decide⟩
  have hresult : ((applyPlan options .never interleaved).after (⟨begun, []⟩ : Session Memory)).1 =
      .ok report := by
    simp only [applyPlan, hordered]
    decide +kernel
  have hrun : (applyPlan options .never interleaved).after ⟨begun, []⟩ = (.ok report, _) :=
    Prod.ext hresult rfl
  exact ⟨report, _, hrun, rfl, isEffect_applyPlan hrun⟩

end ReleaseRecovery
