import Mathlib.Data.List.Forall2
import ReleaseRecovery.Proofs.FreshTags
import ReleaseRecovery.Proofs.Incremental
import ReleaseRecovery.Proofs.Reporting
import ReleaseRecovery.Proofs.Runs
import ReleaseRecovery.Proofs.Search

/-!
# What the tags of a run point at

From the store to the tags: what a run finds, keeps in the index file, plans and writes fits
together. Every planned release gets one tag, and the commit that it points at has the content of
the release, which is a full install in the history of another ref than the reference line.

## Main Definitions

* `OnLine` — a commit of the reference line has a content at its top
* `IsCopied` — a content is a directory in the history of another ref
* `IsTagOf` — a tag is that of a release
* `IsRightTag` — a tag is that of a release, and the release is what the store says

## Main Statements

* `exists_copy_of_release`, `exists_root_of_release` — what an index says of a planned release
* `Memory.isTagOf_applyPlan` — a plan that was applied has the tags of its releases
* `isRightTag_of_run` — all tags of a run are right, whatever runs there were before
-/

namespace ReleaseRecovery

/-! ### From the index to the plan -/

section Index

variable {index : ContentIndex} {reference : String} {history : List TreeId}
  {trunk : SortedMap CommitId}

/-- A copy comes to one of its own contents. -/
theorem mem_history_of_target? {tree : TreeId} {commit : Option CommitId}
    (h : (resolve history trunk).target? = some (tree, commit)) : tree ∈ history := by
  cases hr : resolve history trunk with
  | trunk t c =>
    rw [hr] at h
    cases h
    obtain ⟨newer, older, rfl, -⟩ := resolve_eq_trunk_iff.1 hr
    exact List.mem_append_right newer List.mem_cons_self
  | synthesize t =>
    rw [hr] at h
    cases h
    rw [(resolve_eq_synthesize_iff.1 hr).1]
    exact List.mem_cons_self
  | unresolved reason =>
    rw [hr] at h
    cases h

/-- Every content in a subhistory is that of a full install in the history of another ref than the
reference line. -/
theorem exists_contentsOf_of_mem_history {subs : SortedMap Subhistory}
    (h : subhistories index reference trunk = .ok subs) {key : String} {s : Subhistory}
    (hs : subs.get? key = some s) {tree : TreeId} (ht : tree ∈ s.history) :
    ∃ ref commits path, index.histories.get? ref = some commits ∧ ref ≠ reference ∧
      tree ∈ index.contentsOf commits path := by
  rw [get?_subhistories h] at hs
  dsimp only at hs
  split at hs
  · cases hs
  · obtain rfl := Option.some.inj hs
    have hobserved : tree ∈ contentsAt key (index.observedBeside reference) :=
      (List.destutter_sublist _ _).subset ht
    rw [ContentIndex.observedBeside, contentsAt_flatMap, List.mem_flatMap] at hobserved
    obtain ⟨e, he, hmem⟩ := hobserved
    obtain ⟨hget, hne⟩ := ContentIndex.mem_beside_iff.1 he
    obtain ⟨path, -, hpath⟩ := ContentIndex.mem_contentsAt_observed_iff.1 hmem
    exact ⟨e.1, e.2, path, hget, hne, hpath⟩

variable {x : CrossReference} {r : PlannedRelease}

/-- The content of a planned release is that of a full install of a commit of another ref than the
reference line. -/
theorem exists_copy_of_release (h : crossReference index reference = .ok x)
    (hr : r ∈ x.plan.releases) :
    ∃ ref commits, index.histories.get? ref = some commits ∧ ref ≠ reference ∧
      ∃ c ∈ commits, ∃ record, index.records.get? c = some record ∧
        ∃ path, record.full.get? path = some r.tree := by
  obtain ⟨trunk, -, hsubs, hplan⟩ := crossReference_eq_ok_iff.1 h
  rw [hplan, mem_releases_iff] at hr
  obtain ⟨-, ⟨s, hs, -, htarget⟩, -⟩ := agreed?_resolved_iff.1 hr
  obtain ⟨ref, commits, path, hget, hne, hmem⟩ :=
    exists_contentsOf_of_mem_history hsubs hs (mem_history_of_target? htarget)
  obtain ⟨c, hc, hfull⟩ := List.mem_filterMap.1 hmem
  obtain ⟨record, hrecord, htree⟩ := Option.bind_eq_some_iff.1 hfull
  exact ⟨ref, commits, hget, hne, c, hc, record, hrecord, path, htree⟩

/-- The commit that a release is planned for is one of the reference line, with the content of the
release at its top. -/
theorem exists_root_of_release (h : crossReference index reference = .ok x)
    (hr : r ∈ x.plan.releases) {c : CommitId} (hc : r.trunkCommit = some c) :
    ∃ commits, index.histories.get? reference = some commits ∧ c ∈ commits ∧
      ∃ record, index.records.get? c = some record ∧ record.full.get? "/" = some r.tree := by
  obtain ⟨trunk, htrunk, -, hplan⟩ := crossReference_eq_ok_iff.1 h
  obtain ⟨commits, hget, -, -⟩ := referenceIndex_eq_ok_iff.1 htrunk
  rw [hplan, mem_releases_iff] at hr
  obtain ⟨-, ⟨s, -, -, htarget⟩, -⟩ := agreed?_resolved_iff.1 hr
  have htaken := (backed_of_resolve htrunk hget htarget).1 c hc
  obtain ⟨newer, older, hsplit, -⟩ := htaken.oldest
  exact ⟨commits, hget, hsplit ▸ List.mem_append_right newer List.mem_cons_self, htaken.recorded⟩

end Index

/-! ### From the store to the plan -/

section Store

variable {ρ : Type} [Repository ρ]

/-- A commit is in the log of a ref, and has a content at its top. -/
structure OnLine (store : ρ) (ref : String) (c : CommitId) (tree : TreeId) : Prop where
  logged : ∃ log, Repository.log store ref = .ok log ∧ c ∈ log
  root : ∃ commit, Repository.commit store c = .ok commit ∧ commit.tree = tree

/-- A content is that of a directory of some commit in the history of another ref than the reference
line. -/
def IsCopied (store : ρ) (layout : Layout) (tree : TreeId) : Prop :=
  ∃ histories, collected store layout = .ok histories ∧
    ∃ ref history, histories.get? ref = some history ∧ ref ≠ layout.reference ∧
      ∃ c ∈ history.commits, ∃ commit, Repository.commit store c = .ok commit ∧
        ∃ path, DirectoryAt store commit.tree path tree

variable {store : ρ} {markers : Markers} {layout : Layout} {index : ContentIndex}
  {x : CrossReference} {r : PlannedRelease}

/-- The history of a ref in an index that is up to date is the one that was collected. -/
theorem UpToDate.exists_history (h : UpToDate store markers layout index) {ref : String}
    {commits : List CommitId} (hget : index.histories.get? ref = some commits) :
    ∃ histories history, collected store layout = .ok histories ∧
      histories.get? ref = some history ∧ history.commits = commits := by
  obtain ⟨histories, hcollected, hhistories⟩ := h.histories
  rw [hhistories, SortedMap.get?_mapValues, Option.map_eq_some_iff] at hget
  obtain ⟨history, hhistory, hcommits⟩ := hget
  exact ⟨histories, history, hcollected, hhistory, hcommits⟩

theorem UpToDate.isCopied (h : UpToDate store markers layout index)
    (hcross : crossReference index layout.reference = .ok x) (hr : r ∈ x.plan.releases) :
    IsInstall store markers r.tree ∧ IsCopied store layout r.tree := by
  obtain ⟨ref, commits, hget, hne, c, hc, record, hrecord, path, htree⟩ :=
    exists_copy_of_release hcross hr
  obtain ⟨histories, history, hcollected, hhistory, rfl⟩ := h.exists_history hget
  obtain ⟨commit, hcommit, hthere⟩ := exists_commit_of_scanned (h.sound c record hrecord)
  obtain ⟨hdirectory, hinstall⟩ := hthere path r.tree htree
  exact ⟨hinstall, histories, hcollected, ref, history, hhistory, hne, c, hc, commit, hcommit, path,
    hdirectory⟩

theorem UpToDate.onLine (h : UpToDate store markers layout index)
    (hcross : crossReference index layout.reference = .ok x) (hr : r ∈ x.plan.releases)
    {c : CommitId} (hc : r.trunkCommit = some c) : OnLine store layout.reference c r.tree := by
  obtain ⟨commits, hget, hmem, record, hrecord, hroot⟩ := exists_root_of_release hcross hr hc
  obtain ⟨histories, history, hcollected, hhistory, rfl⟩ := h.exists_history hget
  obtain ⟨log, hlog, hlogged⟩ := exists_log_of_collected hcollected
  obtain ⟨commit, hcommit, hthere⟩ := exists_commit_of_scanned (h.sound c record hrecord)
  exact ⟨⟨log, hlog, hlogged history hhistory c hmem⟩, commit, hcommit,
    (hthere "/" r.tree hroot).1.eq_top.symm⟩

end Store

/-! ### From the plan to the tags -/

section Tags

variable {options : ApplyOptions} {interrupt : Interrupt} {plan : ReleasePlan}

/-- A tag is that of a release: it is at the commit that was planned, or at one of those that have
been made, with the content of the release. -/
structure IsTagOf (options : ApplyOptions) (made : List WrittenCommit) (r : PlannedRelease)
    (t : RefOutcome) : Prop where
  name : t.name = options.tagName r.version
  planned : ∀ c, r.trunkCommit = some c → t.commit = c
  made : r.trunkCommit = none → ∃ w ∈ made, w.id = t.commit ∧ w.content.tree = r.tree

/-- A tag stays that of a release when more commits are made. -/
theorem IsTagOf.mono {made more : List WrittenCommit} {r : PlannedRelease} {t : RefOutcome}
    (h : IsTagOf options made r t) (hsub : made ⊆ more) : IsTagOf options more r t := by
  refine ⟨h.name, h.planned, fun hlost => ?_⟩
  obtain ⟨w, hw, heq⟩ := h.made hlost
  exact ⟨w, hsub hw, heq⟩

/-- To write a ref makes no commit. -/
theorem Memory.written_writeRef (m : Memory) (name : String) (target : CommitId) :
    (m.writeRef name target).2.written = m.written := by
  rw [writeRef_eq_place]

theorem Memory.written_applyBranch {total : Nat} {p : Progress} {branch : Option RefOutcome}
    {s s' : Session Memory}
    (hrun : (applyBranch options interrupt total p).after s = (.ok branch, s')) :
    s'.repo.written = s.repo.written := by
  rcases applyBranch_eq_ok hrun with ⟨-, -, rfl⟩ | ⟨commit, update, -, hplaced, -⟩
  · rfl
  · rw [after_createBranch] at hplaced
    rw [← (Prod.mk.inj hplaced).2]
    exact written_writeRef ..

/-- Applying a release makes one tag, which is that of the release, and one commit at most. -/
theorem Memory.isTagOf_applyRelease {total : Nat} {p p' : Progress} {r : PlannedRelease}
    {s s' : Session Memory}
    (hrun : (applyRelease options interrupt total p r).after s = (.ok p', s')) :
    ∃ made t, s'.repo.written = s.repo.written ++ made ∧ p'.tags = p.tags ++ [t] ∧
      IsTagOf options made r t := by
  obtain ⟨commit, s₁, update, hcommit, htag, rfl⟩ := applyRelease_eq_ok hrun
  have hwritten : s'.repo.written = s₁.repo.written := by
    rw [Memory.after_createTag] at htag
    rw [← (Prod.mk.inj htag).2]
    exact Memory.written_writeRef ..
  obtain ⟨commit', s₁', hcommit', -, hmade⟩ := Memory.after_commitFor options p.last r s.polled
  obtain ⟨hcommits, rfl⟩ := Prod.mk.inj (hcommit'.symm.trans hcommit)
  obtain rfl := Except.ok.inj hcommits
  rcases hmade with ⟨htrunk, hsame⟩ | ⟨htrunk, hadded⟩
  · refine ⟨[], _, ?_, Progress.tags_add .., rfl, fun c hc => ?_, fun hlost => ?_⟩
    · rw [hwritten, hsame, List.append_nil, Session.repo_polled]
    · exact Option.some.inj (htrunk.symm.trans hc)
    · rw [htrunk] at hlost
      cases hlost
  · refine ⟨_, _, hwritten.trans hadded, Progress.tags_add .., rfl, fun c hc => ?_, fun _ => ?_⟩
    · rw [htrunk] at hc
      cases hc
    · exact ⟨_, List.mem_singleton_self _, rfl, rfl⟩

/-- A plan that was applied has one tag for each of its releases. -/
theorem Memory.isTagOf_applyPlan {report : ApplyReport} {s s' : Session Memory}
    (hrun : (applyPlan options interrupt plan).after s = (.ok report, s')) :
    ∃ made, s'.repo.written = s.repo.written ++ made ∧
      List.Forall₂ (IsTagOf options made) plan.ordered report.tags := by
  obtain ⟨p, s₁, branch, hreleases, hbranch, rfl⟩ := applyPlan_eq_ok hrun
  have htags : ∃ made, s₁.repo.written = s.repo.written ++ made ∧
      List.Forall₂ (IsTagOf options made) plan.ordered p.tags := by
    refine Writing.foldlM_invariant (P := fun done (p : Progress) (s₁ : Session Memory) =>
      ∃ made, s₁.repo.written = s.repo.written ++ made ∧
        List.Forall₂ (IsTagOf options made) done p.tags) ?_ ?_ hreleases
    · rintro done r p s₁ p' s₂ ⟨made, hwritten, htags⟩ hstep
      obtain ⟨more, t, hmore, htag, ht⟩ := Memory.isTagOf_applyRelease hstep
      refine ⟨made ++ more, ?_, ?_⟩
      · rw [hmore, hwritten, List.append_assoc]
      · rw [htag]
        refine List.rel_append (htags.imp fun _ _ h => ?_) (.cons ?_ .nil)
        · exact h.mono (List.subset_append_left made more)
        · exact ht.mono (List.subset_append_right made more)
    · exact ⟨[], (List.append_nil _).symm, .nil⟩
  obtain ⟨made, hwritten, hreported⟩ := htags
  exact ⟨made, (Memory.written_applyBranch hbranch).trans hwritten, hreported⟩

theorem names_of_isTagOf {made : List WrittenCommit} {releases : List PlannedRelease}
    {tags : List RefOutcome} (h : List.Forall₂ (IsTagOf options made) releases tags) :
    tags.map (·.name) = releases.map fun r => options.tagName r.version := by
  induction h with
  | nil => rfl
  | cons ht _ ih => rw [List.map_cons, List.map_cons, ht.name, ih]

end Tags

/-! ### From the store to the tags -/

/-- A tag is that of a release, and what it says of the store before the run and after it is so. -/
structure IsRightTag (store final : Memory) (settings : Settings) (made : List WrittenCommit)
    (r : PlannedRelease) (t : RefOutcome) : Prop where
  name : t.name = settings.tagStart ++ r.version.text
  points : final.refs.get? ("refs/tags/" ++ t.name) = some t.commit
  /-- The commit that was planned is on the reference line and has the content at its top. -/
  onLine : ∀ c, r.trunkCommit = some c →
    t.commit = c ∧ OnLine store settings.layout.reference c r.tree
  /-- Without a planned commit, the run has made one with the content. -/
  made : r.trunkCommit = none → ∃ w ∈ made, w.id = t.commit ∧ w.content.tree = r.tree
  install : IsInstall store settings.markers r.tree
  copied : IsCopied store settings.layout r.tree

/-- Every release of a plan has one tag after a run that has applied the plan, and all of these tags
are right. The index file was not there at first, or earlier runs have left it. -/
theorem isRightTag_of_run {files : Files} {path : String} {markers : Markers}
    {calls : List (Call Memory)} {call : Call Memory} {report : Report}
    (absent : files.read path = .error .notFound)
    (sequence : IsSequence markers path (calls ++ [call])) (hseen : call.seen = call.store)
    (hstage : call.settings.stage = .apply)
    (h : (call.outcome (filesAfter files calls)).result = .ok (some report)) :
    let final := (call.outcome (filesAfter files calls)).repo
    ∃ applied made, report.applied = some applied ∧
      final.written = call.store.written ++ made ∧ (applied.tags.map (·.name)).Nodup ∧
      List.Forall₂ (IsRightTag call.store final call.settings made)
        report.crossReference.plan.releases applied.tags := by
  intro final
  have hmem : call ∈ calls ++ [call] := List.mem_append_right calls List.mem_cons_self
  have sees := sequence.sees call hmem
  obtain rfl := sequence.markers_eq call hmem
  obtain rfl := sequence.path_eq call hmem
  have loads := (sequence.leaves_before absent).loadsSound absent
  -- The run has brought its index up to date, has planned from it, and has applied the plan.
  obtain ⟨index, s, hindex, hplan, hfinal⟩ := exists_planAndApply_of_run h
  obtain ⟨x, applied, hcross, happly, rfl⟩ := planAndApply_eq_ok hstage hplan
  have upToDate := (upToDate_buildIndex sees loads hindex).1
  obtain ⟨made, hwritten, htags⟩ := Memory.isTagOf_applyPlan happly
  obtain ⟨-, hreported, -⟩ := reported_applyPlan Memory.placesRefs happly
  have hrepo : final = s.repo := hfinal
  rw [ordered_of_crossReference hcross] at htags
  refine ⟨applied, made, rfl, ?_, ?_, ?_⟩
  · rw [hrepo, ← hseen]
    exact hwritten
  · rw [names_of_isTagOf htags]
    exact nodup_tagNames ((ascending_of_crossReference hcross).imp Version.ne_of_lt)
  · rw [List.forall₂_iff_zip] at htags ⊢
    refine ⟨htags.1, fun {r t} hzip => ?_⟩
    obtain ⟨hr, ht⟩ := List.of_mem_zip hzip
    have htag := htags.2 hzip
    obtain ⟨hinstall, hcopied⟩ := upToDate.isCopied hcross hr
    refine ⟨htag.name, ?_, fun c hc => ⟨htag.planned c hc, upToDate.onLine hcross hr hc⟩, htag.made,
      hinstall, hcopied⟩
    rw [hrepo]
    exact (hreported t ht).there

/-- A store with two releases under its tags. The reference line had the content of one of them. -/
def Memory.twoReleases : Memory where
  logs := .ofList [("svn/tags", ["G1"]), ("svn/trunk", ["C1"])]
  commits := .ofList [("C1", "T1"), ("G1", "D1")]
  trees := .ofList [("D1", [⟨.tree, "v1.0", "T1"⟩, ⟨.tree, "v2.0", "T9"⟩]),
    ("T1", [⟨.tree, "vice", "V1"⟩]), ("T9", [⟨.tree, "vice", "V9"⟩])]
  written := []
  refs := .empty

/-- A run that is stopped while it scans the first commit. -/
def Call.cutShort : Call Memory :=
  ⟨.twoReleases, .twoReleases, .indexing, .after (.commit "C1"), .inTurn, ⟨0, 0⟩⟩

/-- A run over the same store that applies the plan. -/
def Call.applying : Call Memory :=
  ⟨.twoReleases, .twoReleases, { Settings.indexing with stage := .apply }, .never, .inTurn, ⟨1, 0⟩⟩

theorem isRightTag_of_run_twoReleases :
    IsSequence ⟨"vice", "README"⟩ "index.json" ([Call.cutShort] ++ [Call.applying]) ∧
      ∃ report, (Call.applying.outcome (filesAfter .fresh [Call.cutShort])).result =
          .ok (some report) ∧
        report.crossReference.plan.releases = [⟨⟨[1, 0]⟩, "svn/tags/v1.0/", "T1", some "C1"⟩,
          ⟨⟨[2, 0]⟩, "svn/tags/v2.0/", "T9", none⟩] ∧
        let final := (Call.applying.outcome (filesAfter .fresh [Call.cutShort])).repo
        ∃ applied made, report.applied = some applied ∧ final.written = made ∧
          (applied.tags.map (·.name)).Nodup ∧
          List.Forall₂ (IsRightTag .twoReleases final Call.applying.settings made)
            report.crossReference.plan.releases applied.tags := by
  let index : ContentIndex := ⟨.ofList [("svn/tags", ["G1"]), ("svn/trunk", ["C1"])],
    .ofList [("C1", ⟨.ofList [("/", "T1")], .ofList [("/vice/", "V1")]⟩),
      ("G1", ⟨.ofList [("/v1.0/", "T1"), ("/v2.0/", "T9")],
        .ofList [("/v1.0/vice/", "V1"), ("/v2.0/vice/", "V9")]⟩)]⟩
  let trunk : SortedMap CommitId := .ofList [("T1", "C1")]
  let subs : SortedMap Subhistory := .ofList [("svn/tags/v1.0/", ⟨["T1"], some "C1", some "C1"⟩),
    ("svn/tags/v2.0/", ⟨["T9"], none, none⟩)]
  have hindex : (Call.applying.indexed (filesAfter .fresh [Call.cutShort])).result = .ok index :=
    toOption_eq_some_iff.1 (by decide +kernel)
  have hcross : crossReference index "svn/trunk" = .ok ⟨subs, resolveReleases subs trunk⟩ :=
    crossReference_eq_ok_iff.2 ⟨trunk, by decide +kernel, by decide +kernel, rfl⟩
  have hversions : ((copies subs).map (·.version)).eraseDups = [⟨[1, 0]⟩, ⟨[2, 0]⟩] := by
    decide +kernel
  -- There is no ref yet, so the plan can be applied.
  obtain ⟨applied, s', happly, -⟩ := applyPlan_of_absent
    (Call.applying.settings.applyOptions ⟨1, 0⟩) (ordered_of_crossReference hcross)
    ((ascending_of_crossReference hcross).imp Version.ne_of_lt)
    ⟨.twoReleases,
      .poll :: .poll :: (Call.applying.indexed (filesAfter .fresh [Call.cutShort])).done⟩
    (fun _ _ => rfl) rfl
  have hresult := run_eq_ok ⟨1, 0⟩ rfl hindex hcross happly
  have sequence :
      IsSequence ⟨"vice", "README"⟩ "index.json" ([Call.cutShort] ++ [Call.applying]) := by
    refine ⟨?_, ?_, ?_, .cons_cons (.refl _) (.singleton _)⟩
    · rintro c (_ | ⟨_, _ | ⟨_, ⟨⟩⟩⟩)
      · exact .refl (Memory.reachable _)
      · exact .refl (Memory.reachable _)
    · rintro c (_ | ⟨_, _ | ⟨_, ⟨⟩⟩⟩) <;> rfl
    · rintro c (_ | ⟨_, _ | ⟨_, ⟨⟩⟩⟩) <;> rfl
  refine ⟨sequence, _, hresult, ?_, isRightTag_of_run rfl sequence rfl rfl hresult⟩
  rw [releases_of_versions hversions (by decide)]
  decide +kernel

end ReleaseRecovery
