import ReleaseRecovery.Proofs.Planning
import ReleaseRecovery.Proofs.ReferenceLine
import ReleaseRecovery.Proofs.Subhistories

/-!
# Soundness of plans

Whatever stands in a plan can be told from the index alone: which ref and path a release was copied
to, which commit of the reference line it was taken from, or that no commit there has its content.

## Main Definitions

* `TakenFrom` — a content was taken from a commit of the reference line
* `Backed` — an index backs a planned release

## Main Statements

* `crossReference_backed` — every planned release is backed by the index
-/

namespace ReleaseRecovery

/-- A content of a copy was taken from a commit of the reference line, and it is the newest one of
which this can be said. -/
structure TakenFrom (index : ContentIndex) (commits : List CommitId) (history : List TreeId)
    (tree : TreeId) (c : CommitId) : Prop where
  /-- The commit has the content in its top directory. -/
  recorded : ∃ r, index.records.get? c = some r ∧ r.full.get? "/" = some tree
  /-- No commit after the last mention of this one, that is no older one, has the content too. -/
  oldest : ∃ newer older, commits = newer ++ c :: older ∧ c ∉ older ∧
    ∀ d ∈ older, index.root? d ≠ some tree
  /-- No newer content of the copy was ever on the reference line. -/
  newest : ∃ newer older, history = newer ++ tree :: older ∧
    ∀ t ∈ newer, ∀ d ∈ commits, index.root? d ≠ some t

/-- An index backs a planned release, given the history of the reference line and that of the
copy. -/
structure Backed (index : ContentIndex) (reference : String) (commits : List CommitId)
    (history : List TreeId) (r : PlannedRelease) : Prop where
  copied : ∃ ref path, ref ≠ reference ∧ r.source = ref ++ path ∧ index.Installs ref path
  taken : ∀ c, r.trunkCommit = some c → TakenFrom index commits history r.tree c
  lost : r.trunkCommit = none →
    history = [r.tree] ∧ ∀ d ∈ commits, index.root? d ≠ some r.tree

section CrossReference

variable {index : ContentIndex} {reference : String}

theorem crossReference_eq_ok_iff {x : CrossReference} :
    crossReference index reference = .ok x ↔
      ∃ trunk, referenceIndex index reference = .ok trunk ∧
        subhistories index reference trunk = .ok x.subhistories ∧
        x.plan = resolveReleases x.subhistories trunk := by
  rw [crossReference, bind_eq_ok_iff]
  refine exists_congr fun trunk => and_congr_right fun _ => ?_
  rw [bind_eq_ok_iff]
  constructor
  · rintro ⟨subs, hsubs, ⟨⟩⟩
    exact ⟨hsubs, rfl⟩
  · rintro ⟨hsubs, hplan⟩
    refine ⟨x.subhistories, hsubs, ?_⟩
    rw [← hplan]
    rfl

/-- A commit that is the oldest one with some contents is not mentioned again after that. -/
theorem ContentIndex.IsOldestWith.takenFrom {commits : List CommitId} {history : List TreeId}
    {tree : TreeId} {c : CommitId} (h : index.IsOldestWith commits tree c)
    (newest : ∃ newer older, history = newer ++ tree :: older ∧
      ∀ t ∈ newer, ∀ d ∈ commits, index.root? d ≠ some t) :
    TakenFrom index commits history tree c := by
  obtain ⟨newer, older, hsplit, hroot, holder⟩ := h
  obtain ⟨r, hr, htop⟩ := Option.bind_eq_some_iff.1 hroot
  refine ⟨⟨r, hr, htop⟩, ⟨newer, older, hsplit, fun hc => ?_, holder⟩, newest⟩
  exact holder c hc hroot

/-- What a copy comes to is backed by the reference line. -/
theorem backed_of_resolve {trunk : SortedMap CommitId} {commits : List CommitId}
    (htrunk : referenceIndex index reference = .ok trunk)
    (hget : index.histories.get? reference = some commits) {history : List TreeId}
    {r : PlannedRelease}
    (hr : (resolve history trunk).target? = some (r.tree, r.trunkCommit)) :
    (∀ c, r.trunkCommit = some c → TakenFrom index commits history r.tree c) ∧
      (r.trunkCommit = none →
        history = [r.tree] ∧ ∀ d ∈ commits, index.root? d ≠ some r.tree) := by
  have hnone : ∀ t, trunk.get? t = none ↔ ∀ d ∈ commits, index.root? d ≠ some t := fun t =>
    get?_referenceIndex_eq_none_iff htrunk hget
  cases hres : resolve history trunk with
  | trunk tree c =>
    rw [hres] at hr
    obtain ⟨htree, hcommit⟩ := Prod.mk.inj (Option.some.inj hr)
    rw [← htree, ← hcommit]
    refine ⟨?_, fun h => nomatch h⟩
    rintro _ ⟨⟩
    obtain ⟨newer, older, hsplit, hc, hnewer⟩ := resolve_eq_trunk_iff.1 hres
    have holdest := (get?_referenceIndex htrunk hget).1 hc
    exact holdest.takenFrom ⟨newer, older, hsplit, fun t ht => (hnone t).1 (hnewer t ht)⟩
  | synthesize tree =>
    rw [hres] at hr
    obtain ⟨htree, hcommit⟩ := Prod.mk.inj (Option.some.inj hr)
    rw [← htree, ← hcommit]
    obtain ⟨hsingle, hc⟩ := resolve_eq_synthesize_iff.1 hres
    exact ⟨fun c h => (nomatch h), fun _ => ⟨hsingle, (hnone tree).1 hc⟩⟩
  | unresolved reason =>
    rw [hres] at hr
    cases hr

/-- Every planned release is backed by the index. -/
theorem crossReference_backed {x : CrossReference} (h : crossReference index reference = .ok x) :
    ∃ commits, index.histories.get? reference = some commits ∧
      ∀ r ∈ x.plan.releases, ∃ s, x.subhistories.get? r.source = some s ∧
        Backed index reference commits s.history r := by
  obtain ⟨trunk, htrunk, hsubs, hplan⟩ := crossReference_eq_ok_iff.1 h
  obtain ⟨commits, hget, -, -⟩ := referenceIndex_eq_ok_iff.1 htrunk
  refine ⟨commits, hget, fun r hr => ?_⟩
  rw [hplan, mem_releases_iff] at hr
  obtain ⟨-, ⟨s, hs, -, htarget⟩, -⟩ := agreed?_resolved_iff.1 hr
  obtain ⟨taken, lost⟩ := backed_of_resolve htrunk hget htarget
  exact ⟨s, hs, exists_installs_of_get?_subhistories hsubs hs, taken, lost⟩

end CrossReference

/-- A reference line that came back to an earlier content, a release taken from it, and one whose
content it never had. -/
def revertedLine : ContentIndex where
  histories := .ofList
    [("svn/tags", ["G1"]), ("svn/trunk", ["C3", "C2", "C1"])]
  records := .ofList
    [("C1", ⟨.ofList [("/", "T1")], .empty⟩), ("C2", ⟨.ofList [("/", "T2")], .empty⟩),
      ("C3", ⟨.ofList [("/", "T1")], .empty⟩),
      ("G1", ⟨.ofList [("/v1.0/", "T1"), ("/v2.0/", "T9")], .empty⟩)]

theorem crossReference_revertedLine :
    ∃ x, crossReference revertedLine "svn/trunk" = .ok x ∧
      x.plan.releases = [⟨⟨[1, 0]⟩, "svn/tags/v1.0/", "T1", some "C1"⟩,
        ⟨⟨[2, 0]⟩, "svn/tags/v2.0/", "T9", none⟩] ∧
      ∃ commits, revertedLine.histories.get? "svn/trunk" = some commits ∧
        ∀ r ∈ x.plan.releases, ∃ s, x.subhistories.get? r.source = some s ∧
          Backed revertedLine "svn/trunk" commits s.history r := by
  let trunk : SortedMap CommitId := .ofList [("T1", "C1"), ("T2", "C2")]
  let subs : SortedMap Subhistory := .ofList [("svn/tags/v1.0/", ⟨["T1"], some "C1", some "C1"⟩),
    ("svn/tags/v2.0/", ⟨["T9"], none, none⟩)]
  have hx : crossReference revertedLine "svn/trunk" = .ok ⟨subs, resolveReleases subs trunk⟩ :=
    crossReference_eq_ok_iff.2 ⟨trunk, by decide +kernel, by decide +kernel, rfl⟩
  have hversions : ascendingVersions ((copies subs).map (·.version)) = [⟨[1, 0]⟩, ⟨[2, 0]⟩] := by
    have hcopies : (copies subs).map (·.version) = [⟨[1, 0]⟩, ⟨[2, 0]⟩] := by decide +kernel
    rw [hcopies]
    exact List.mergeSort_of_pairwise (by decide)
  refine ⟨_, hx, ?_, crossReference_backed hx⟩
  rw [resolveReleases_releases, hversions]
  decide +kernel

end ReleaseRecovery
