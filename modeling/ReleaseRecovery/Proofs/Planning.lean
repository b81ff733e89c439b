import Mathlib.Data.List.Nodup
import ReleaseRecovery.Proofs.Copies

/-!
# Planning versions as a whole

All copies of a version that come to a result have to come to the same one. The copy with the first
key is then planned; otherwise all of them are reported together. A copy that comes to no result is
reported on its own, whatever becomes of its version.

## Main Definitions

* `reports` — what is reported on the copies of a version

## Main Statements

* `mem_releases_iff`, `mem_unresolved_iff` — what is in a plan
* `nodup_releases`, `nodup_unresolved` — nothing is in it twice
* `resolveReleases_by_version` — what a plan has to say on one version
-/

namespace ReleaseRecovery

/-! ### Lists without repetition -/

section Lists

variable {α : Type}

theorem nodup_eraseDups [DecidableEq α] (l : List α) : l.eraseDups.Nodup := by
  cases l with
  | nil => exact List.nodup_nil
  | cons a l =>
    rw [List.eraseDups_cons, List.nodup_cons]
    -- The rest no longer has the first member, so it is shorter and does not bring it back.
    refine ⟨fun h => ?_, nodup_eraseDups _⟩
    have hmem := (List.mem_filter.1 (List.mem_eraseDups.1 h)).2
    simp at hmem
termination_by l.length
decreasing_by
  have hle := List.length_filter_le (fun b => !b == a) l
  simp only [List.length_cons]
  omega

/-- A test that only one member passes selects that member once. -/
theorem filter_eq_singleton {l : List α} (nodup : l.Nodup) {p : α → Bool} {a : α}
    (h : ∀ b, b ∈ l ∧ p b = true ↔ b = a) : l.filter p = [a] := by
  apply List.perm_singleton.1
  rw [List.perm_ext_iff_of_nodup (nodup.filter p) (List.nodup_singleton a)]
  intro b
  rw [List.mem_filter, h b, List.mem_singleton]

end Lists

theorem nodup_ascendingVersions (vs : List Version) : (ascendingVersions vs).Nodup :=
  List.nodup_mergeSort.2 (nodup_eraseDups vs)

theorem mem_ascendingVersions_iff {vs : List Version} {v : Version} :
    v ∈ ascendingVersions vs ↔ v ∈ vs := by
  rw [ascendingVersions, Version.sort, List.mem_mergeSort, List.mem_eraseDups]

/-! ### What is in a plan -/

section Plan

variable {subs : SortedMap Subhistory} {trunk : SortedMap CommitId} {v : Version}

theorem resolveReleases_releases :
    (resolveReleases subs trunk).releases =
      (ascendingVersions ((copies subs).map (·.version))).filterMap fun v =>
        agreed? (resolved subs trunk v) := by
  rw [resolveReleases, ReleasePlan.ofCopies, List.filterMap_map]
  rfl

/-- What is reported on the copies of a version. -/
def reports (subs : SortedMap Subhistory) (trunk : SortedMap CommitId) (v : Version) :
    List UnresolvedRelease :=
  ((copies subs).filter fun c => decide (c.version = v)).filterMap (Copy.unresolved? trunk) ++
    (conflict? (resolved subs trunk v)).toList

theorem unresolved_perm :
    (resolveReleases subs trunk).unresolved.Perm
      ((ascendingVersions ((copies subs).map (·.version))).flatMap (reports subs trunk)) := by
  rw [resolveReleases, ReleasePlan.ofCopies, List.flatMap_map]
  exact List.mergeSort_perm _ _

/-- A version with a result has a copy. -/
theorem Resolves.mem_versions {key : String} {target : TreeId × Option CommitId}
    (h : Resolves subs trunk v key target) :
    v ∈ ascendingVersions ((copies subs).map (·.version)) := by
  obtain ⟨s, hs, hv, -⟩ := h
  exact mem_ascendingVersions_iff.2
    (List.mem_map.2 ⟨⟨v, key, s.history⟩, mem_copies_iff.2 ⟨s, hs, hv, rfl⟩, rfl⟩)

theorem version_eq_of_agreed? {r : PlannedRelease}
    (h : agreed? (resolved subs trunk v) = some r) : r.version = v := by
  exact (agreed?_resolved_iff.1 h).1

theorem version_eq_of_conflict? {u : UnresolvedRelease}
    (h : conflict? (resolved subs trunk v) = some u) : u.version = v := by
  obtain ⟨first, hfirst, -, rfl⟩ := conflict?_eq_some_iff.1 h
  exact (mem_resolved_iff.1 (List.mem_of_head? hfirst)).1

/-- A conflict is reported under the key of a copy that comes to a result. -/
theorem exists_resolves_of_conflict? {u : UnresolvedRelease}
    (h : conflict? (resolved subs trunk v) = some u) :
    ∃ target, Resolves subs trunk v u.source target := by
  obtain ⟨first, hfirst, -, rfl⟩ := conflict?_eq_some_iff.1 h
  exact ⟨_, (mem_resolved_iff.1 (List.mem_of_head? hfirst)).2⟩

/-- The report of a conflict names all copies that come to a result. -/
theorem reason_of_conflict? {u : UnresolvedRelease}
    (h : conflict? (resolved subs trunk v) = some u) :
    u.reason = .conflictingSources ((resolved subs trunk v).map (·.source)) := by
  obtain ⟨first, -, -, rfl⟩ := conflict?_eq_some_iff.1 h
  rfl

theorem isConflict_of_conflict? {u : UnresolvedRelease}
    (h : conflict? (resolved subs trunk v) = some u) : u.reason.isConflict = true := by
  rw [reason_of_conflict? h]
  rfl

/-- A release is planned exactly if the copies of its version come to it. -/
theorem mem_releases_iff {r : PlannedRelease} :
    r ∈ (resolveReleases subs trunk).releases ↔
      agreed? (resolved subs trunk r.version) = some r := by
  rw [resolveReleases_releases, List.mem_filterMap]
  constructor
  · rintro ⟨v, -, h⟩
    rwa [version_eq_of_agreed? h]
  · intro h
    exact ⟨r.version, (agreed?_resolved_iff.1 h).2.1.mem_versions, h⟩

theorem nodup_releases : (resolveReleases subs trunk).releases.Nodup := by
  rw [resolveReleases_releases]
  refine List.Nodup.filterMap ?_ (nodup_ascendingVersions _)
  intro v v' r h h'
  rw [← version_eq_of_agreed? h, ← version_eq_of_agreed? h']

/-- What is reported on a version is a copy that comes to no result, or copies that do not agree. -/
theorem mem_reports_iff {u : UnresolvedRelease} :
    u ∈ reports subs trunk v ↔ u.version = v ∧
      (Fails subs trunk u.version u.source u.history u.reason ∨
        conflict? (resolved subs trunk u.version) = some u) := by
  simp only [reports, List.mem_append, List.mem_filterMap, List.mem_filter, decide_eq_true_eq,
    Option.mem_toList]
  constructor
  · rintro (⟨c, ⟨hc, rfl⟩, hu⟩ | hu)
    · exact ⟨(unresolved?_eq_some_iff.1 hu).1.symm, .inl (unresolved?_copies_iff.1 ⟨c, hc, hu⟩)⟩
    · have hv := version_eq_of_conflict? hu
      exact ⟨hv, .inr (hv.symm ▸ hu)⟩
  · rintro ⟨rfl, hfails | hu⟩
    · obtain ⟨c, hc, hu⟩ := unresolved?_copies_iff.2 hfails
      exact .inl ⟨c, ⟨hc, (unresolved?_eq_some_iff.1 hu).1⟩, hu⟩
    · exact .inr hu

/-- A version with a report has a copy. -/
theorem mem_versions_of_mem_reports {u : UnresolvedRelease} (h : u ∈ reports subs trunk v) :
    v ∈ ascendingVersions ((copies subs).map (·.version)) := by
  obtain ⟨rfl, hfails | hu⟩ := mem_reports_iff.1 h
  · obtain ⟨c, hc, hu⟩ := unresolved?_copies_iff.2 hfails
    rw [← (unresolved?_eq_some_iff.1 hu).1]
    exact mem_ascendingVersions_iff.2 (List.mem_map_of_mem hc)
  · obtain ⟨target, ht⟩ := exists_resolves_of_conflict? hu
    exact ht.mem_versions

theorem nodup_reports : (reports subs trunk v).Nodup := by
  rw [reports, List.nodup_append]
  refine ⟨?_, ?_, ?_⟩
  · refine List.Nodup.filterMap ?_ (nodup_copies.filter _)
    intro c d u hc hd
    obtain ⟨hv, hk, hh, -⟩ := unresolved?_eq_some_iff.1 hc
    obtain ⟨hv', hk', hh', -⟩ := unresolved?_eq_some_iff.1 hd
    obtain ⟨cv, ck, ch⟩ := c
    obtain ⟨dv, dk, dh⟩ := d
    simp only at hv hk hh hv' hk' hh'
    rw [hv, hk, hh, hv', hk', hh']
  · cases conflict? (resolved subs trunk v) <;> simp
  · -- The reason of a copy that comes to no result is never a conflict.
    rintro u hu _ hw rfl
    obtain ⟨c, hc, hu⟩ := List.mem_filterMap.1 hu
    have hfails := unresolved?_copies_iff.1 ⟨c, (List.mem_filter.1 hc).1, hu⟩
    have hconflict := isConflict_of_conflict? (Option.mem_toList.1 hw)
    rw [hfails.isConflict_eq_false] at hconflict
    cases hconflict

/-- What is left to decide is a copy that comes to no result, or copies that do not agree. -/
theorem mem_unresolved_iff {u : UnresolvedRelease} :
    u ∈ (resolveReleases subs trunk).unresolved ↔
      Fails subs trunk u.version u.source u.history u.reason ∨
        conflict? (resolved subs trunk u.version) = some u := by
  rw [unresolved_perm.mem_iff, List.mem_flatMap]
  constructor
  · rintro ⟨v, -, hu⟩
    exact (mem_reports_iff.1 hu).2
  · intro h
    have hu := mem_reports_iff.2 ⟨rfl, h⟩
    exact ⟨u.version, mem_versions_of_mem_reports hu, hu⟩

theorem nodup_unresolved : (resolveReleases subs trunk).unresolved.Nodup := by
  rw [unresolved_perm.nodup_iff, List.nodup_flatMap]
  refine ⟨fun v _ => nodup_reports, (nodup_ascendingVersions _).imp ?_⟩
  intro v v' hne u hu hu'
  exact hne ((mem_reports_iff.1 hu).1.symm.trans (mem_reports_iff.1 hu').1)

end Plan

/-! ### Version by version -/

section ByVersion

variable {subs : SortedMap Subhistory} {trunk : SortedMap CommitId} {v : Version}

/-- A planned release is the only one of its version. -/
theorem filter_releases {r : PlannedRelease} (hr : r ∈ (resolveReleases subs trunk).releases)
    (hv : r.version = v) :
    (resolveReleases subs trunk).releases.filter (fun r => decide (r.version = v)) = [r] := by
  subst hv
  refine filter_eq_singleton nodup_releases fun b => ?_
  rw [decide_eq_true_eq]
  constructor
  · rintro ⟨hb, hv⟩
    rw [mem_releases_iff, hv] at hb
    exact Option.some.inj (hb.symm.trans (mem_releases_iff.1 hr))
  · rintro rfl
    exact ⟨hr, rfl⟩

/-- A version is released exactly if a copy of it comes to a result, and all of them to the same. -/
theorem exists_release_iff :
    (∃ r ∈ (resolveReleases subs trunk).releases, r.version = v) ↔
      (∃ key target, Resolves subs trunk v key target) ∧ Agree subs trunk v := by
  constructor
  · rintro ⟨r, hr, rfl⟩
    obtain ⟨-, hr, -, agree⟩ := agreed?_resolved_iff.1 (mem_releases_iff.1 hr)
    exact ⟨⟨_, _, hr⟩, agree⟩
  · rintro ⟨⟨key, target, h⟩, agree⟩
    obtain ⟨first, hfirst⟩ :=
      Option.isSome_iff_exists.1 (List.isSome_head?.2 (List.ne_nil_of_mem (exists_mem_resolved h)))
    obtain ⟨hv, hr⟩ := mem_resolved_iff.1 (List.mem_of_head? hfirst)
    refine ⟨first, mem_releases_iff.2 ?_, hv⟩
    rw [hv]
    exact agreed?_resolved_iff.2
      ⟨hv, hr, fun key target h => source_le_of_head? hfirst (exists_mem_resolved h), agree⟩

/-- The report of copies that do not agree is the only one on a conflict of their version. -/
theorem filter_conflicts {u : UnresolvedRelease} (hu : conflict? (resolved subs trunk v) = some u) :
    (resolveReleases subs trunk).unresolved.filter
      (fun u => decide (u.version = v) && u.reason.isConflict) = [u] := by
  have hv := version_eq_of_conflict? hu
  refine filter_eq_singleton nodup_unresolved fun b => ?_
  rw [Bool.and_eq_true, decide_eq_true_eq, mem_unresolved_iff]
  constructor
  · rintro ⟨hfails | hb, hbv, hconflict⟩
    · rw [hfails.isConflict_eq_false] at hconflict
      cases hconflict
    · rw [hbv] at hb
      exact Option.some.inj (hb.symm.trans hu)
  · rintro rfl
    exact ⟨.inr (hv ▸ hu), hv, isConflict_of_conflict? hu⟩

theorem filter_conflicts_of_agree (agree : Agree subs trunk v) :
    (resolveReleases subs trunk).unresolved.filter
      (fun u => decide (u.version = v) && u.reason.isConflict) = [] := by
  rw [List.filter_eq_nil_iff]
  intro u hu
  rw [Bool.and_eq_true, decide_eq_true_eq]
  rintro ⟨rfl, hconflict⟩
  rcases mem_unresolved_iff.1 hu with hfails | hu
  · rw [hfails.isConflict_eq_false] at hconflict
    cases hconflict
  · exact not_agree_of_conflict? hu agree

/-- A copy that comes to no result is all that is left to decide under its key. -/
theorem filter_unresolved {key : String} {history : List TreeId} {reason : UnresolvedReason}
    (h : Fails subs trunk v key history reason) :
    (resolveReleases subs trunk).unresolved.filter (fun u => decide (u.source = key)) =
      [⟨v, key, reason, history⟩] := by
  refine filter_eq_singleton nodup_unresolved fun b => ?_
  rw [decide_eq_true_eq, mem_unresolved_iff]
  constructor
  · rintro ⟨hb | hb, rfl⟩
    · obtain ⟨bv, bs, br, bh⟩ := b
      obtain ⟨s, hs, hv, rfl, hr⟩ := hb
      obtain ⟨s', hs', hv', rfl, hr'⟩ := h
      obtain rfl := Option.some.inj (hs.symm.trans hs')
      obtain rfl := Option.some.inj (hv.symm.trans hv')
      obtain rfl := Resolution.unresolved.inj (hr.symm.trans hr')
      rfl
    · obtain ⟨target, ht⟩ := exists_resolves_of_conflict? hb
      exact absurd h ht.not_fails
  · rintro rfl
    exact ⟨.inl h, rfl⟩

/-- What stands in a plan stands there for a copy under its key. -/
theorem ofSource?_of_mem_unresolved {u : UnresolvedRelease}
    (hu : u ∈ (resolveReleases subs trunk).unresolved) :
    Version.ofSource? u.source = some u.version := by
  rcases mem_unresolved_iff.1 hu with ⟨s, -, hv, -⟩ | hu
  · exact hv
  · obtain ⟨target, ht⟩ := exists_resolves_of_conflict? hu
    exact ht.version_eq

/-- A plan treats every version as a whole. It is released, from the first copy, exactly if its
copies that come to a result come to the same one; otherwise there is one report that names all of
these copies. Every copy that comes to no result has a report of its own, and there is nothing else
in the plan. -/
theorem resolveReleases_by_version (subs : SortedMap Subhistory) (trunk : SortedMap CommitId)
    (v : Version) :
    let plan := resolveReleases subs trunk
    let conflicts := plan.unresolved.filter fun u => decide (u.version = v) && u.reason.isConflict
    ((∃ r ∈ plan.releases, r.version = v) ↔
      (∃ key target, Resolves subs trunk v key target) ∧ Agree subs trunk v) ∧
    (∀ r ∈ plan.releases, r.version = v →
      plan.releases.filter (fun r => decide (r.version = v)) = [r] ∧
        Resolves subs trunk v r.source (r.tree, r.trunkCommit) ∧
        ∀ key target, Resolves subs trunk v key target → r.source ≤ key) ∧
    (¬Agree subs trunk v → (∀ r ∈ plan.releases, r.version ≠ v) ∧
      ∃ first sources trees,
        conflicts = [⟨v, first, .conflictingSources (first :: sources), trees⟩] ∧
          Disputed subs trunk v (first :: sources) trees) ∧
    (Agree subs trunk v → conflicts = []) ∧
    (∀ key history reason, Fails subs trunk v key history reason →
      plan.unresolved.filter (fun u => decide (u.source = key)) = [⟨v, key, reason, history⟩]) ∧
    (∀ u ∈ plan.unresolved, u.version = v → u ∉ conflicts →
      Fails subs trunk v u.source u.history u.reason) ∧
    ∀ key, Version.ofSource? key = none →
      (∀ r ∈ plan.releases, r.source ≠ key) ∧ ∀ u ∈ plan.unresolved, u.source ≠ key ∧
        ∀ sources, u.reason = .conflictingSources sources → key ∉ sources := by
  refine ⟨exists_release_iff, ?_, ?_, filter_conflicts_of_agree,
    fun key history reason => filter_unresolved, ?_, ?_⟩
  · rintro r hr rfl
    obtain ⟨-, hresolves, hleast, -⟩ := agreed?_resolved_iff.1 (mem_releases_iff.1 hr)
    exact ⟨filter_releases hr rfl, hresolves, hleast⟩
  · intro hdisagree
    obtain ⟨first, sources, trees, hconflict, disputed⟩ := exists_conflict_of_not_agree hdisagree
    refine ⟨fun r hr hv => hdisagree (exists_release_iff.1 ⟨r, hr, hv⟩).2, first, sources, trees,
      filter_conflicts hconflict, disputed⟩
  · rintro u hu rfl hno
    rcases mem_unresolved_iff.1 hu with hfails | hconflict
    · exact hfails
    · rw [filter_conflicts hconflict, List.mem_singleton] at hno
      exact absurd rfl hno
  · intro key hnone
    refine ⟨?_, fun u hu => ⟨?_, ?_⟩⟩
    · rintro r hr rfl
      have hv := (agreed?_resolved_iff.1 (mem_releases_iff.1 hr)).2.1.version_eq
      rw [hnone] at hv
      cases hv
    · rintro rfl
      have hv := ofSource?_of_mem_unresolved hu
      rw [hnone] at hv
      cases hv
    · intro sources hreason hkey
      rcases mem_unresolved_iff.1 hu with hfails | hconflict
      · have := hfails.isConflict_eq_false
        rw [hreason] at this
        cases this
      · rw [reason_of_conflict? hconflict] at hreason
        obtain rfl := UnresolvedReason.conflictingSources.inj hreason
        obtain ⟨r, hr, rfl⟩ := List.mem_map.1 hkey
        have hv := (mem_resolved_iff.1 hr).2.version_eq
        rw [hnone] at hv
        cases hv

end ByVersion

end ReleaseRecovery
