import ReleaseRecovery.Apply
import ReleaseRecovery.Proofs.Planning
import ReleaseRecovery.Proofs.Versions

/-!
# Plans in ascending order

A plan lists every version that it releases once, and in ascending order; what it leaves to decide
is in ascending order of version and key, and nothing stands under one key twice.

## Main Definitions

* `UnresolvedRelease.Before` — the strict order of what is left to decide

## Main Statements

* `ascending_releases`, `ascending_unresolved` — the two lists of a plan are strictly ascending
* `ordered_resolveReleases` — a plan is applied in the order in which it lists its releases
-/

namespace ReleaseRecovery

/-- Of two releases that are left to decide, one has the lesser version, or the same version and the
lesser key. -/
def UnresolvedRelease.Before (a b : UnresolvedRelease) : Prop :=
  a.version < b.version ∨ (a.version = b.version ∧ a.source < b.source)

theorem pairwise_ascendingVersions (vs : List Version) :
    (ascendingVersions vs).Pairwise (· < ·) := by
  have hle : (ascendingVersions vs).Pairwise (· ≤ ·) := Version.pairwise_mergeSort id vs.eraseDups
  exact (hle.and (nodup_ascendingVersions vs)).imp fun h => Version.lt_of_le_of_ne h.1 h.2

namespace UnresolvedRelease

variable {a b c : UnresolvedRelease}

theorem notAfter_iff :
    a.notAfter b = true ↔ a.version < b.version ∨ (a.version = b.version ∧ a.source ≤ b.source) :=
  decide_eq_true_iff

theorem notAfter_trans (h : a.notAfter b = true) (h' : b.notAfter c = true) :
    a.notAfter c = true := by
  rw [notAfter_iff] at h h' ⊢
  rcases h with h | ⟨h, hs⟩
  · rcases h' with h' | ⟨h', -⟩
    · exact .inl (Version.lt_trans h h')
    · exact .inl (h' ▸ h)
  · rw [h]
    exact h'.imp_right fun h' => ⟨h'.1, String.le_trans hs h'.2⟩

theorem notAfter_total (a b : UnresolvedRelease) : (a.notAfter b || b.notAfter a) = true := by
  rw [Bool.or_eq_true, notAfter_iff, notAfter_iff]
  by_cases h : a.version = b.version
  · rcases String.le_total a.source b.source with hs | hs
    · exact .inl (.inr ⟨h, hs⟩)
    · exact .inr (.inr ⟨h.symm, hs⟩)
  · rcases Version.le_total a.version b.version with hv | hv
    · exact .inl (.inl (Version.lt_of_le_of_ne hv h))
    · exact .inr (.inl (Version.lt_of_le_of_ne hv fun e => h e.symm))

theorem pairwise_mergeSort (l : List UnresolvedRelease) :
    (l.mergeSort notAfter).Pairwise fun a b => a.notAfter b = true := by
  refine List.pairwise_mergeSort ?_ notAfter_total l
  intro a b c
  exact notAfter_trans

theorem before_of_notAfter (h : a.notAfter b = true)
    (hne : ¬(a.version = b.version ∧ a.source = b.source)) : a.Before b := by
  rcases notAfter_iff.1 h with h | ⟨hv, hs⟩
  · exact .inl h
  · refine .inr ⟨hv, String.not_le.1 fun hge => hne ⟨hv, String.le_antisymm hs hge⟩⟩

end UnresolvedRelease

section Plan

variable {subs : SortedMap Subhistory} {trunk : SortedMap CommitId}

/-- A plan lists the versions that it releases in strictly ascending order. -/
theorem ascending_releases :
    (resolveReleases subs trunk).releases.Pairwise fun a b => a.version < b.version := by
  rw [resolveReleases_releases]
  refine List.pairwise_filterMap.2 ((pairwise_ascendingVersions _).imp ?_)
  intro v w hvw a ha b hb
  rwa [version_eq_of_agreed? ha, version_eq_of_agreed? hb]

/-- The releases of a plan, from the versions in order. -/
theorem releases_of_versions {vs : List Version}
    (hversions : ((copies subs).map (·.version)).eraseDups = vs) (hvs : vs.Pairwise (· ≤ ·)) :
    (resolveReleases subs trunk).releases =
      vs.filterMap fun v => agreed? (resolved subs trunk v) := by
  have hsorted : vs.mergeSort (fun a b => decide (a ≤ b)) = vs :=
    List.mergeSort_of_pairwise (hvs.imp decide_eq_true)
  rw [resolveReleases_releases, ascendingVersions, hversions, Version.sort, hsorted]

/-- What is left to decide is told by its version and its key. -/
theorem eq_of_mem_unresolved {a b : UnresolvedRelease}
    (ha : a ∈ (resolveReleases subs trunk).unresolved)
    (hb : b ∈ (resolveReleases subs trunk).unresolved) (hv : a.version = b.version)
    (hs : a.source = b.source) : a = b := by
  rcases mem_unresolved_iff.1 ha with hfails | hconflict
  · -- Under the key of a copy that comes to no result nothing else is reported.
    have hfilter := filter_unresolved hfails
    have hmem : ∀ u ∈ (resolveReleases subs trunk).unresolved, u.source = a.source →
        u = ⟨a.version, a.source, a.reason, a.history⟩ := by
      intro u hu hsource
      rw [← List.mem_singleton, ← hfilter, List.mem_filter]
      exact ⟨hu, decide_eq_true hsource⟩
    rw [hmem b hb hs.symm]
  · rcases mem_unresolved_iff.1 hb with hfails | hconflict'
    · obtain ⟨target, ht⟩ := exists_resolves_of_conflict? hconflict
      rw [hv, hs] at ht
      exact absurd hfails ht.not_fails
    · rw [hv, hconflict'] at hconflict
      exact (Option.some.inj hconflict).symm

/-- What is left to decide is in strictly ascending order of version and key. -/
theorem ascending_unresolved :
    (resolveReleases subs trunk).unresolved.Pairwise UnresolvedRelease.Before := by
  have hsorted : (resolveReleases subs trunk).unresolved.Pairwise
      fun a b => a.notAfter b = true :=
    UnresolvedRelease.pairwise_mergeSort _
  refine ((hsorted.and nodup_unresolved).imp_of_mem ?_)
  intro a b ha hb h
  refine UnresolvedRelease.before_of_notAfter h.1 fun hsame => h.2 ?_
  exact eq_of_mem_unresolved ha hb hsame.1 hsame.2

/-- A plan is applied in the order in which it lists its releases. -/
theorem ordered_resolveReleases :
    (resolveReleases subs trunk).ordered = (resolveReleases subs trunk).releases :=
  List.mergeSort_of_pairwise
    (ascending_releases.imp fun h => decide_eq_true (Version.le_of_lt h))

end Plan

end ReleaseRecovery
