import ReleaseRecovery.Proofs.Applying
import ReleaseRecovery.Proofs.Placing

/-!
# What is reported

A store that places its refs has every ref that is reported, and a ref that is reported as new was
not there before.

## Main Definitions

* `IsReported` — a ref is reported as it is

## Main Statements

* `reported_applyRelease` — every release adds one ref to the report
* `reported_applyPlan` — all refs are reported as they are in the end
-/

namespace ReleaseRecovery

/-- A reported ref is there afterwards, and it was not there before if it is new. -/
structure IsReported (old new : SortedMap CommitId) (start : String) (t : RefOutcome) : Prop where
  there : new.get? (start ++ t.name) = some t.commit
  created : t.created = true → old.get? (start ++ t.name) = none

namespace IsReported

variable {old mid new : SortedMap CommitId} {start : String} {t : RefOutcome}

/-- What is told of a ref that has been placed. -/
theorem of_place {name : String} {target : CommitId} {u : RefUpdate}
    (h : (.ok u, new) = place old (start ++ name) target) :
    IsReported old new start ⟨name, target, u == .created⟩ := by
  have hok : (place old (start ++ name) target).1 = .ok u := by rw [← h]
  obtain ⟨hthere, hcreated⟩ := get?_place hok
  rw [← h] at hthere
  exact ⟨hthere, fun hu => hcreated (by simpa using hu)⟩

/-- What was reported is still so when more refs have been placed. -/
theorem later (h : IsReported old mid start t) (hkeeps : KeepsRefs mid new) :
    IsReported old new start t :=
  ⟨hkeeps _ _ h.there, h.created⟩

/-- What was not there in between was not there before. -/
theorem earlier (h : IsReported mid new start t) (hkeeps : KeepsRefs old mid) :
    IsReported old new start t := by
  refine ⟨h.there, fun hcreated => ?_⟩
  cases hold : old.get? (start ++ t.name) with
  | none => rfl
  | some c =>
    have hmid := hkeeps _ _ hold
    rw [h.created hcreated] at hmid
    cases hmid

end IsReported

section Applying

variable {ρ : Type} [Repository ρ] {refs : ρ → SortedMap CommitId} {options : ApplyOptions}
  {interrupt : Interrupt} {total : Nat} {s s' : Session ρ}

namespace PlacesRefs

variable {name : String} {target : CommitId} {x : Except Failure RefUpdate}

theorem after_createTag (h : PlacesRefs refs)
    (hrun : (Writing.createTag name target).after s = (x, s')) :
    (x, refs s'.repo) = place (refs s.repo) ("refs/tags/" ++ name) target := by
  obtain ⟨rfl, rfl⟩ := Prod.mk.inj hrun
  exact h.createTag s.repo name target

theorem after_createBranch (h : PlacesRefs refs)
    (hrun : (Writing.createBranch name target).after s = (x, s')) :
    (x, refs s'.repo) = place (refs s.repo) ("refs/heads/" ++ name) target := by
  obtain ⟨rfl, rfl⟩ := Prod.mk.inj hrun
  exact h.createBranch s.repo name target

/-- To find the commit of a release touches no ref. -/
theorem refs_commitFor (h : PlacesRefs refs) (options : ApplyOptions) (last : Option CommitId)
    (r : PlannedRelease) (s : Session ρ) :
    refs ((commitFor options last r).after s).2.repo = refs s.repo := by
  unfold commitFor
  cases r.trunkCommit with
  | some commit => rfl
  | none => exact h.createCommit s.repo _

end PlacesRefs

/-- Applying a release keeps all refs, and reports one more. -/
theorem reported_applyRelease (h : PlacesRefs refs) {p p' : Progress} {r : PlannedRelease}
    (hrun : (applyRelease options interrupt total p r).after s = (.ok p', s')) :
    KeepsRefs (refs s.repo) (refs s'.repo) ∧
      ∃ t, p'.tags = p.tags ++ [t] ∧ IsReported (refs s.repo) (refs s'.repo) "refs/tags/" t := by
  obtain ⟨commit, s₁, update, hcommit, htag, rfl⟩ := applyRelease_eq_ok hrun
  have hsame := h.refs_commitFor options p.last r s.polled
  rw [hcommit, Session.repo_polled] at hsame
  have hplace := h.after_createTag htag
  rw [hsame] at hplace
  refine ⟨?_, _, Progress.tags_add .., .of_place hplace⟩
  have hkeeps := keepsRefs_place (refs s.repo) ("refs/tags/" ++ options.tagName r.version) commit
  rwa [← hplace] at hkeeps

/-- Applying a plan keeps all refs, and reports refs as they are in the end. -/
theorem reported_applyPlan (h : PlacesRefs refs) {plan : ReleasePlan} {report : ApplyReport}
    (hrun : (applyPlan options interrupt plan).after s = (.ok report, s')) :
    KeepsRefs (refs s.repo) (refs s'.repo) ∧
      (∀ t ∈ report.tags, IsReported (refs s.repo) (refs s'.repo) "refs/tags/" t) ∧
      ∀ t ∈ report.legacyBranch, IsReported (refs s.repo) (refs s'.repo) "refs/heads/" t := by
  obtain ⟨p, s₁, branch, hreleases, hbranch, rfl⟩ := applyPlan_eq_ok hrun
  have hinv : KeepsRefs (refs s.repo) (refs s₁.repo) ∧
      ∀ t ∈ p.tags, IsReported (refs s.repo) (refs s₁.repo) "refs/tags/" t := by
    refine Writing.foldlM_invariant (P := fun _ (p : Progress) (s₁ : Session ρ) =>
      KeepsRefs (refs s.repo) (refs s₁.repo) ∧
        ∀ t ∈ p.tags, IsReported (refs s.repo) (refs s₁.repo) "refs/tags/" t) ?_ ?_ hreleases
    · rintro - r p s₁ p' s₂ ⟨hkeeps, hreported⟩ hstep
      obtain ⟨hkeeps', t, htags, ht⟩ := reported_applyRelease h hstep
      refine ⟨hkeeps.trans hkeeps', fun t' ht' => ?_⟩
      rw [htags, List.mem_append, List.mem_singleton] at ht'
      rcases ht' with ht' | rfl
      · exact (hreported t' ht').later hkeeps'
      · exact ht.earlier hkeeps
    · exact ⟨.refl _, nofun⟩
  rcases applyBranch_eq_ok hbranch with ⟨-, rfl, rfl⟩ | ⟨commit, update, -, hplaced, rfl⟩
  · exact ⟨hinv.1, hinv.2, nofun⟩
  · have hplace := h.after_createBranch hplaced
    rw [Session.repo_polled] at hplace
    have hkeeps := keepsRefs_place (refs s₁.repo) ("refs/heads/" ++ options.legacyBranch) commit
    rw [← hplace] at hkeeps
    refine ⟨hinv.1.trans hkeeps, fun t ht => (hinv.2 t ht).later hkeeps, ?_⟩
    rintro t ⟨⟩
    exact (IsReported.of_place hplace).earlier hinv.1

end Applying

end ReleaseRecovery
