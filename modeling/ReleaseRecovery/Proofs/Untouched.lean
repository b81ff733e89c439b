import ReleaseRecovery.Proofs.Completion
import ReleaseRecovery.Proofs.Scans
import ReleaseRecovery.Proofs.Stopping

/-!
# Stores that are left alone

A run adds to the store only while it applies its plan. If it ends before, for whatever reason, the
store is as it was. If it is asked to stop while it applies the plan, it finishes the release that
it is at and does nothing more.

## Main Definitions

* `StopsInTime` — what a run has done to the store, in view of the request to stop

## Main Statements

* `buildIndex_does` — bringing the index up to date writes nothing
* `run_stopsInTime` — all runs stop in time
-/

namespace ReleaseRecovery

variable {ρ : Type} [Repository ρ]

/-- Whether an action leaves a store as it is. -/
def Action.IsHarmless (action : Action) : Prop := action.purpose ≠ .writing

section Indexing

variable {σ : Type} (store : ρ) (markers : Markers) (interrupt : Interrupt) (schedule : Schedule)

theorem collect_asks (layout : Layout) : (collect store layout).Asks Action.IsHarmless := by
  have hlog : ∀ terminators ref, (history store terminators ref).Asks Action.IsHarmless :=
    fun terminators ref => (Reading.asks_ask nofun _).bind fun _ => .pure _
  refine (hlog [] layout.reference).bind fun reference => ?_
  refine (Reading.asks_ask nofun _).bind fun names => ?_
  exact (Reading.Asks.mapM (hlog reference.commits) _).bind fun _ => .pure _

theorem Action.isHarmless_of_readsTree {action : Action} (h : action.readsTree = true) :
    action.IsHarmless := by
  cases action with
  | entries id => nofun
  | _ => cases h

theorem scan_asks (c : CommitId) : (scan store markers c).Asks Action.IsHarmless := by
  refine (Reading.asks_ask nofun _).bind fun commit => ?_
  exact (searchTree_asks store markers _ commit.tree "/" .empty).imp
    fun action => Action.isHarmless_of_readsTree

theorem scanEach_does (batch : List CommitId) {done : List Action}
    (h : ∀ action ∈ done, action.IsHarmless) :
    ∀ action ∈ (scanEach store markers interrupt batch done).2, action.IsHarmless := by
  induction batch generalizing done with
  | nil => exact h
  | cons c rest ih =>
    have hpoll : ∀ action ∈ .poll :: done, action.IsHarmless := List.forall_mem_cons.2 ⟨nofun, h⟩
    cases hraised : interrupt.raised done with
    | true =>
      rw [scanEach_of_raised c rest hraised]
      exact hpoll
    | false =>
      rw [scanEach_cons c rest hraised]
      exact ih ((scan_asks store markers c).forall_after hpoll)

theorem fillBatches_does (save : ContentIndex → σ → Except Failure Unit × σ)
    (pending reused : Nat) (parts : List (List CommitId)) {scans : Nat} {index : ContentIndex}
    {saves : σ} {done : List Action} (h : ∀ action ∈ done, action.IsHarmless) :
    ∀ action ∈ (fillBatches store markers interrupt schedule save pending reused parts scans index
      saves done).done, action.IsHarmless := by
  induction parts generalizing scans index saves done with
  | nil => exact h
  | cons batch parts ih =>
    have hbatch : ∀ action ∈ Action.save ::
        (scanBatch store markers interrupt schedule batch done).2, action.IsHarmless :=
      List.forall_mem_cons.2 ⟨nofun, scanEach_does store markers interrupt _ h⟩
    have hpoll : ∀ action ∈ Action.poll :: .save ::
        (scanBatch store markers interrupt schedule batch done).2, action.IsHarmless :=
      List.forall_mem_cons.2 ⟨nofun, hbatch⟩
    rw [fillBatches]
    dsimp only
    split
    · exact hbatch
    split
    · exact hbatch
    split
    · exact hpoll
    · exact ih hpoll

theorem fill_does (checkpoint : Nat) (save : ContentIndex → σ → Except Failure Unit × σ)
    (index : ContentIndex) (saves : σ) {done : List Action}
    (h : ∀ action ∈ done, action.IsHarmless) :
    ∀ action ∈ (fill store markers checkpoint interrupt save index saves done schedule).done,
      action.IsHarmless :=
  fillBatches_does store markers interrupt schedule save _ _ _ h

theorem completeIndex_does (settings : Settings) (index : ContentIndex) (files : Files)
    {done : List Action} (h : ∀ action ∈ done, action.IsHarmless) :
    ∀ action ∈ (completeIndex store settings interrupt index files done schedule).done,
      action.IsHarmless := by
  have hfilled := fill_does store settings.markers interrupt schedule settings.checkpointEvery
    (Snapshot.save settings.indexPath) index files h
  rcases hfill : fill store settings.markers settings.checkpointEvery interrupt
    (Snapshot.save settings.indexPath) index files done schedule with
    ⟨e | counts, built, saves, actions⟩
  · rw [hfill] at hfilled
    rw [completeIndex_of_error hfill]
    exact hfilled
  · rw [hfill] at hfilled
    rw [completeIndex_of_ok hfill]
    exact List.forall_mem_cons.2 ⟨nofun, hfilled⟩

/-- Bringing the index up to date writes nothing to the store. -/
theorem buildIndex_does (settings : Settings) (files : Files) :
    ∀ action ∈ (buildIndex store settings interrupt files schedule).done, action.IsHarmless := by
  have hcollect := (collect_asks store settings.layout).forall_after (List.forall_mem_nil _)
  unfold buildIndex
  cases Snapshot.load settings.indexPath files with
  | error e => nofun
  | ok index =>
    dsimp only
    cases ((collect store settings.layout).after []).1 with
    | error e => exact hcollect
    | ok histories =>
      exact completeIndex_does store interrupt schedule settings _ files hcollect

end Indexing

/-! ### Stopping -/

section Stopping

variable {settings : Settings} {interrupt : Interrupt} {now : Instant} {index : ContentIndex}

/-- Only a run that is to apply its plan adds to the store. -/
theorem planAndApply_of_stage (hstage : settings.stage ≠ .apply) (s : Session ρ) :
    ((planAndApply settings interrupt now index).after s).2 = s.polled := by
  cases hcross : crossReference index settings.layout.reference with
  | error e => rw [after_planAndApply_of_error hcross]
  | ok x =>
    rw [planAndApply_of_ok hcross, Writing.after_unlessRaised_bind]
    rw [if_neg hstage]
    split
    · rfl
    · rfl

/-- If the run is asked to stop before it looks at the request for the third time, it adds nothing
to the store. -/
theorem repo_planAndApply_of_raised {s : Session ρ}
    (h : interrupt.raised s.polled.polled.done = true) :
    ((planAndApply settings interrupt now index).after s).2.repo = s.repo := by
  cases hcross : crossReference index settings.layout.reference with
  | error e => rw [after_planAndApply_of_error hcross, Session.repo_polled]
  | ok x =>
    rw [planAndApply_of_ok hcross, Writing.after_unlessRaised_bind]
    split
    · rfl
    split
    · rw [Writing.after_unlessRaised_bind]
      split
      · rfl
      · rw [Writing.session_bind_pure, repo_applyPlan_of_raised x.plan h]
        rfl
    · rfl

theorem obeys_planAndApply (settings : Settings) (interrupt : Interrupt) (now : Instant)
    (index : ContentIndex) (start : List Action) :
    (planAndApply settings interrupt now index : Writing ρ Report).Preserves
      (Session.Obeys interrupt start) := by
  cases hcross : crossReference index settings.layout.reference with
  | error e =>
    intro s hs
    rw [after_planAndApply_of_error hcross]
    exact hs.polled
  | ok x =>
    have hpolled : ∀ s : Session ρ, s.Obeys interrupt start → s.polled.Obeys interrupt start :=
      fun _ => Session.Obeys.polled
    rw [planAndApply_of_ok hcross]
    refine (Writing.preserves_unlessRaised hpolled _ _).bind fun _ => ?_
    split
    · refine (Writing.preserves_unlessRaised hpolled _ _).bind fun _ => ?_
      exact (obeys_applyPlan _ _ _ _).bind fun _ => .pure _
    · exact .pure _

/-- What a run has done to the store, in view of the request to stop. -/
structure StopsInTime (settings : Settings) (interrupt : Interrupt) (now : Instant) (repo : ρ)
    (indexed : Indexed) (outcome : Outcome ρ) : Prop where
  /-- Nothing is written while the index is brought up to date. -/
  harmless : ∀ action ∈ indexed.done, action.IsHarmless
  /-- A run that is not to apply its plan leaves the store. -/
  stage : settings.stage ≠ .apply → outcome.repo = repo
  /-- So does a run that fails to load, collect, scan or save, or is stopped while it scans. -/
  indexing : ∀ e, indexed.result = .error e → outcome.result = .error e ∧ outcome.repo = repo
  planning : ∀ index e, indexed.result = .ok index →
    crossReference index settings.layout.reference = .error e → outcome.repo = repo
  /-- So does a run that fails for a reason of its own, unless it was applying its plan. -/
  own : ∀ e, outcome.result = .error e → e.isOfRun = true →
    (∀ completed remaining, e ≠ .interrupted .apply completed remaining) →
    outcome.repo = repo ∨ IsRefusal ρ .writing e
  /-- So does a run that is asked to stop before it looks at the request ahead of its first release:
  it has then done nothing since the index is up to date but to look before it planned, and before
  it began to apply the plan. -/
  early : ∀ moment, moment <:+ .poll :: .poll :: indexed.done → interrupt.raised moment = true →
    outcome.repo = repo
  /-- Once a run that applies its plan is asked to stop, it does nothing but to finish the release,
  or the branch, that it was writing. -/
  obeys : Obeys interrupt indexed.done outcome.done
  /-- A run that was stopped while it applied its plan has applied the first releases of the plan,
  as many as it says, and has done nothing after that but to look at the request. -/
  interrupted : ∀ completed remaining,
    outcome.result = .error (.interrupted .apply completed remaining) →
    (∃ index x p moment, indexed.result = .ok index ∧
        crossReference index settings.layout.reference = .ok x ∧
        completed ≤ x.plan.ordered.length ∧ remaining = x.plan.ordered.length - completed ∧
        ((x.plan.ordered.take completed).foldlM
          (applyRelease (settings.applyOptions now) .never x.plan.ordered.length)
          Progress.start).after ⟨repo, .poll :: .poll :: indexed.done⟩ =
            (.ok p, ⟨outcome.repo, moment⟩) ∧
        interrupt.raised moment = true ∧ outcome.done = .poll :: moment) ∨
      ∃ purpose, IsRefusal ρ purpose (.interrupted .apply completed remaining)

/-- All runs stop in time. What a run says about itself is never a refusal of one of the stores of
this library. -/
theorem run_stopsInTime (settings : Settings) (interrupt : Interrupt) (now : Instant) (repo : ρ)
    (files : Files) (schedule : Schedule) :
    StopsInTime settings interrupt now repo (buildIndex repo settings interrupt files schedule)
        (run settings interrupt now repo files schedule) ∧
      (AnswersPlainly ρ → ∀ purpose e, e.isOfRun = true → ¬ IsRefusal ρ purpose e) ∧
      AnswersPlainly Memory ∧ AnswersPlainly Git.Store := by
  refine ⟨?_, fun plain _ _ => plain.not_isRefusal, Memory.answersPlainly, Git.Store.answersPlainly⟩
  have hcases := run_cases settings interrupt now repo files schedule
  constructor
  case harmless => exact buildIndex_does repo interrupt schedule settings files
  case stage =>
    intro hstage
    rcases hcases with ⟨hrepo, -⟩ | ⟨index, -, -, hrepo, -⟩
    · exact hrepo
    · rw [hrepo, planAndApply_of_stage hstage, Session.repo_polled]
  case indexing =>
    intro e h
    rw [run_of_error h]
    exact ⟨rfl, rfl⟩
  case planning =>
    intro index e hindex hcross
    rcases hcases with ⟨hrepo, -⟩ | ⟨index', hindex', -, hrepo, -⟩
    · exact hrepo
    · obtain rfl := Except.ok.inj (hindex.symm.trans hindex')
      rw [hrepo, after_planAndApply_of_error hcross, Session.repo_polled]
  case own =>
    intro e h hown hstopped
    rcases run_error h with ⟨hrepo, -⟩ | ⟨completed, remaining, he⟩ | hrefusal
    · exact .inl hrepo
    · exact absurd he (hstopped completed remaining)
    · exact .inr hrefusal
  case early =>
    intro moment hmoment hraised
    rcases hcases with ⟨hrepo, -⟩ | ⟨index, -, -, hrepo, -⟩
    · exact hrepo
    · rw [hrepo, repo_planAndApply_of_raised (interrupt.raised_of_suffix hmoment hraised)]
  case obeys =>
    rcases hcases with ⟨-, hdone, -⟩ | ⟨index, -, -, -, hdone, -⟩
    · rw [hdone]
      exact .refl interrupt _
    · rw [hdone]
      exact (obeys_planAndApply settings interrupt now index _ ⟨repo, _⟩
        ⟨List.suffix_rfl, .refl interrupt _⟩).2
  case interrupted =>
    intro completed remaining h
    rcases hcases with ⟨-, -, hindex, -⟩ | ⟨index, hindex, -, hrepo, hdone, hresult⟩
    · rcases buildIndex_error (hindex _ h) with hindexing | hcollect | hscanning
      · cases hindexing
      · exact .inr ⟨.collecting, collect_failsOnly repo settings.layout [] _ hcollect⟩
      · exact .inr ⟨.scanning, hscanning⟩
    rw [hresult] at h
    rcases planAndApply_error (Prod.ext (map_eq_error_iff.1 h) rfl) with
      ⟨-, hplan | hplan | hcross⟩ | ⟨x, -, hcross, happly⟩
    · cases hplan
    · cases hplan
    · obtain ⟨x, hx⟩ := exists_crossReference_of_buildIndex hindex
      cases hx.symm.trans hcross
    · refine (interrupted_applyPlan happly).imp ?_ fun hrefusal => ⟨.writing, hrefusal⟩
      rintro ⟨hle, hremaining, p, s, happlied, hraised, hstopped⟩
      have hrepo' := hrepo.trans (congrArg Session.repo hstopped)
      have hdone' := hdone.trans (congrArg Session.done hstopped)
      rw [hrepo']
      exact ⟨index, x, p, s.done, hindex, hcross, hle, hremaining, happlied, hraised, hdone'⟩

end Stopping

end ReleaseRecovery
