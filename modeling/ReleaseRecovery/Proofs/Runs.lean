import ReleaseRecovery.Proofs.Calculations
import ReleaseRecovery.Proofs.Writings
import ReleaseRecovery.Run

/-!
# The last part of a run

Once the index is up to date, a run plans and, if it goes that far, applies the plan. This last part
alone adds to the store, and it adds what applying the plan adds.

## Main Statements

* `planAndApply_of_ok` — what follows once the plan is there
* `after_planAndApply_of_error` — what a plan that cannot be made comes to
* `planAndApply_eq_ok` — what a run that applies its plan has done
* `run_cases` — what a run does to the store
* `files_run` — what it does to the files
* `run_eq` — a run comes to a report if all of its parts succeed
* `exists_planAndApply_of_run` — what a run with a report has done
-/

namespace ReleaseRecovery

variable {ρ : Type} [Repository ρ] {settings : Settings} {interrupt : Interrupt} {now : Instant}
  {index : ContentIndex}

/-- If the plan cannot be made, nothing is done but to look at the request to stop. -/
theorem after_planAndApply_of_error {e : Failure}
    (h : crossReference index settings.layout.reference = .error e) (s : Session ρ) :
    (planAndApply settings interrupt now index).after s =
      (.error (if interrupt.raised s.done then .cancelled .plan else e), s.polled) := by
  unfold planAndApply
  rw [h, Writing.after_unlessRaised_bind]
  split <;> rfl

/-- Once the plan is there, it is applied if the run goes that far. -/
theorem planAndApply_of_ok {x : CrossReference}
    (h : crossReference index settings.layout.reference = .ok x) :
    (planAndApply settings interrupt now index : Writing ρ Report) = do
      Writing.unlessRaised interrupt (.cancelled .plan)
      if settings.stage = .apply then
        Writing.unlessRaised interrupt (.cancelled .apply)
        let report ← applyPlan (settings.applyOptions now) interrupt x.plan
        return ⟨settings.layout.reference, x, some report⟩
      else return ⟨settings.layout.reference, x, none⟩ := by
  have hcross : (ExceptT.mk (pure (crossReference index settings.layout.reference)) :
      Writing ρ CrossReference) = pure x := by
    rw [h]
    rfl
  unfold planAndApply
  simp only [hcross, pure_bind]

/-- A run that has applied its plan has made the plan from the index and has applied it to the store
as it was, after two looks at the request to stop. -/
theorem planAndApply_eq_ok (hstage : settings.stage = .apply) {s s' : Session ρ} {report : Report}
    (h : (planAndApply settings interrupt now index).after s = (.ok report, s')) :
    ∃ x applied, crossReference index settings.layout.reference = .ok x ∧
      (applyPlan (settings.applyOptions now) interrupt x.plan).after s.polled.polled =
        (.ok applied, s') ∧
      report = ⟨settings.layout.reference, x, some applied⟩ := by
  cases hcross : crossReference index settings.layout.reference with
  | error e =>
    unfold planAndApply at h
    rw [hcross] at h
    obtain ⟨_, _, -, h⟩ := Writing.after_bind_eq_ok_iff.1 h
    obtain ⟨_, _, hnone, -⟩ := Writing.after_bind_eq_ok_iff.1 h
    cases hnone
  | ok x =>
    rw [planAndApply_of_ok hcross, if_pos hstage] at h
    obtain ⟨_, s₁, hfirst, h₁⟩ := Writing.after_bind_eq_ok_iff.1 h
    obtain ⟨_, s₂, hsecond, h₂⟩ := Writing.after_bind_eq_ok_iff.1 h₁
    obtain ⟨applied, s₃, happly, h₃⟩ := Writing.after_bind_eq_ok_iff.1 h₂
    obtain rfl : s.polled = s₁ := (Prod.mk.inj hfirst).2
    obtain rfl : s.polled.polled = s₂ := (Prod.mk.inj hsecond).2
    rw [Writing.after_pure, Prod.mk.injEq, Except.ok.injEq] at h₃
    obtain ⟨hreport, rfl⟩ := h₃
    exact ⟨x, applied, rfl, happly, hreport.symm⟩

/-! ### Whole runs -/

/-- A run whose index cannot be brought up to date ends with that. -/
theorem run_of_error {repo : ρ} {files : Files} {schedule : Schedule} {e : Failure}
    (h : (buildIndex repo settings interrupt files schedule).result = .error e) :
    run settings interrupt now repo files schedule =
      ⟨.error e, repo, (buildIndex repo settings interrupt files schedule).files,
        (buildIndex repo settings interrupt files schedule).done⟩ := by
  unfold run
  dsimp only
  rw [h]

/-- A run leaves the store as it is and comes to no report, unless it plans from an index that it
has brought up to date. -/
theorem run_cases (settings : Settings) (interrupt : Interrupt) (now : Instant) (repo : ρ)
    (files : Files) (schedule : Schedule) :
    let indexed := buildIndex repo settings interrupt files schedule
    let outcome := run settings interrupt now repo files schedule
    (outcome.repo = repo ∧ outcome.done = indexed.done ∧
        (∀ e, outcome.result = .error e → indexed.result = .error e) ∧
        ∀ report, outcome.result ≠ .ok (some report)) ∨
      ∃ index, indexed.result = .ok index ∧ settings.stage ≠ .index ∧
        let planned := (planAndApply settings interrupt now index).after ⟨repo, indexed.done⟩
        outcome.repo = planned.2.repo ∧ outcome.done = planned.2.done ∧
          outcome.result = planned.1.map some := by
  intro indexed outcome
  cases hindex : indexed.result with
  | error e =>
    have houtcome : outcome = ⟨.error e, repo, indexed.files, indexed.done⟩ := run_of_error hindex
    rw [houtcome]
    exact .inl ⟨rfl, rfl, fun _ h => congrArg _ (Except.error.inj h), nofun⟩
  | ok index =>
    have houtcome : outcome =
        if settings.stage = .index then ⟨.ok none, repo, indexed.files, indexed.done⟩
        else
          let planned := (planAndApply settings interrupt now index).after ⟨repo, indexed.done⟩
          ⟨planned.1.map some, planned.2.repo, indexed.files, planned.2.done⟩ := by
      unfold outcome run
      dsimp only
      rw [hindex]
    rw [houtcome]
    split
    · exact .inl ⟨rfl, rfl, nofun, nofun⟩
    · rename_i hstage
      exact .inr ⟨index, rfl, hstage, rfl, rfl, rfl⟩

/-- Only bringing the index up to date changes files. -/
theorem files_run (settings : Settings) (interrupt : Interrupt) (now : Instant) (repo : ρ)
    (files : Files) (schedule : Schedule) :
    (run settings interrupt now repo files schedule).files =
      (buildIndex repo settings interrupt files schedule).files := by
  unfold run
  dsimp only
  split
  · rfl
  split
  · rfl
  · rfl

/-- A run that nobody asks to stop comes to a report if all of its parts succeed. -/
theorem run_eq (now : Instant) {repo : ρ} {files : Files} {schedule : Schedule}
    {x : CrossReference} {applied : ApplyReport} {s' : Session ρ} (hstage : settings.stage = .apply)
    (hindex : (buildIndex repo settings .never files schedule).result = .ok index)
    (hcross : crossReference index settings.layout.reference = .ok x)
    (happly : (applyPlan (settings.applyOptions now) .never x.plan).after
      ⟨repo, .poll :: .poll :: (buildIndex repo settings .never files schedule).done⟩ =
        (.ok applied, s')) :
    run settings .never now repo files schedule =
      ⟨.ok (some ⟨settings.layout.reference, x, some applied⟩), s'.repo,
        (buildIndex repo settings .never files schedule).files, s'.done⟩ := by
  rcases hbuild : buildIndex repo settings .never files schedule with ⟨result, files', done⟩
  rw [hbuild] at hindex happly
  obtain rfl : result = .ok index := hindex
  have hstage' : settings.stage ≠ .index := by
    rw [hstage]
    decide
  have hplan : (planAndApply settings .never now index).after ⟨repo, done⟩ =
      (.ok ⟨settings.layout.reference, x, some applied⟩, s') := by
    rw [planAndApply_of_ok hcross, if_pos hstage,
      Writing.after_bind_of_ok (Writing.after_unlessRaised_never _ _),
      Writing.after_bind_of_ok (Writing.after_unlessRaised_never _ _)]
    exact Writing.after_bind_of_ok happly _
  unfold run
  dsimp only
  rw [hbuild]
  dsimp only
  rw [if_neg hstage', hplan]
  rfl

/-- The report of such a run. -/
theorem run_eq_ok (now : Instant) {repo : ρ} {files : Files} {schedule : Schedule}
    {x : CrossReference} {applied : ApplyReport} {s' : Session ρ} (hstage : settings.stage = .apply)
    (hindex : (buildIndex repo settings .never files schedule).result = .ok index)
    (hcross : crossReference index settings.layout.reference = .ok x)
    (happly : (applyPlan (settings.applyOptions now) .never x.plan).after
      ⟨repo, .poll :: .poll :: (buildIndex repo settings .never files schedule).done⟩ =
        (.ok applied, s')) :
    (run settings .never now repo files schedule).result =
      .ok (some ⟨settings.layout.reference, x, some applied⟩) :=
  congrArg Outcome.result (run_eq now hstage hindex hcross happly)

/-- A run that comes to a report has brought its index up to date, and the report is that of the
last part. -/
theorem exists_planAndApply_of_run {repo : ρ} {files : Files} {schedule : Schedule}
    {report : Report}
    (h : (run settings interrupt now repo files schedule).result = .ok (some report)) :
    ∃ index s', (buildIndex repo settings interrupt files schedule).result = .ok index ∧
      (planAndApply settings interrupt now index).after
          ⟨repo, (buildIndex repo settings interrupt files schedule).done⟩ = (.ok report, s') ∧
      (run settings interrupt now repo files schedule).repo = s'.repo := by
  rcases run_cases settings interrupt now repo files schedule with
    ⟨-, -, -, hnone⟩ | ⟨index, hindex, -, hrepo, -, hresult⟩
  · exact absurd h (hnone report)
  · rw [hresult] at h
    obtain ⟨report', hreport, hsome⟩ := map_eq_ok_iff.1 h
    obtain rfl := Option.some.inj hsome
    exact ⟨index, _, hindex, Prod.ext hreport rfl, hrepo⟩

end ReleaseRecovery
