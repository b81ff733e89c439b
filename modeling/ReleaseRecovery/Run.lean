import ReleaseRecovery.CrossReference
import ReleaseRecovery.Index.Filling
import ReleaseRecovery.Report
import ReleaseRecovery.Settings
import ReleaseRecovery.Snapshot

/-!
# Runs

A run brings the index up to date, plans the releases, and applies the plan, as far as it is to go.

## Main Definitions

* `Indexed`, `buildIndex` — bringing the index up to date
* `Outcome`, `run` — a whole run

## Design Notes

The index is saved after every batch of scanned commits and once more at the end, so an interrupted
run loses nothing that it has finished. The store is not part of the result of `buildIndex`: nothing
is written to it before the plan is applied.
-/

namespace ReleaseRecovery

/-- What bringing the index up to date comes to, and the files and the actions after it. -/
structure Indexed where
  result : Except Failure ContentIndex
  files : Files
  done : List Action

/-- What a run comes to, and the store, the files and the actions after it. -/
structure Outcome (ρ : Type) where
  result : Except Failure (Option Report)
  repo : ρ
  files : Files
  done : List Action

variable {ρ : Type} [Repository ρ]

/-- Scans what the index in hand lacks, and saves it. -/
def completeIndex (repo : ρ) (settings : Settings) (interrupt : Interrupt) (index : ContentIndex)
    (files : Files) (done : List Action) (schedule : Schedule := .inTurn) : Indexed :=
  let save := Snapshot.save settings.indexPath
  let filled :=
    fill repo settings.markers settings.checkpointEvery interrupt save index files done schedule
  match filled.result with
  | .error e => ⟨.error e, filled.saves, filled.done⟩
  | .ok _ =>
    let (saved, files) := save filled.index filled.saves
    ⟨saved.map fun _ => filled.index, files, .save :: filled.done⟩

/-- Loads the index, takes over fresh histories, scans what is new, and saves it. -/
def buildIndex (repo : ρ) (settings : Settings) (interrupt : Interrupt) (files : Files)
    (schedule : Schedule := .inTurn) : Indexed :=
  match Snapshot.load settings.indexPath files with
  | .error e => ⟨.error e, files, []⟩
  | .ok index =>
    let (histories, done) := (collect repo settings.layout).after []
    match histories with
    | .error e => ⟨.error e, files, done⟩
    | .ok histories =>
      completeIndex repo settings interrupt (index.setHistories histories) files done schedule

/-- Plans the releases of an index, and applies the plan if the run goes that far. -/
def planAndApply (settings : Settings) (interrupt : Interrupt) (now : Instant)
    (index : ContentIndex) : Writing ρ Report := do
  Writing.unlessRaised interrupt (.cancelled .plan)
  let cross ← ExceptT.mk (pure (crossReference index settings.layout.reference))
  let applied ←
    if settings.stage = .apply then do
      Writing.unlessRaised interrupt (.cancelled .apply)
      let report ← applyPlan (settings.applyOptions now) interrupt cross.plan
      pure (some report)
    else pure none
  return ⟨settings.layout.reference, cross, applied⟩

/-- A whole run. -/
def run (settings : Settings) (interrupt : Interrupt) (now : Instant) (repo : ρ) (files : Files)
    (schedule : Schedule := .inTurn) : Outcome ρ :=
  let indexed := buildIndex repo settings interrupt files schedule
  match indexed.result with
  | .error e => ⟨.error e, repo, indexed.files, indexed.done⟩
  | .ok index =>
    if settings.stage = .index then ⟨.ok none, repo, indexed.files, indexed.done⟩
    else
      let (result, session) :=
        (planAndApply settings interrupt now index).after ⟨repo, indexed.done⟩
      ⟨result.map some, session.repo, indexed.files, session.done⟩

end ReleaseRecovery
