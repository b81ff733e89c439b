import ReleaseRecovery.Index
import ReleaseRecovery.Install.Search

/-!
# Filling the index

The commits of an index that have no record yet are scanned in batches, and the index is saved after
each batch.

## Main Definitions

* `batches` — a list cut into parts of one size
* `Schedule` — the order in which the commits of a batch are taken up
* `scanEach`, `scanBatch` — scanning one batch
* `fillBatches`, `fill` — scanning everything that is left

## Main Statements

* `flatten_batches` — the parts make up the list

## Design Notes

A commit whose scan fails does not keep the others of its batch from being recorded and saved; the
failure is reported after that. Once the run is asked to stop no further commit is started, and what
has been finished is saved. Several workers may share a batch, so its commits can be taken up in any
order; which of them are left when the run is asked to stop depends on that order, but what came of
them is looked at in the order of the batch. Saving is a parameter, so that a save can be a file as
well as a note of what was to be saved.
-/

namespace ReleaseRecovery

/-- A list cut into parts of `size` members, the last of which may be shorter. No part is empty. -/
def batches {α : Type} (size : Nat) : List α → List (List α)
  | [] => []
  | a :: rest => (a :: rest.take (size - 1)) :: batches size (rest.drop (size - 1))
termination_by l => l.length
decreasing_by simp only [List.length_drop, List.length_cons]; omega

/-- The parts make up the list. -/
@[simp] theorem flatten_batches {α : Type} (size : Nat) (l : List α) :
    (batches size l).flatten = l := by
  fun_induction batches size l with
  | case1 => rfl
  | case2 a rest ih => simp [ih]

/-- What filling comes to: the number of commits scanned now and of those that had a record. -/
structure FillCounts where
  scanned : Nat
  reused : Nat
deriving DecidableEq

/-- Where filling ended: its result, and the index, the saves and the actions up to then. -/
structure Filled (σ : Type) where
  result : Except Failure FillCounts
  index : ContentIndex
  saves : σ
  done : List Action

/-- The order in which the commits of a batch are taken up. -/
structure Schedule where
  order : List CommitId → List CommitId
  perm : ∀ batch, (order batch).Perm batch

/-- The commits are taken up in the order of the batch, as one worker does it. -/
def Schedule.inTurn : Schedule := ⟨id, .refl⟩

variable {ρ σ : Type} [Repository ρ]

/-- Scans commits one after the other, until the run is asked to stop. Once a look has found the
request to stand, the looks that are due before the other commits would find the same. -/
def scanEach (repo : ρ) (markers : Markers) (interrupt : Interrupt) :
    List CommitId → List Action → List (CommitId × Except Failure InstallRecord) × List Action
  | [], done => ([], done)
  | c :: rest, done =>
    if interrupt.raised done then ([], .poll :: done)
    else
      let (result, done) := (scan repo markers c).after (.poll :: done)
      let (results, done) := scanEach repo markers interrupt rest done
      ((c, result) :: results, done)

/-- Scans the commits of a batch, until the run is asked to stop. What came of them is in the order
of the batch. -/
def scanBatch (repo : ρ) (markers : Markers) (interrupt : Interrupt) (schedule : Schedule)
    (batch : List CommitId) (done : List Action) :
    List (CommitId × Except Failure InstallRecord) × List Action :=
  let (results, done) := scanEach repo markers interrupt (schedule.order batch) done
  (batch.filterMap fun c => results.find? fun r => r.1 == c, done)

/-- Adds the records of a batch to the index. -/
def ContentIndex.addResults (index : ContentIndex)
    (results : List (CommitId × Except Failure InstallRecord)) : ContentIndex :=
  results.foldl
    (fun index r =>
      match r.2 with
      | .ok record => index.addRecord r.1 record
      | .error _ => index)
    index

/-- The number of commits of a batch that were scanned. -/
def scannedCount (results : List (CommitId × Except Failure InstallRecord)) : Nat :=
  results.countP fun r => r.2.isOk

/-- The first failure of a batch. -/
def firstFailure? (results : List (CommitId × Except Failure InstallRecord)) : Option Failure :=
  results.findSome? fun r =>
    match r.2 with
    | .ok _ => none
    | .error e => some e

/-- Scans batches one after the other. `pending` commits are without a record at the start,
`scanned` of which have been scanned already, and `reused` commits had a record. -/
def fillBatches (repo : ρ) (markers : Markers) (interrupt : Interrupt) (schedule : Schedule)
    (save : ContentIndex → σ → Except Failure Unit × σ) (pending reused : Nat) :
    List (List CommitId) → Nat → ContentIndex → σ → List Action → Filled σ
  | [], scanned, index, saves, done => ⟨.ok ⟨scanned, reused⟩, index, saves, done⟩
  | batch :: rest, scanned, index, saves, done =>
    let (results, done) := scanBatch repo markers interrupt schedule batch done
    let index := index.addResults results
    let scanned := scanned + scannedCount results
    let (saved, saves) := save index saves
    let done := .save :: done
    match saved with
    | .error e => ⟨.error e, index, saves, done⟩
    | .ok _ =>
      match firstFailure? results with
      | some e => ⟨.error e, index, saves, done⟩
      | none =>
        if interrupt.raised done then
          ⟨.error (.interrupted .scan scanned (pending - scanned)), index, saves, .poll :: done⟩
        else
          fillBatches repo markers interrupt schedule save pending reused rest scanned index saves
            (.poll :: done)

/-- Scans every commit of the index that has no record, `checkpoint` of them at a time. -/
def fill (repo : ρ) (markers : Markers) (checkpoint : Nat) (interrupt : Interrupt)
    (save : ContentIndex → σ → Except Failure Unit × σ) (index : ContentIndex) (saves : σ)
    (done : List Action) (schedule : Schedule := .inTurn) : Filled σ :=
  let pending := index.unscanned
  fillBatches repo markers interrupt schedule save pending.length
    (index.uniqueCommits - pending.length) (batches checkpoint pending) 0 index saves done

end ReleaseRecovery
