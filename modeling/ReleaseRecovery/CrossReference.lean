import ReleaseRecovery.Failure
import ReleaseRecovery.Index
import ReleaseRecovery.Plan

/-!
# Cross-referencing

From the content index to the release plan: the contents of every copied directory are looked up on
the reference line.

## Main Definitions

* `ContentIndex.record` — the record of a commit that a history mentions
* `referenceIndex` — the commits of the reference line by the contents of their top directory
* `observations` — every copied directory of every commit, in the order of the histories
* `subhistories` — the subhistory of every copied directory
* `CrossReference`, `crossReference` — all of it together

## Design Notes

Several commits of the reference line can have the same contents; the oldest of them counts. A
copied directory is known by the name of its ref followed by its path.
-/

namespace ReleaseRecovery

/-- The subhistories of all copied directories, and the plan that follows from them. -/
structure CrossReference where
  subhistories : SortedMap Subhistory
  plan : ReleasePlan
deriving DecidableEq

instance : Inhabited CrossReference := ⟨⟨.empty, default⟩⟩

/-- The record of a commit that the history of a ref mentions. -/
def ContentIndex.record (index : ContentIndex) (ref : String) (commit : CommitId) :
    Except Failure InstallRecord :=
  match index.records.get? commit with
  | some r => .ok r
  | none => .error (.missingScan commit ref)

/-- The contents of the top directory of every commit of a ref that has a full install there, with
that commit. -/
def rootInstalls (index : ContentIndex) (ref : String) (commits : List CommitId) :
    Except Failure (List (TreeId × CommitId)) := do
  let roots ← commits.mapM fun c => do
    let r ← index.record ref c
    return r.root?.map fun t => (t, c)
  return roots.filterMap id

/-- The commits of the reference line by the contents of their top directory. Of several commits the
oldest counts, which comes last. -/
def referenceIndex (index : ContentIndex) (reference : String) :
    Except Failure (SortedMap CommitId) :=
  match index.histories.get? reference with
  | none => .error (.refNotFound reference)
  | some commits => (rootInstalls index reference commits).map SortedMap.ofList

/-- The full installs along the history of one ref, newest first, by key. -/
def refObservations (index : ContentIndex) (ref : String) (commits : List CommitId) :
    Except Failure (List (String × TreeId)) := do
  let installs ← commits.mapM fun c => do
    let r ← index.record ref c
    return r.full.entries.map fun e => (ref ++ e.1, e.2)
  return installs.flatten

/-- The full installs along the histories of all refs but the reference line, ref by ref. -/
def observations (index : ContentIndex) (reference : String) :
    Except Failure (List (String × TreeId)) := do
  let refs := index.histories.entries.filter fun e => e.1 != reference
  let installs ← refs.mapM fun e => refObservations index e.1 e.2
  return installs.flatten

/-- The subhistory of every copied directory. -/
def subhistories (index : ContentIndex) (reference : String) (trunk : SortedMap CommitId) :
    Except Failure (SortedMap Subhistory) :=
  (observations index reference).map fun o => (Subhistory.gather o).mapValues (·.locate trunk)

/-- Subhistories and plan of an index. -/
def crossReference (index : ContentIndex) (reference : String) : Except Failure CrossReference := do
  let trunk ← referenceIndex index reference
  let subs ← subhistories index reference trunk
  return ⟨subs, resolveReleases subs trunk⟩

end ReleaseRecovery
