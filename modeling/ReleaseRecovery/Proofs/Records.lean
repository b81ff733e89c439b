import ReleaseRecovery.CrossReference
import ReleaseRecovery.Proofs.Calculations

/-!
# Reading the records of an index

Cross-referencing reads the record of every commit that a history mentions, and fails on the first
that is missing. A calculation over a list therefore succeeds exactly if each of its parts does, and
what it then comes to can be said without failures.

## Main Definitions

* `ContentIndex.IsComplete` — every commit of every history has a record
* `ContentIndex.Installs` — a full install at a path of a commit of a ref

## Main Statements

* `ContentIndex.record_bind_eq_ok_iff` — when a calculation on a record succeeds
-/

namespace ReleaseRecovery

namespace ContentIndex

variable {index : ContentIndex}

/-! ### Records -/

/-- Every commit of every history has a record. -/
def IsComplete (index : ContentIndex) : Prop :=
  ∀ c ∈ index.mentioned, ∃ r, index.records.get? c = some r

instance : Decidable index.IsComplete :=
  decidable_of_iff (∀ c ∈ index.mentioned, (index.records.get? c).isSome) <|
    forall₂_congr fun _ _ => Option.isSome_iff_exists

/-- Some commit of a ref has a full install at a path. -/
def Installs (index : ContentIndex) (ref path : String) : Prop :=
  ∃ commits, index.histories.get? ref = some commits ∧ ∃ c ∈ commits, ∃ r,
    index.records.get? c = some r ∧ path ∈ r.full.keys

/-- The record of a commit, without installs if there is none. -/
def recordOf (index : ContentIndex) (c : CommitId) : InstallRecord :=
  (index.records.get? c).getD .empty

theorem mem_mentioned_iff {c : CommitId} :
    c ∈ index.mentioned ↔
      ∃ ref commits, index.histories.get? ref = some commits ∧ c ∈ commits := by
  simp only [mentioned, SortedMap.values, List.mem_flatten, List.mem_map,
    SortedMap.get?_eq_some_iff]
  constructor
  · rintro ⟨-, ⟨e, he, rfl⟩, hc⟩
    exact ⟨e.1, e.2, he, hc⟩
  · rintro ⟨ref, commits, he, hc⟩
    exact ⟨commits, ⟨_, he, rfl⟩, hc⟩

theorem root?_recordOf (c : CommitId) : (index.recordOf c).root? = index.root? c := by
  unfold recordOf root?
  cases index.records.get? c <;> rfl

/-- A calculation on the record of a commit succeeds exactly if there is a record. -/
theorem record_bind_eq_ok_iff {β : Type} {f : InstallRecord → β} {ref : String} {c : CommitId}
    {b : β} :
    (do let r ← index.record ref c; return f r : Except Failure β) = .ok b ↔
      (∃ r, index.records.get? c = some r) ∧ b = f (index.recordOf c) := by
  rw [bind_eq_ok_iff]
  unfold record recordOf
  cases index.records.get? c <;> simp [pure, Except.pure, eq_comm]

/-- A calculation on the records of several commits succeeds exactly if there are all of them. -/
theorem mapM_record_eq_ok_iff {β : Type} {f : CommitId → InstallRecord → β} {ref : String}
    {commits : List CommitId} {b : List β} :
    (commits.mapM fun c => do let r ← index.record ref c; return f c r : Except Failure (List β)) =
        .ok b ↔
      (∀ c ∈ commits, ∃ r, index.records.get? c = some r) ∧
        b = commits.map fun c => f c (index.recordOf c) :=
  mapM_eq_ok_iff fun _ _ => record_bind_eq_ok_iff

end ContentIndex

end ReleaseRecovery
