import ReleaseRecovery.Proofs.Records

/-!
# The reference line by contents

Of the commits of the reference line whose top directory has the same contents, the oldest one is
found under these contents, no matter how often they went away and came back.

## Main Definitions

* `ContentIndex.IsOldestWith` — the oldest commit of a history with some contents at its top

## Main Statements

* `referenceIndex_eq_ok_iff` — when the reference line can be told by contents
* `get?_referenceIndex` — which commit is found under which contents
-/

namespace ReleaseRecovery

/-- A commit is the oldest one of a history, which is listed newest first, with some contents in its
top directory. -/
def ContentIndex.IsOldestWith (index : ContentIndex) (commits : List CommitId) (tree : TreeId)
    (c : CommitId) : Prop :=
  ∃ newer older, commits = newer ++ c :: older ∧ index.root? c = some tree ∧
    ∀ d ∈ older, index.root? d ≠ some tree

section LastOf

variable {root : CommitId → Option TreeId} {commits : List CommitId} {tree : TreeId}

/-- The commits that have something at their top, in reverse. -/
theorem lookup_reverse_cons (d : CommitId) :
    ((d :: commits).filterMap fun c => (root c).map fun t => (t, c)).reverse.lookup tree =
      ((commits.filterMap fun c => (root c).map fun t => (t, c)).reverse.lookup tree).or
        (if root d = some tree then some d else none) := by
  rw [List.filterMap_cons]
  cases h : root d with
  | none => simp
  | some t =>
    by_cases ht : t = tree
    · subst ht
      simp [List.lookup_append]
    · have hne : ¬tree = t := fun e => ht e.symm
      simp [List.lookup_append, ht, hne]

theorem lookup_reverse_eq_none_iff :
    (commits.filterMap fun c => (root c).map fun t => (t, c)).reverse.lookup tree = none ↔
      ∀ d ∈ commits, root d ≠ some tree := by
  induction commits with
  | nil => simp
  | cons d commits ih =>
    rw [lookup_reverse_cons, Option.or_eq_none_iff, ih, List.forall_mem_cons, and_comm]
    by_cases h : root d = some tree <;> simp [h]

/-- The last commit with some contents is found by a look-up from the end. -/
theorem lookup_reverse_eq_some_iff {c : CommitId} :
    (commits.filterMap fun c => (root c).map fun t => (t, c)).reverse.lookup tree = some c ↔
      ∃ newer older, commits = newer ++ c :: older ∧ root c = some tree ∧
        ∀ d ∈ older, root d ≠ some tree := by
  induction commits with
  | nil => simp
  | cons d commits ih =>
    rw [lookup_reverse_cons, Option.or_eq_some_iff, ih, lookup_reverse_eq_none_iff]
    -- The first commit counts only if none of the older ones has the contents.
    constructor
    · rintro (⟨newer, older, rfl, hroot, holder⟩ | ⟨hnone, hd⟩)
      · exact ⟨d :: newer, older, rfl, hroot, holder⟩
      · by_cases h : root d = some tree
        · rw [if_pos h] at hd
          cases hd
          exact ⟨[], commits, rfl, h, hnone⟩
        · rw [if_neg h] at hd
          cases hd
    · rintro ⟨newer, older, hsplit, hroot, holder⟩
      cases newer with
      | nil =>
        obtain ⟨rfl, rfl⟩ := List.cons.inj hsplit
        exact .inr ⟨holder, if_pos hroot⟩
      | cons e newer =>
        obtain ⟨rfl, rfl⟩ := List.cons.inj hsplit
        exact .inl ⟨newer, older, rfl, hroot, holder⟩

end LastOf

variable {index : ContentIndex} {reference : String}

/-- The reference line can be told by contents exactly if it has a history and all of its records
are there. -/
theorem referenceIndex_eq_ok_iff {trunk : SortedMap CommitId} :
    referenceIndex index reference = .ok trunk ↔
      ∃ commits, index.histories.get? reference = some commits ∧
        (∀ c ∈ commits, ∃ r, index.records.get? c = some r) ∧
        trunk = .ofList (commits.filterMap fun c => (index.root? c).map fun t => (t, c)) := by
  unfold referenceIndex
  cases hget : index.histories.get? reference with
  | none => simp
  | some commits =>
    dsimp only
    rw [map_eq_ok_iff]
    simp only [rootInstalls, bind_eq_ok_iff]
    constructor
    · rintro ⟨-, ⟨roots, hroots, ⟨⟩⟩, rfl⟩
      obtain ⟨hrecords, rfl⟩ := ContentIndex.mapM_record_eq_ok_iff.1 hroots
      refine ⟨commits, rfl, hrecords, ?_⟩
      rw [List.filterMap_map]
      simp only [Function.comp_def, id, ContentIndex.root?_recordOf]
    · rintro ⟨_, ⟨⟩, hrecords, rfl⟩
      refine ⟨_, ⟨_, ContentIndex.mapM_record_eq_ok_iff.2 ⟨hrecords, rfl⟩, rfl⟩, ?_⟩
      rw [List.filterMap_map]
      simp only [Function.comp_def, id, ContentIndex.root?_recordOf]

/-- Under the contents of a top directory stands the oldest commit of the reference line that has
them. -/
theorem get?_referenceIndex {trunk : SortedMap CommitId} {commits : List CommitId}
    (h : referenceIndex index reference = .ok trunk)
    (hget : index.histories.get? reference = some commits) {tree : TreeId} {c : CommitId} :
    trunk.get? tree = some c ↔ index.IsOldestWith commits tree c := by
  obtain ⟨commits', hget', -, rfl⟩ := referenceIndex_eq_ok_iff.1 h
  obtain rfl : commits' = commits := Option.some.inj (hget'.symm.trans hget)
  rw [SortedMap.get?_ofList, lookup_reverse_eq_some_iff]
  rfl

/-- Contents are not found exactly if no commit of the reference line has them at its top. -/
theorem get?_referenceIndex_eq_none_iff {trunk : SortedMap CommitId} {commits : List CommitId}
    (h : referenceIndex index reference = .ok trunk)
    (hget : index.histories.get? reference = some commits) {tree : TreeId} :
    trunk.get? tree = none ↔ ∀ d ∈ commits, index.root? d ≠ some tree := by
  obtain ⟨commits', hget', -, rfl⟩ := referenceIndex_eq_ok_iff.1 h
  obtain rfl : commits' = commits := Option.some.inj (hget'.symm.trans hget)
  rw [SortedMap.get?_ofList, lookup_reverse_eq_none_iff]

end ReleaseRecovery
