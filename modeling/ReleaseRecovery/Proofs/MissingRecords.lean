import ReleaseRecovery.Proofs.Soundness

/-!
# Indexes with missing records

Cross-referencing reads the record of every commit that a history mentions. An index that lacks one
of them is never taken for a complete one: the failure tells the first commit without a record, on
the reference line before any other ref, and of the other refs in the first that has such a commit.

## Main Definitions

* `ContentIndex.IsFirstMissing` — the first commit of a history that has no record
* `ContentIndex.Lacks` — what an index lacks, by the failure that tells of it

## Main Statements

* `referenceIndex_eq_error_iff`, `subhistories_eq_error_iff` — how the two passes fail
* `exists_crossReference_iff` — an index can be planned from exactly if it is complete
* `crossReference_complete_or_lacks` — a cross-reference is that of a complete index, or it tells
  what the index lacks
-/

namespace ReleaseRecovery

namespace ContentIndex

/-- A commit is the first one of a history that has no record. -/
def IsFirstMissing (index : ContentIndex) (commits : List CommitId) (c : CommitId) : Prop :=
  ∃ before after, commits = before ++ c :: after ∧
    (∀ d ∈ before, ∃ r, index.records.get? d = some r) ∧ index.records.get? c = none

/-- What an index lacks for a cross-reference, with the failure that tells of it. -/
inductive Lacks (index : ContentIndex) (reference : String) : Failure → Prop
  /-- The reference line has no history. -/
  | line (absent : index.histories.get? reference = none) :
      Lacks index reference (.refNotFound reference)
  /-- A commit of the reference line has no record. -/
  | recordOnLine {commits : List CommitId} {c : CommitId}
      (line : index.histories.get? reference = some commits)
      (first : index.IsFirstMissing commits c) :
      Lacks index reference (.missingScan c reference)
  /-- The reference line has all of its records, but a commit of another ref has none, and the refs
  that come before have all of theirs. -/
  | recordBeside {commits others : List CommitId} {ref : String} {c : CommitId}
      (line : index.histories.get? reference = some commits)
      (recorded : ∀ d ∈ commits, ∃ r, index.records.get? d = some r)
      (history : index.histories.get? ref = some others)
      (first : index.IsFirstMissing others c)
      (earlier : ∀ ref' commits', ref' < ref → index.histories.get? ref' = some commits' →
        ∀ d ∈ commits', ∃ r, index.records.get? d = some r) :
      Lacks index reference (.missingScan c ref)

variable {index : ContentIndex} {reference : String}

/-! ### Reading records -/

theorem IsFirstMissing.not_recorded {commits : List CommitId} {c : CommitId}
    (h : index.IsFirstMissing commits c) :
    ¬∀ d ∈ commits, ∃ r, index.records.get? d = some r := by
  obtain ⟨before, after, rfl, -, hc⟩ := h
  intro recorded
  obtain ⟨r, hr⟩ := recorded c (List.mem_append_right before List.mem_cons_self)
  rw [hc] at hr
  cases hr

/-- A calculation on the record of a commit fails only because there is none. -/
theorem record_bind_eq_error_iff {β : Type} {f : InstallRecord → β} {ref : String} {c : CommitId}
    {e : Failure} :
    (do let r ← index.record ref c; return f r : Except Failure β) = .error e ↔
      index.records.get? c = none ∧ e = .missingScan c ref := by
  rw [bind_eq_error_iff]
  unfold record
  cases index.records.get? c <;> simp [pure, Except.pure, eq_comm]

/-- A calculation on the records of several commits tells the first that is missing. -/
theorem mapM_record_eq_error_iff {β : Type} {f : CommitId → InstallRecord → β} {ref : String}
    {commits : List CommitId} {e : Failure} :
    (commits.mapM fun c => do let r ← index.record ref c; return f c r : Except Failure (List β)) =
        .error e ↔
      ∃ c, index.IsFirstMissing commits c ∧ e = .missingScan c ref := by
  simp only [mapM_eq_error_iff, record_bind_eq_error_iff, record_bind_eq_ok_iff]
  constructor
  · rintro ⟨before, c, after, hsplit, hbefore, hc, he⟩
    exact ⟨c, ⟨before, after, hsplit, fun d hd => (hbefore d hd).elim fun _ h => h.1, hc⟩, he⟩
  · rintro ⟨c, ⟨before, after, hsplit, hbefore, hc⟩, he⟩
    exact ⟨before, c, after, hsplit, fun d hd => ⟨_, hbefore d hd, rfl⟩, hc, he⟩

theorem refObservations_eq_error_iff {ref : String} {commits : List CommitId} {e : Failure} :
    refObservations index ref commits = .error e ↔
      ∃ c, index.IsFirstMissing commits c ∧ e = .missingScan c ref := by
  unfold refObservations
  rw [bind_pure_eq_error_iff, mapM_record_eq_error_iff]

end ContentIndex

/-! ### The first entry of a map -/

namespace SortedMap

variable {α : Type}

/-- An entry of an ascending list is the first of its kind if no smaller key has one. -/
theorem exists_append_iff_of_ascending {l : List (String × α)}
    (h : l.Pairwise fun a b => a.1 < b.1) {p q : String × α → Prop} :
    (∃ before e after, l = before ++ e :: after ∧ (∀ b ∈ before, p b) ∧ q e) ↔
      ∃ e ∈ l, q e ∧ ∀ b ∈ l, b.1 < e.1 → p b := by
  constructor
  · rintro ⟨before, e, after, hsplit, hbefore, hq⟩
    have he : e ∈ l := hsplit ▸ List.mem_append_right before List.mem_cons_self
    exact ⟨e, he, hq, fun b hb hlt => hbefore b ((mem_before_iff h hsplit).2 ⟨hb, hlt⟩)⟩
  · rintro ⟨e, he, hq, hsmaller⟩
    obtain ⟨before, after, hsplit⟩ := List.append_of_mem he
    refine ⟨before, e, after, hsplit, fun b hb => ?_, hq⟩
    obtain ⟨hmem, hlt⟩ := (mem_before_iff h hsplit).1 hb
    exact hsmaller b hmem hlt

end SortedMap

/-! ### Cross-referencing -/

section CrossReference

variable {index : ContentIndex} {reference : String} {e : Failure}

theorem referenceIndex_eq_error_iff :
    referenceIndex index reference = .error e ↔
      (index.histories.get? reference = none ∧ e = .refNotFound reference) ∨
        ∃ commits c, index.histories.get? reference = some commits ∧
          index.IsFirstMissing commits c ∧ e = .missingScan c reference := by
  unfold referenceIndex
  cases hget : index.histories.get? reference with
  | none => simp [eq_comm]
  | some commits =>
    dsimp only
    rw [map_eq_error_iff, rootInstalls, bind_pure_eq_error_iff,
      ContentIndex.mapM_record_eq_error_iff]
    constructor
    · rintro ⟨c, hc, he⟩
      exact .inr ⟨commits, c, rfl, hc, he⟩
    · rintro (⟨⟨⟩, -⟩ | ⟨_, c, ⟨⟩, hc, he⟩)
      exact ⟨c, hc, he⟩

/-- The refs beside the reference line are read in the order of their names. -/
theorem subhistories_eq_error_iff {trunk : SortedMap CommitId} :
    subhistories index reference trunk = .error e ↔
      ∃ ref others c, ref ≠ reference ∧ index.histories.get? ref = some others ∧
        index.IsFirstMissing others c ∧
        (∀ ref' commits', ref' ≠ reference → ref' < ref →
          index.histories.get? ref' = some commits' →
            ∀ d ∈ commits', ∃ r, index.records.get? d = some r) ∧
        e = .missingScan c ref := by
  have hasc := index.histories.ascending.filter fun e => e.1 != reference
  rw [subhistories, map_eq_error_iff, observations, bind_pure_eq_error_iff, mapM_eq_error_iff,
    SortedMap.exists_append_iff_of_ascending hasc]
  simp only [ContentIndex.mem_beside_iff, ContentIndex.refObservations_eq_error_iff,
    ContentIndex.refObservations_eq_ok_iff]
  constructor
  · rintro ⟨⟨ref, others⟩, ⟨hget, hne⟩, ⟨c, hc, he⟩, hsmaller⟩
    refine ⟨ref, others, c, hne, hget, hc, fun ref' commits' hne' hlt hget' => ?_, he⟩
    obtain ⟨_, recorded, -⟩ := hsmaller (ref', commits') ⟨hget', hne'⟩ hlt
    exact recorded
  · rintro ⟨ref, others, c, hne, hget, hc, hsmaller, he⟩
    refine ⟨(ref, others), ⟨hget, hne⟩, ⟨c, hc, he⟩, fun b hb hlt => ?_⟩
    exact ⟨_, hsmaller b.1 b.2 hb.2 hlt hb.1, rfl⟩

/-- A complete index with a history of the reference line can be planned from. -/
theorem exists_crossReference (complete : index.IsComplete) {commits : List CommitId}
    (hreference : index.histories.get? reference = some commits) :
    ∃ x, crossReference index reference = .ok x := by
  have hrecords : ∀ c ∈ commits, ∃ r, index.records.get? c = some r := fun c hc =>
    complete c (ContentIndex.mem_mentioned_iff.2 ⟨reference, commits, hreference, hc⟩)
  obtain ⟨trunk, hline⟩ : ∃ trunk, referenceIndex index reference = .ok trunk :=
    ⟨_, referenceIndex_eq_ok_iff.2 ⟨commits, hreference, hrecords, rfl⟩⟩
  obtain ⟨subs, hsubs⟩ : ∃ subs, subhistories index reference trunk = .ok subs :=
    ⟨_, subhistories_eq_ok_iff.2 ⟨complete.beside reference, rfl⟩⟩
  exact ⟨⟨subs, resolveReleases subs trunk⟩,
    crossReference_eq_ok_iff.2 ⟨trunk, hline, hsubs, rfl⟩⟩

/-- Nothing but a history of the reference line and the records is needed. -/
theorem exists_crossReference_iff :
    (∃ x, crossReference index reference = .ok x) ↔
      (∃ commits, index.histories.get? reference = some commits) ∧ index.IsComplete := by
  constructor
  · rintro ⟨x, hx⟩
    obtain ⟨trunk, htrunk, hsubs, -⟩ := crossReference_eq_ok_iff.1 hx
    obtain ⟨commits, hget, recorded, -⟩ := referenceIndex_eq_ok_iff.1 htrunk
    refine ⟨⟨commits, hget⟩, fun c hc => ?_⟩
    obtain ⟨ref, others, hother, hc⟩ := ContentIndex.mem_mentioned_iff.1 hc
    by_cases hne : ref = reference
    · subst hne
      obtain rfl := Option.some.inj (hget.symm.trans hother)
      exact recorded c hc
    · exact (subhistories_eq_ok_iff.1 hsubs).1 ref others hother hne c hc
  · rintro ⟨⟨commits, hget⟩, complete⟩
    exact exists_crossReference complete hget

theorem crossReference_eq_error_iff :
    crossReference index reference = .error e ↔
      referenceIndex index reference = .error e ∨
        ∃ trunk, referenceIndex index reference = .ok trunk ∧
          subhistories index reference trunk = .error e := by
  rw [crossReference, bind_eq_error_iff]
  simp only [bind_pure_eq_error_iff]

/-- A cross-reference comes from an index with a reference line and a record of every commit that is
mentioned. Any other index makes it fail, with what is lacking first. -/
theorem crossReference_complete_or_lacks (index : ContentIndex) (reference : String) :
    ((∃ x, crossReference index reference = .ok x) ↔
        (∃ commits, index.histories.get? reference = some commits) ∧ index.IsComplete) ∧
      ∀ e, crossReference index reference = .error e ↔ index.Lacks reference e := by
  refine ⟨exists_crossReference_iff, fun e => ?_⟩
  rw [crossReference_eq_error_iff, referenceIndex_eq_error_iff]
  constructor
  · rintro ((⟨absent, rfl⟩ | ⟨commits, c, line, first, rfl⟩) | ⟨trunk, htrunk, hsubs⟩)
    · exact .line absent
    · exact .recordOnLine line first
    · obtain ⟨commits, line, recorded, -⟩ := referenceIndex_eq_ok_iff.1 htrunk
      obtain ⟨ref, others, c, hne, history, first, earlier, rfl⟩ :=
        subhistories_eq_error_iff.1 hsubs
      refine .recordBeside line recorded history first fun ref' commits' hlt hget => ?_
      by_cases hne' : ref' = reference
      · subst hne'
        obtain rfl := Option.some.inj (line.symm.trans hget)
        exact recorded
      · exact earlier ref' commits' hne' hlt hget
  · intro h
    cases h with
    | line absent => exact .inl (.inl ⟨absent, rfl⟩)
    | recordOnLine line first => exact .inl (.inr ⟨_, _, line, first, rfl⟩)
    | @recordBeside commits others ref c line recorded history first earlier =>
      refine .inr ⟨_, referenceIndex_eq_ok_iff.2 ⟨commits, line, recorded, rfl⟩, ?_⟩
      -- The reference line lacks nothing, so the ref with the gap is another one.
      have hne : ref ≠ reference := by
        rintro rfl
        obtain rfl := Option.some.inj (line.symm.trans history)
        exact first.not_recorded recorded
      exact subhistories_eq_error_iff.2 ⟨ref, others, c, hne, history, first,
        fun ref' commits' _ hlt hget => earlier ref' commits' hlt hget, rfl⟩

end CrossReference

end ReleaseRecovery
