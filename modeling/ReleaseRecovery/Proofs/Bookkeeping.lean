import Mathlib.Data.List.Basic
import ReleaseRecovery.Proofs.FilledGaps
import ReleaseRecovery.Proofs.Indexing
import ReleaseRecovery.Proofs.Records

/-!
# The books of an index

An index that takes over histories drops the records that no history needs any more. From then on
each commit that the histories mention either has a record or waits to be scanned, and there are no
other records. That stays so while records of commits that wait are added, one by one, so at any
time the one side can be counted by what the other leaves.

## Main Definitions

* `ContentIndex.AddsPending` — records of waiting commits are added one by one
* `ContentIndex.IsBalanced` — every commit that is mentioned is on one of the two sides

## Main Statements

* `SortedMap.size_filterKeys_add` — keys that pass a test, and those that do not
* `ContentIndex.IsPruned.isBalanced` — the books of a pruned index are balanced
* `ContentIndex.setHistories_keepsBooks` — taking over histories, and what is added after it
-/

namespace ReleaseRecovery

/-! ### Selected keys -/

theorem SortedMap.keys_filterKeys {α : Type} (m : SortedMap α) (p : String → Bool) :
    (m.filterKeys p).keys = m.keys.filter p := by
  rw [keys, keys, List.filter_map]
  rfl

/-- The entries that pass a test, and the keys of those that do not. -/
theorem SortedMap.size_filterKeys_add {α : Type} (m : SortedMap α) (p : String → Bool) :
    (m.filterKeys p).size + (m.keys.filter fun key => !p key).length = m.size := by
  rw [← length_keys, ← length_keys, keys_filterKeys]
  exact (List.length_eq_length_filter_add p).symm

namespace ContentIndex

/-- Records of commits that wait to be scanned are added to an index, one after the other. Any
record will do. -/
inductive AddsPending (index : ContentIndex) : ContentIndex → Prop
  | start : AddsPending index index
  | add {later : ContentIndex} {c : CommitId} (r : InstallRecord) :
    AddsPending index later → c ∈ later.unscanned → AddsPending index (later.addRecord c r)

/-- Every commit that the histories mention either has a record or waits to be scanned. -/
structure IsBalanced (index : ContentIndex) : Prop where
  ascending : index.unscanned.Pairwise (· < ·)
  disjoint : index.unscanned.Disjoint index.records.keys
  mentioned_iff : ∀ c, c ∈ index.mentioned ↔ c ∈ index.unscanned ∨ c ∈ index.records.keys
  length_add_size : index.unscanned.length + index.records.size = index.uniqueCommits
  unique : index.uniqueCommits = index.mentioned.toFinset.card

variable {index later : ContentIndex} {histories : SortedMap BranchHistory} {c : CommitId}
  {r : InstallRecord}

/-! ### Taking over histories -/

theorem mem_mentioned_setHistories_iff :
    c ∈ (index.setHistories histories).mentioned ↔
      ∃ ref history, histories.get? ref = some history ∧ c ∈ history.commits := by
  rw [mem_mentioned_iff]
  simp only [setHistories, SortedMap.get?_mapValues, Option.map_eq_some_iff]
  constructor
  · rintro ⟨ref, commits, ⟨history, hget, rfl⟩, hc⟩
    exact ⟨ref, history, hget, hc⟩
  · rintro ⟨ref, history, hget, hc⟩
    exact ⟨ref, history.commits, ⟨history, hget, rfl⟩, hc⟩

theorem get?_records_setHistories_eq_some_iff :
    (index.setHistories histories).records.get? c = some r ↔
      index.records.get? c = some r ∧
        ∃ ref history, histories.get? ref = some history ∧ c ∈ history.commits := by
  rw [get?_records_setHistories, Option.ite_none_right_eq_some, mem_mentioned_setHistories_iff,
    and_comm]

/-- What is dropped is each record that is not there any more. -/
theorem droppedBy_eq (index : ContentIndex) (histories : SortedMap BranchHistory) :
    index.droppedBy histories = (index.records.keys.filter fun c =>
      !(index.setHistories histories).records.contains c).length := by
  have hkept : ∀ c ∈ index.records.keys, (index.setHistories histories).records.contains c =
      (index.setHistories histories).mentioned.contains c := by
    intro c hc
    obtain ⟨r, hr⟩ := SortedMap.mem_keys_iff.1 hc
    rw [Bool.eq_iff_iff, SortedMap.contains, get?_records_setHistories, hr, List.contains_iff_mem]
    split
    · rename_i hmentioned
      exact iff_of_true rfl hmentioned
    · rename_i hmentioned
      exact iff_of_false Bool.false_ne_true hmentioned
  have hsize : (index.setHistories histories).records.size +
      (index.records.keys.filter fun c =>
        !(index.setHistories histories).mentioned.contains c).length = index.records.size :=
    SortedMap.size_filterKeys_add index.records _
  rw [List.filter_congr fun c hc => congrArg Bool.not (hkept c hc), droppedBy, ← hsize,
    Nat.add_sub_cancel_left]

/-! ### Adding records -/

/-- Records of waiting commits leave the histories as they are, and the index pruned. -/
theorem AddsPending.invariant (h : AddsPending index later) (pruned : index.IsPruned) :
    later.histories = index.histories ∧ later.IsPruned := by
  induction h with
  | start => exact ⟨rfl, pruned⟩
  | add r _ hc ih =>
    obtain ⟨hhistories, pruned⟩ := ih
    exact ⟨hhistories, pruned.addRecord (mem_unscanned_iff.1 hc).1 r⟩

/-! ### Balance -/

theorem disjoint_unscanned_keys (index : ContentIndex) :
    index.unscanned.Disjoint index.records.keys := by
  intro c hc hkey
  obtain ⟨r, hr⟩ := SortedMap.mem_keys_iff.1 hkey
  rw [(mem_unscanned_iff.1 hc).2] at hr
  cases hr

theorem IsPruned.mem_mentioned_iff_or (pruned : index.IsPruned) :
    c ∈ index.mentioned ↔ c ∈ index.unscanned ∨ c ∈ index.records.keys := by
  rw [mem_unscanned_iff, SortedMap.mem_keys_iff]
  constructor
  · intro hc
    cases hr : index.records.get? c with
    | none => exact .inl ⟨hc, rfl⟩
    | some r => exact .inr ⟨r, rfl⟩
  · rintro (⟨hc, -⟩ | ⟨r, hr⟩)
    · exact hc
    · exact pruned c r hr

theorem IsPruned.size_eq (pruned : index.IsPruned) :
    (index.mentioned.toFinset.filter fun c => index.records.contains c = true).card =
      index.records.size := by
  have hset : (index.mentioned.toFinset.filter fun c => index.records.contains c = true) =
      index.records.keys.toFinset := by
    ext c
    rw [Finset.mem_filter, List.mem_toFinset, List.mem_toFinset, SortedMap.contains,
      Option.isSome_iff_exists, SortedMap.mem_keys_iff]
    refine and_iff_right_of_imp fun h => ?_
    obtain ⟨r, hr⟩ := h
    exact pruned c r hr
  rw [hset, List.toFinset_card_of_nodup index.records.nodup_keys, SortedMap.length_keys]

/-- The books of a pruned index are balanced. -/
theorem IsPruned.isBalanced (pruned : index.IsPruned) : index.IsBalanced where
  ascending := index.ascending_unscanned
  disjoint := index.disjoint_unscanned_keys
  mentioned_iff := fun _ => pruned.mem_mentioned_iff_or
  length_add_size := by rw [← pruned.size_eq, index.length_unscanned_add]
  unique := index.uniqueCommits_eq

/-- An index that takes over histories has these histories, and of its records exactly those of the
commits that they mention, as they were. The others are counted as dropped, and there are none when
the same histories are taken over once more. From then on the books are balanced, whatever records
of waiting commits are added. -/
theorem setHistories_keepsBooks (index : ContentIndex) (histories : SortedMap BranchHistory) :
    let fresh := index.setHistories histories
    (∀ ref, fresh.histories.get? ref = (histories.get? ref).map BranchHistory.commits) ∧
      (∀ c r, fresh.records.get? c = some r ↔ index.records.get? c = some r ∧
        ∃ ref history, histories.get? ref = some history ∧ c ∈ history.commits) ∧
      index.droppedBy histories =
        (index.records.keys.filter fun c => !fresh.records.contains c).length ∧
      fresh.setHistories histories = fresh ∧ fresh.droppedBy histories = 0 ∧
      ∀ later, AddsPending fresh later →
        later.histories = fresh.histories ∧ later.IsBalanced := by
  intro fresh
  have pruned : fresh.IsPruned := index.isPruned_setHistories histories
  have hagain : fresh.setHistories histories = fresh := pruned.setHistories_eq_self rfl
  refine ⟨fun ref => SortedMap.get?_mapValues _ _ _,
    fun c r => get?_records_setHistories_eq_some_iff, index.droppedBy_eq histories, hagain, ?_,
    fun later hlater => ?_⟩
  · rw [droppedBy, hagain, Nat.sub_self]
  · obtain ⟨hhistories, pruned⟩ := hlater.invariant pruned
    exact ⟨hhistories, pruned.isBalanced⟩

/-- Histories that share a commit. -/
def sharedHistories : SortedMap BranchHistory := .ofList
  [("svn/trunk", ⟨"svn/trunk", ["C3", "C1"]⟩), ("svn/tags/v1", ⟨"svn/tags/v1", ["C2", "C3"]⟩)]

/-- An index that has seen one of these commits, and one that is gone. -/
def outdated : ContentIndex where
  histories := .ofList [("svn/trunk", ["C1"]), ("svn/old", ["C0", "C1"])]
  records := .ofList [("C0", .empty), ("C1", ⟨.ofList [("/", "T1")], .empty⟩)]

theorem setHistories_keepsBooks_shared :
    let fresh := outdated.setHistories sharedHistories
    let later := fresh.addRecord "C3" .empty
    AddsPending fresh later ∧ outdated.droppedBy sharedHistories = 1 ∧
      fresh.records.get? "C1" = outdated.records.get? "C1" ∧ fresh.unscanned = ["C2", "C3"] ∧
      later.IsBalanced ∧ later.unscanned = ["C2"] ∧ later.records.size = 2 ∧
      later.uniqueCommits = 3 := by
  intro fresh later
  obtain ⟨-, -, hdropped, -, -, hlater⟩ := setHistories_keepsBooks outdated sharedHistories
  have hwaits : fresh.unscanned = ["C2", "C3"] := by decide +kernel
  have hadds : AddsPending fresh later := .add .empty .start (by rw [hwaits]; decide)
  exact ⟨hadds, hdropped.trans (by decide +kernel), by decide +kernel, hwaits,
    (hlater later hadds).2, by decide +kernel, by decide +kernel, by decide +kernel⟩

end ContentIndex

end ReleaseRecovery
