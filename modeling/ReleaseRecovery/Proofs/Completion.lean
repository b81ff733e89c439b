import ReleaseRecovery.Proofs.Indexing
import ReleaseRecovery.Proofs.MissingRecords
import ReleaseRecovery.Proofs.PlainAnswers

/-!
# Complete indexes

Completing an index adds the records that are missing and leaves all others, wherever the index came
from, and it gets through only once none is missing. So whatever was in the index file, an index
that has been brought up to date can be planned from.

## Main Definitions

* `Extends` — an index has been filled up to some point
* `Completed` — an index has been filled to its end

## Main Statements

* `completed_of_completeIndex`, `completed_of_buildIndex` — what has been done where the index could
  be brought up to date
* `exists_crossReference_of_buildIndex` — an index that has been brought up to date can be planned
  from
* `buildIndex_suffices` — an index that has been brought up to date is all that planning needs
-/

namespace ReleaseRecovery

variable {ρ : Type} [Repository ρ]

/-- An index has been filled up to some point: its histories and its records are there as before,
and new records are those of commits that had none. -/
structure Extends (seen : ρ) (markers : Markers) (index built : ContentIndex) : Prop where
  histories_eq : built.histories = index.histories
  kept : ∀ c r, index.records.get? c = some r → built.records.get? c = some r
  added : ∀ c r, built.records.get? c = some r →
    index.records.get? c = some r ∨ (c ∈ index.unscanned ∧ ScansTo seen markers c r)

/-- An index has been filled to its end: no record is missing. -/
structure Completed (seen : ρ) (markers : Markers) (index built : ContentIndex) : Prop
    extends Extends seen markers index built where
  complete : built.IsComplete

section Filling

variable {seen : ρ} {markers : Markers} {index built : ContentIndex} {settings : Settings}
  {interrupt : Interrupt} {schedule : Schedule} {files : Files} {done : List Action}

theorem Extends.refl (seen : ρ) (markers : Markers) (index : ContentIndex) :
    Extends seen markers index index :=
  ⟨rfl, fun _ _ h => h, fun _ _ h => .inl h⟩

theorem Extends.addRecord (h : Extends seen markers index built) {c : CommitId} {r : InstallRecord}
    (hc : c ∈ index.unscanned) (hr : ScansTo seen markers c r) :
    Extends seen markers index (built.addRecord c r) := by
  refine ⟨h.histories_eq, fun d r' hd => ?_, fun d r' hd => ?_⟩
  · rw [ContentIndex.get?_records_addRecord, if_neg, h.kept d r' hd]
    rintro rfl
    rw [(ContentIndex.mem_unscanned_iff.1 hc).2] at hd
    cases hd
  · rw [ContentIndex.get?_records_addRecord] at hd
    split at hd
    · rename_i hdc
      cases hd
      rw [hdc]
      exact .inr ⟨hc, hr⟩
    · exact h.added d r' hd

/-- However filling an index ends, the index has been filled up to that point, and the directories
are as they were. -/
theorem extends_fill (seen : ρ) (settings : Settings) (interrupt : Interrupt) (schedule : Schedule)
    (index : ContentIndex) (files : Files) (done : List Action) :
    let filled := fill seen settings.markers settings.checkpointEvery interrupt
      (Snapshot.save settings.indexPath) index files done schedule
    Extends seen settings.markers index filled.index ∧ files.SameDirectories filled.saves := by
  refine fill_invariant (P := Extends seen settings.markers index) (Q := files.SameDirectories)
    ?_ ?_ (.refl seen settings.markers index) (.refl files)
  · intro c hc r hr index' h'
    exact h'.addRecord hc hr
  · intro index' files' _ same
    exact same.trans (Snapshot.sameDirectories_save settings.indexPath index' files')

/-- An index that is completed has been filled to its end, and it is saved. -/
theorem completed_of_completeIndex
    (h : (completeIndex seen settings interrupt index files done schedule).result = .ok built) :
    Completed seen settings.markers index built ∧ files.Replaceable settings.indexPath ∧
      (completeIndex seen settings interrupt index files done schedule).files.read
        settings.indexPath = .ok built.text := by
  rcases hfill : fill seen settings.markers settings.checkpointEvery interrupt
    (Snapshot.save settings.indexPath) index files done schedule with
    ⟨e | counts, filled, saves, actions⟩
  · rw [completeIndex_of_error hfill] at h
    cases h
  rw [completeIndex_of_ok hfill] at h ⊢
  dsimp only at h ⊢
  obtain ⟨_, hsaved, rfl⟩ := map_eq_ok_iff.1 h
  obtain ⟨hextends, same⟩ := extends_fill seen settings interrupt schedule index files done
  rw [hfill] at hextends same
  refine ⟨⟨hextends, fun c hc => ?_⟩, ?_, Snapshot.read_save hsaved⟩
  · have hrecord := exists_record_fill (congrArg Filled.result hfill)
      (ContentIndex.mentioned_eq hextends.histories_eq ▸ hc)
    rwa [hfill] at hrecord
  · exact same.replaceable_iff.1 (Snapshot.save_eq_ok_iff.1 hsaved)

/-- Completing an index leaves the directories as they were. -/
theorem sameDirectories_completeIndex (seen : ρ) (settings : Settings) (interrupt : Interrupt)
    (schedule : Schedule) (index : ContentIndex) (files : Files) (done : List Action) :
    files.SameDirectories
      (completeIndex seen settings interrupt index files done schedule).files := by
  obtain ⟨-, same⟩ := extends_fill seen settings interrupt schedule index files done
  rcases hfill : fill seen settings.markers settings.checkpointEvery interrupt
    (Snapshot.save settings.indexPath) index files done schedule with
    ⟨e | counts, filled, saves, actions⟩
  · rw [hfill] at same
    rw [completeIndex_of_error hfill]
    exact same
  · rw [hfill] at same
    rw [completeIndex_of_ok hfill]
    exact same.trans (Snapshot.sameDirectories_save settings.indexPath filled saves)

/-- So does bringing it up to date. -/
theorem sameDirectories_buildIndex (seen : ρ) (settings : Settings) (interrupt : Interrupt)
    (files : Files) (schedule : Schedule) :
    files.SameDirectories (buildIndex seen settings interrupt files schedule).files := by
  obtain ⟨e, done, hbuild⟩ | ⟨index, histories, done, -, -, hbuild⟩ :=
    buildIndex_cases seen settings interrupt files schedule
  · rw [hbuild]
    exact .refl files
  · rw [hbuild]
    exact sameDirectories_completeIndex ..

/-- An index that has been brought up to date is the one in the file with fresh histories, filled to
its end, and it is saved. -/
theorem completed_of_buildIndex
    (h : (buildIndex seen settings interrupt files schedule).result = .ok built) :
    ∃ index histories, Snapshot.load settings.indexPath files = .ok index ∧
      ((collect seen settings.layout).after []).1 = .ok histories ∧
      Completed seen settings.markers (index.setHistories histories) built ∧
      files.Replaceable settings.indexPath ∧
      (buildIndex seen settings interrupt files schedule).files.read settings.indexPath =
        .ok built.text := by
  obtain ⟨e, done, hbuild⟩ | ⟨index, histories, done, hload, hcollect, hbuild⟩ :=
    buildIndex_cases seen settings interrupt files schedule
  · rw [hbuild] at h
    cases h
  · rw [hbuild] at h ⊢
    exact ⟨index, histories, hload, hcollect, completed_of_completeIndex h⟩

end Filling

/-! ### Planning -/

section Planning

variable {seen : ρ} {layout : Layout} {index built : ContentIndex} {reference : String}

/-- Histories that have been collected have one of the reference line. -/
theorem exists_history_of_collect {histories : SortedMap BranchHistory} {done : List Action}
    (h : ((collect seen layout).after done).1 = .ok histories) :
    ∃ history, histories.get? layout.reference = some history := by
  obtain ⟨reference, -, h⟩ := Reading.after_bind_eq_ok_iff.1 h
  obtain ⟨names, -, h⟩ := Reading.after_bind_eq_ok_iff.1 h
  obtain ⟨others, -, h⟩ := Reading.after_bind_eq_ok_iff.1 h
  rw [← Except.ok.inj h]
  exact ⟨reference, by rw [SortedMap.get?_insert, if_pos rfl]⟩

/-- An index that has been brought up to date can be planned from. -/
theorem exists_crossReference_of_buildIndex {settings : Settings} {interrupt : Interrupt}
    {files : Files} {schedule : Schedule}
    (h : (buildIndex seen settings interrupt files schedule).result = .ok built) :
    ∃ x, crossReference built settings.layout.reference = .ok x := by
  obtain ⟨index, histories, -, hcollect, completed, -⟩ := completed_of_buildIndex h
  obtain ⟨history, hhistory⟩ := exists_history_of_collect hcollect
  have hreference : built.histories.get? settings.layout.reference = some history.commits := by
    rw [completed.histories_eq, ContentIndex.setHistories, SortedMap.get?_mapValues, hhistory]
    rfl
  exact exists_crossReference completed.complete hreference

/-- A run that fails for no reason of its own passes on what a store has refused: to tell its
histories, to show a commit, or to be written to. -/
theorem refused_of_run {settings : Settings} {interrupt : Interrupt} {now : Instant} {repo : ρ}
    {files : Files} {schedule : Schedule} {e : Failure}
    (h : (run settings interrupt now repo files schedule).result = .error e)
    (hown : e.isOfRun = false) :
    ((collect repo settings.layout).after []).1 = .error e ∨
      IsRefusal ρ .scanning e ∨ IsRefusal ρ .writing e := by
  rcases run_error h with ⟨-, hbuild | rfl | rfl | ⟨index, hindex, hcross⟩⟩ |
    ⟨completed, remaining, rfl⟩ | hwriting
  · rcases buildIndex_error hbuild with hindexing | hcollect | hscanning
    · cases hown.symm.trans (Failure.isOfRun_of_isOfIndexing hindexing)
    · exact .inl hcollect
    · exact .inr (.inl hscanning)
  · cases hown
  · cases hown
  · obtain ⟨x, hx⟩ := exists_crossReference_of_buildIndex hindex
    cases hx.symm.trans hcross
  · cases hown
  · exact .inr (.inr hwriting)

/-- An index that has been brought up to date is all that planning needs, whatever the index file
held and however the run is asked to stop. So no record is ever missing, and no ref but where
histories are collected, unless a store says so itself when it is asked for something else. Stores
that answer plainly do not, and all stores of this library answer plainly. -/
theorem buildIndex_suffices (settings : Settings) (interrupt : Interrupt) (now : Instant) (repo : ρ)
    (files : Files) (schedule : Schedule) :
    let indexed := buildIndex repo settings interrupt files schedule
    let result := (run settings interrupt now repo files schedule).result
    let collected := ((collect repo settings.layout).after []).1
    (∀ index, indexed.result = .ok index →
      ∃ x, crossReference index settings.layout.reference = .ok x) ∧
    (∀ commit ref, result = .error (.missingScan commit ref) →
      ∃ purpose, IsRefusal ρ purpose (.missingScan commit ref)) ∧
    (∀ ref, result = .error (.refNotFound ref) →
      collected = .error (.refNotFound ref) ∨
        IsRefusal ρ .scanning (.refNotFound ref) ∨ IsRefusal ρ .writing (.refNotFound ref)) ∧
    (AnswersPlainly ρ →
      (∀ commit ref, result ≠ .error (.missingScan commit ref)) ∧
      ∀ ref, result = .error (.refNotFound ref) → collected = .error (.refNotFound ref)) ∧
    AnswersPlainly Memory ∧ AnswersPlainly Git.Store := by
  intro indexed result collected
  have hmissing : ∀ commit ref, result = .error (.missingScan commit ref) →
      ∃ purpose, IsRefusal ρ purpose (.missingScan commit ref) := by
    intro commit ref h
    rcases refused_of_run h rfl with hcollect | hscanning | hwriting
    · exact ⟨.collecting, collect_failsOnly repo settings.layout [] _ hcollect⟩
    · exact ⟨.scanning, hscanning⟩
    · exact ⟨.writing, hwriting⟩
  refine ⟨fun index h => exists_crossReference_of_buildIndex h, hmissing,
    fun ref h => refused_of_run h rfl, fun plain => ⟨fun commit ref h => ?_, fun ref h => ?_⟩,
    Memory.answersPlainly, Git.Store.answersPlainly⟩
  · obtain ⟨purpose, hrefusal⟩ := hmissing commit ref h
    exact plain.not_isRefusal_missingScan hrefusal
  · rcases refused_of_run h rfl with hcollect | hscanning | hwriting
    · exact hcollect
    · cases plain.purpose_of_refNotFound hscanning
    · cases plain.purpose_of_refNotFound hwriting

end Planning

end ReleaseRecovery
