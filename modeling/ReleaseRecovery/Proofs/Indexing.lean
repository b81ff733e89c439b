import ReleaseRecovery.Run
import ReleaseRecovery.Proofs.Filling
import ReleaseRecovery.Proofs.Snapshots

/-!
# Bringing the index up to date

Whatever a run does to the index, all that it saves on the way is sound; and if it gets through, the
index is exactly what the store says at that time, no matter what it was before.

## Main Definitions

* `UpToDate` — an index is what a store says
* `IsKept` — a file holds a sound index
* `LoadsSound` — no other index can be loaded from a file
* `Leaves` — what a run may do to the files

## Main Statements

* `UpToDate.unique` — there is one such index
* `leaves_buildIndex` — what a run does to the files, however it ends
* `upToDate_buildIndex` — the index of a run that gets through
* `buildIndex_eq_ok` — a run gets through if nothing keeps it from it
-/

namespace ReleaseRecovery

variable {ρ : Type} [Repository ρ]

/-- An index is what a store says: its histories are collected, and it has the records of exactly
the commits that these mention. -/
structure UpToDate (store : ρ) (markers : Markers) (layout : Layout) (index : ContentIndex) :
    Prop where
  histories : ∃ histories, collected store layout = .ok histories ∧
    index.histories = histories.mapValues BranchHistory.commits
  mentioned_iff : ∀ c, c ∈ index.mentioned ↔ ∃ r, index.records.get? c = some r
  sound : Sound store markers index

/-- A file holds a sound index. -/
def IsKept (store : ρ) (markers : Markers) (path : String) (files : Files) : Prop :=
  ∃ kept : ContentIndex, files.content? path = some kept.text ∧ Sound store markers kept

/-- Any index that can be loaded from a file is sound. -/
def LoadsSound (store : ρ) (markers : Markers) (path : String) (files : Files) : Prop :=
  ∀ index, Snapshot.load path files = .ok index → Sound store markers index

/-- What a run may do to the files: the directories stay as they are, and the index file, unless it
stays as it is, holds a sound index. -/
structure Leaves (store : ρ) (markers : Markers) (path : String) (before after : Files) :
    Prop where
  same : before.SameDirectories after
  content : after.content? path = before.content? path ∨ IsKept store markers path after

/-- No record of an index is that of a commit that its histories do not mention. -/
def ContentIndex.IsPruned (index : ContentIndex) : Prop :=
  ∀ c r, index.records.get? c = some r → c ∈ index.mentioned

/-- An index on its way: its histories are taken over, and its records are right. -/
structure InProgress (store : ρ) (markers : Markers) (histories : SortedMap (List CommitId))
    (index : ContentIndex) : Prop where
  histories_eq : index.histories = histories
  pruned : index.IsPruned
  sound : Sound store markers index

section Indexes

variable {store old new : ρ} {markers : Markers} {layout : Layout} {index index' : ContentIndex}

theorem ContentIndex.mentioned_eq (h : index'.histories = index.histories) :
    index'.mentioned = index.mentioned := by
  unfold mentioned
  rw [h]

/-- There is one index that is what a store says. -/
theorem UpToDate.unique (h : UpToDate store markers layout index)
    (h' : UpToDate store markers layout index') : index' = index := by
  obtain ⟨histories, hcollected, hhistories⟩ := h.histories
  obtain ⟨histories', hcollected', hhistories'⟩ := h'.histories
  obtain rfl := Except.ok.inj (hcollected'.symm.trans hcollected)
  have hsame : index'.histories = index.histories := hhistories'.trans hhistories.symm
  have hrecords : index'.records = index.records := by
    refine SortedMap.ext_get? fun c => Option.ext fun r => ?_
    have hexists : (∃ r, index'.records.get? c = some r) ↔ ∃ r, index.records.get? c = some r := by
      rw [← h.mentioned_iff, ← h'.mentioned_iff, ContentIndex.mentioned_eq hsame]
    -- Where both indexes have a record, it is what scanning comes to.
    constructor
    · intro hr
      obtain ⟨r', hr'⟩ := hexists.1 ⟨r, hr⟩
      rw [hr', Except.ok.inj ((h.sound c r' hr').symm.trans (h'.sound c r hr))]
    · intro hr
      obtain ⟨r', hr'⟩ := hexists.2 ⟨r, hr⟩
      rw [hr', Except.ok.inj ((h'.sound c r' hr').symm.trans (h.sound c r hr))]
  obtain ⟨histories, records⟩ := index
  obtain ⟨histories', records'⟩ := index'
  obtain rfl : histories' = histories := hsame
  obtain rfl : records' = records := hrecords
  rfl

theorem sound_empty (store : ρ) (markers : Markers) : Sound store markers .empty := by
  intro c r h
  cases h

/-- Taking over histories keeps the records of the commits that they mention. -/
theorem ContentIndex.get?_records_setHistories (index : ContentIndex)
    (histories : SortedMap BranchHistory) (c : CommitId) :
    (index.setHistories histories).records.get? c =
      if c ∈ (index.setHistories histories).mentioned then index.records.get? c else none := by
  rw [setHistories, SortedMap.get?_filterKeys]
  simp only [List.contains_iff_mem]
  rfl

theorem ContentIndex.isPruned_setHistories (index : ContentIndex)
    (histories : SortedMap BranchHistory) : (index.setHistories histories).IsPruned := by
  intro c r h
  rw [get?_records_setHistories, Option.ite_none_right_eq_some] at h
  exact h.1

/-- The record of a commit that is mentioned can be added to a pruned index. -/
theorem ContentIndex.IsPruned.addRecord (pruned : index.IsPruned) {c : CommitId}
    (hc : c ∈ index.mentioned) (r : InstallRecord) : (index.addRecord c r).IsPruned := by
  intro d r' hd
  rw [get?_records_addRecord] at hd
  split at hd
  · rename_i hdc
    rw [hdc]
    exact hc
  · exact pruned d r' hd

/-- A pruned index stays as it is when it takes over the histories that it has. -/
theorem ContentIndex.IsPruned.setHistories_eq_self (pruned : index.IsPruned)
    {histories : SortedMap BranchHistory}
    (hhistories : index.histories = histories.mapValues BranchHistory.commits) :
    index.setHistories histories = index := by
  have hsame : (index.setHistories histories).histories = index.histories := hhistories.symm
  have hrecords : (index.setHistories histories).records = index.records := by
    refine SortedMap.ext_get? fun c => ?_
    rw [get?_records_setHistories, mentioned_eq hsame]
    cases hr : index.records.get? c with
    | none => exact ite_self none
    | some r => exact if_pos (pruned c r hr)
  calc
    index.setHistories histories =
        ⟨(index.setHistories histories).histories, (index.setHistories histories).records⟩ := rfl
    _ = index := by rw [hsame, hrecords]

/-- Taking over histories leaves the records right. -/
theorem Sound.inProgress (sound : Sound store markers index)
    (histories : SortedMap BranchHistory) :
    InProgress store markers (histories.mapValues BranchHistory.commits)
      (index.setHistories histories) := by
  refine ⟨rfl, index.isPruned_setHistories histories, fun c r h => sound c r ?_⟩
  rw [ContentIndex.get?_records_setHistories, Option.ite_none_right_eq_some] at h
  exact h.2

theorem InProgress.addRecord {histories : SortedMap (List CommitId)}
    (h : InProgress store markers histories index) {c : CommitId} {r : InstallRecord}
    (hc : c ∈ index.mentioned) (hr : scanned store markers c = .ok r) :
    InProgress store markers histories (index.addRecord c r) :=
  ⟨h.histories_eq, h.pruned.addRecord hc r, h.sound.addRecord hr⟩

end Indexes

/-! ### Files -/

section Files

variable {store old new : ρ} {markers : Markers} {path : String} {before after : Files}
  {index : ContentIndex}

theorem IsKept.grow (h : IsKept old markers path after) (grows : Grows old new)
    (reachable : Reachable new) : IsKept new markers path after := by
  obtain ⟨kept, hcontent, sound⟩ := h
  exact ⟨kept, hcontent, sound.grow grows reachable⟩

theorem Leaves.refl (store : ρ) (markers : Markers) (path : String) (files : Files) :
    Leaves store markers path files files := ⟨.refl files, .inl rfl⟩

/-- Saving a sound index leaves the files as they may be left. -/
theorem Leaves.save (h : Leaves store markers path before after)
    (sound : Sound store markers index) :
    Leaves store markers path before (Snapshot.save path index after).2 := by
  refine ⟨h.same.trans (Snapshot.sameDirectories_save path index after), ?_⟩
  rcases Snapshot.content?_save path index after with hsame | hnew
  · rcases h.content with hold | ⟨kept, hkept, hsound⟩
    · exact .inl (hsame.trans hold)
    · exact .inr ⟨kept, hsame.trans hkept, hsound⟩
  · exact .inr ⟨index, hnew, sound⟩

/-- An index that is loaded from a file that a run may have left is sound. -/
theorem LoadsSound.of_kept
    (hkept : before.content? path = none ∨ IsKept store markers path before) :
    LoadsSound store markers path before := by
  intro index h
  rcases Snapshot.content?_of_load h with rfl | ⟨text, htext, hof⟩
  · exact sound_empty store markers
  rcases hkept with hnone | ⟨kept, hkept, sound⟩
  · rw [hnone] at htext
    cases htext
  · rw [Snapshot.load_of_content? hkept] at h
    obtain rfl := Except.ok.inj h
    exact sound

/-- A run that finds no file starts from an index without records. -/
theorem LoadsSound.of_absent (absent : before.read path = .error .notFound) :
    LoadsSound store markers path before := by
  intro index h
  rw [Snapshot.load_of_notFound absent] at h
  obtain rfl := Except.ok.inj h
  exact sound_empty store markers

end Files

/-! ### Runs -/

section Runs

variable {seen store : ρ} {settings : Settings} {interrupt : Interrupt} {schedule : Schedule}
  {before files : Files}
  {histories : SortedMap (List CommitId)} {index built : ContentIndex} {done : List Action}

/-- Filling an index on its way saves nothing but sound indexes. -/
theorem fill_leaves (interrupt : Interrupt) (schedule : Schedule) (done : List Action)
    (sees : Sees seen store)
    (inProgress : InProgress store settings.markers histories index)
    (leaves : Leaves store settings.markers settings.indexPath before files) :
    let filled := fill seen settings.markers settings.checkpointEvery interrupt
      (Snapshot.save settings.indexPath) index files done schedule
    InProgress store settings.markers histories filled.index ∧
      Leaves store settings.markers settings.indexPath before filled.saves := by
  refine fill_invariant (P := InProgress store settings.markers histories)
    (Q := Leaves store settings.markers settings.indexPath before) ?_ ?_ inProgress leaves
  · intro c hc r hr index' h'
    -- The index on its way keeps its histories, so it mentions the same commits all the time.
    have hsame := h'.histories_eq.trans inProgress.histories_eq.symm
    have hmentioned := (ContentIndex.mem_unscanned_iff.1 hc).1
    exact h'.addRecord (ContentIndex.mentioned_eq hsame ▸ hmentioned) (sees.scanned_of_scansTo hr)
  · intro index' files' h' hleaves
    exact hleaves.save h'.sound

theorem completeIndex_of_error {e : Failure} {saves : Files} {actions : List Action}
    (hfill : fill seen settings.markers settings.checkpointEvery interrupt
      (Snapshot.save settings.indexPath) index files done schedule =
        ⟨.error e, built, saves, actions⟩) :
    completeIndex seen settings interrupt index files done schedule =
      ⟨.error e, saves, actions⟩ := by
  unfold completeIndex
  dsimp only
  rw [hfill]

theorem completeIndex_of_ok {counts : FillCounts} {saves : Files} {actions : List Action}
    (hfill : fill seen settings.markers settings.checkpointEvery interrupt
      (Snapshot.save settings.indexPath) index files done schedule =
        ⟨.ok counts, built, saves, actions⟩) :
    completeIndex seen settings interrupt index files done schedule =
      ⟨(Snapshot.save settings.indexPath built saves).1.map fun _ => built,
        (Snapshot.save settings.indexPath built saves).2, .save :: actions⟩ := by
  unfold completeIndex
  dsimp only
  rw [hfill]

/-- Completing an index saves nothing but sound indexes. If it gets through, the index has a record
of every commit that it mentions, and it is saved. -/
theorem completeIndex_invariant (sees : Sees seen store)
    (inProgress : InProgress store settings.markers histories index)
    (leaves : Leaves store settings.markers settings.indexPath before files) :
    let indexed := completeIndex seen settings interrupt index files done schedule
    Leaves store settings.markers settings.indexPath before indexed.files ∧
      ∀ built, indexed.result = .ok built →
        InProgress store settings.markers histories built ∧
          (∀ c ∈ built.mentioned, ∃ r, built.records.get? c = some r) ∧
          before.Replaceable settings.indexPath ∧
          indexed.files.read settings.indexPath = .ok built.text := by
  intro indexed
  cases hfill : fill seen settings.markers settings.checkpointEvery interrupt
    (Snapshot.save settings.indexPath) index files done schedule with
  | mk result filled saves actions =>
    obtain ⟨hprogress, hleaves⟩ :=
      fill_leaves interrupt schedule done sees inProgress leaves
    rw [hfill] at hprogress hleaves
    cases result with
    | error e =>
      have hindexed : indexed = ⟨.error e, saves, actions⟩ := completeIndex_of_error hfill
      rw [hindexed]
      exact ⟨hleaves, fun built h => by cases h⟩
    | ok counts =>
      have hindexed : indexed = ⟨_, _, _⟩ := completeIndex_of_ok hfill
      rw [hindexed]
      dsimp only
      refine ⟨hleaves.save hprogress.sound, fun built hbuilt => ?_⟩
      obtain ⟨_, hsaved, rfl⟩ := map_eq_ok_iff.1 hbuilt
      have hreplaceable := Snapshot.save_eq_ok_iff.1 hsaved
      refine ⟨hprogress, fun c hc => ?_, hleaves.same.replaceable_iff.1 hreplaceable,
        Snapshot.read_save hsaved⟩
      have hsame := hprogress.histories_eq.trans inProgress.histories_eq.symm
      have hrecord := exists_record_fill (congrArg Filled.result hfill)
        (ContentIndex.mentioned_eq hsame ▸ hc)
      rwa [hfill] at hrecord

/-- An index that can be loaded takes over the histories that can be collected, and is completed. -/
theorem buildIndex_of_ok (interrupt : Interrupt) (schedule : Schedule)
    {histories : SortedMap BranchHistory}
    (hload : Snapshot.load settings.indexPath files = .ok index)
    (hcollect : ((collect seen settings.layout).after []).1 = .ok histories) :
    buildIndex seen settings interrupt files schedule =
      completeIndex seen settings interrupt (index.setHistories histories) files
        ((collect seen settings.layout).after []).2 schedule := by
  unfold buildIndex
  rw [hload]
  dsimp only
  rw [hcollect]

/-- What is left of a run that fails before the index is completed, or at that. -/
theorem buildIndex_cases (seen : ρ) (settings : Settings) (interrupt : Interrupt)
    (files : Files) (schedule : Schedule) :
    (∃ e done, buildIndex seen settings interrupt files schedule = ⟨.error e, files, done⟩) ∨
      ∃ index histories done, Snapshot.load settings.indexPath files = .ok index ∧
        ((collect seen settings.layout).after []).1 = .ok histories ∧
        buildIndex seen settings interrupt files schedule =
          completeIndex seen settings interrupt (index.setHistories histories) files done
            schedule := by
  cases hload : Snapshot.load settings.indexPath files with
  | error e =>
    unfold buildIndex
    rw [hload]
    exact .inl ⟨e, [], rfl⟩
  | ok index =>
    cases hcollect : ((collect seen settings.layout).after []).1 with
    | error e =>
      unfold buildIndex
      rw [hload]
      dsimp only
      rw [hcollect]
      exact .inl ⟨e, _, rfl⟩
    | ok histories =>
      exact .inr ⟨index, histories, _, rfl, rfl, buildIndex_of_ok interrupt schedule hload hcollect⟩

/-- A run leaves the index file as it was or with a sound index in it, however it ends. -/
theorem leaves_buildIndex (sees : Sees seen store)
    (loads : LoadsSound store settings.markers settings.indexPath files) :
    Leaves store settings.markers settings.indexPath files
      (buildIndex seen settings interrupt files schedule).files := by
  obtain ⟨e, done, h⟩ | ⟨index, collected, done, hload, -, h⟩ :=
    buildIndex_cases seen settings interrupt files schedule
  · rw [h]
    exact .refl store settings.markers settings.indexPath files
  · rw [h]
    have inProgress := (loads index hload).inProgress collected
    exact (completeIndex_invariant sees inProgress (.refl _ _ _ files)).1

/-- The index of a run that gets through is what the store says, and it is saved. -/
theorem upToDate_buildIndex (sees : Sees seen store)
    (loads : LoadsSound store settings.markers settings.indexPath files)
    (h : (buildIndex seen settings interrupt files schedule).result = .ok built) :
    UpToDate store settings.markers settings.layout built ∧
      files.Replaceable settings.indexPath ∧
      (buildIndex seen settings interrupt files schedule).files.read settings.indexPath =
        .ok built.text := by
  obtain ⟨e, done, hbuild⟩ | ⟨index, histories, done, hload, hcollect, hbuild⟩ :=
    buildIndex_cases seen settings interrupt files schedule
  · rw [hbuild] at h
    cases h
  · rw [hbuild] at h ⊢
    have inProgress := (loads index hload).inProgress histories
    obtain ⟨built', hrecorded, hreplaceable, hread⟩ :=
      (completeIndex_invariant sees inProgress (.refl _ _ _ files)).2 built h
    refine ⟨⟨⟨histories, sees.collected_eq_ok hcollect, built'.histories_eq⟩, fun c => ?_,
      built'.sound⟩, hreplaceable, hread⟩
    exact ⟨hrecorded c, fun ⟨r, hr⟩ => built'.pruned c r hr⟩

/-- An index is completed if every commit that it mentions can be scanned, it can be saved, and
nobody asks the run to stop. -/
theorem completeIndex_eq_ok (reachable : Reachable store)
    (hscan : ∀ c ∈ index.mentioned, ∃ r, scanned store settings.markers c = .ok r)
    (hreplaceable : files.Replaceable settings.indexPath) :
    ∃ built, (completeIndex store settings .never index files done schedule).result =
      .ok built := by
  cases hfill : fill store settings.markers settings.checkpointEvery .never
    (Snapshot.save settings.indexPath) index files done schedule with
  | mk result filled saves actions =>
    -- Whether the index can be saved depends on the directories alone, and no save changes them.
    have hsave : ∀ index saves, files.SameDirectories saves →
        (Snapshot.save settings.indexPath index saves).1 = .ok () ∧
          files.SameDirectories (Snapshot.save settings.indexPath index saves).2 :=
      fun index saves same => ⟨Snapshot.save_eq_ok_iff.2 (same.replaceable_iff.2 hreplaceable),
        same.trans (Snapshot.sameDirectories_save settings.indexPath index saves)⟩
    obtain ⟨counts, hcounts⟩ := exists_fill_eq_ok (Q := files.SameDirectories) reachable hsave
      hscan (.refl files)
    obtain ⟨-, same⟩ := fill_invariant (P := fun _ => True) (Q := files.SameDirectories)
      (fun c _ r (_ : ScansTo store settings.markers c r) _ _ => trivial)
      (fun index saves _ h => (hsave index saves h).2) trivial (.refl files)
    rw [hfill] at hcounts same
    cases hcounts
    rw [completeIndex_of_ok hfill]
    dsimp only
    rw [(hsave filled saves same).1]
    exact ⟨filled, rfl⟩

/-- A run that nothing keeps from it gets through: the store can be reached, every commit that its
histories mention can be scanned, the index file can be loaded and replaced, and nobody asks the run
to stop. -/
theorem buildIndex_eq_ok (schedule : Schedule) (reachable : Reachable store)
    {histories : SortedMap BranchHistory}
    (hload : Snapshot.load settings.indexPath files = .ok index)
    (hcollect : collected store settings.layout = .ok histories)
    (hscan : ∀ c ∈ (index.setHistories histories).mentioned,
      ∃ r, scanned store settings.markers c = .ok r)
    (hreplaceable : files.Replaceable settings.indexPath) :
    ∃ built, (buildIndex store settings .never files schedule).result = .ok built := by
  rw [buildIndex_of_ok .never schedule hload hcollect]
  exact completeIndex_eq_ok reachable hscan hreplaceable

end Runs

end ReleaseRecovery
