import Mathlib.Data.List.Chain
import ReleaseRecovery.Proofs.Indexing
import ReleaseRecovery.Proofs.Runs
import ReleaseRecovery.Repository.Memory

/-!
# Runs one after the other

Runs go on from the index file that the runs before them have left, over a store that grows between
them, and any of them can be stopped or fail at any moment. A run that gets through has the index
that a first run would have built at that time.

## Main Definitions

* `Call` — a run, the store at that time, and what the run gets to see of it
* `filesAfter` — the files after some runs
* `IsSequence` — runs that share an index file and markers, over a growing store
* `GetsThrough`, `GivesUp` — the two ways in which a run can end

## Main Statements

* `leaves_filesAfter` — what runs leave in the index file
* `incremental_run` — a run after others comes to the same as a first run
* `Memory.grows` — a store in memory grows by commits and directories
-/

namespace ReleaseRecovery

/-- A run: the store at that time, what the run gets to see of it, what it is asked to do, and the
order in which its workers take up commits. -/
structure Call (ρ : Type) where
  store : ρ
  seen : ρ
  settings : Settings
  interrupt : Interrupt
  schedule : Schedule
  now : Instant

variable {ρ : Type} [Repository ρ]

namespace Call

/-- What bringing the index up to date comes to. -/
def indexed (c : Call ρ) (files : Files) : Indexed :=
  buildIndex c.seen c.settings c.interrupt files c.schedule

/-- What the run comes to. -/
def outcome (c : Call ρ) (files : Files) : Outcome ρ :=
  run c.settings c.interrupt c.now c.seen files c.schedule

/-- What the run comes to after it has brought an index up to date. -/
def planned (c : Call ρ) (index : ContentIndex) (done : List Action) :
    Except Failure (Option Report) :=
  if c.settings.stage = .index then .ok none
  else ((planAndApply c.settings c.interrupt c.now index).after ⟨c.seen, done⟩).1.map some

theorem files_outcome (c : Call ρ) (files : Files) :
    (c.outcome files).files = (c.indexed files).files :=
  files_run ..

theorem result_outcome_of_error {c : Call ρ} {files : Files} {e : Failure}
    (h : (c.indexed files).result = .error e) : (c.outcome files).result = .error e := by
  unfold outcome run
  unfold indexed at h
  dsimp only
  rw [h]

theorem result_outcome_of_ok {c : Call ρ} {files : Files} {index : ContentIndex}
    (h : (c.indexed files).result = .ok index) :
    (c.outcome files).result = c.planned index (c.indexed files).done := by
  unfold outcome run planned
  unfold indexed at h
  dsimp only
  rw [h]
  dsimp only
  split
  · rfl
  · rfl

end Call

/-- The files after some runs. -/
def filesAfter (files : Files) (calls : List (Call ρ)) : Files :=
  calls.foldl (fun files c => (c.outcome files).files) files

/-- Runs that share an index file and markers, over a store that grows between them. -/
structure IsSequence (markers : Markers) (path : String) (calls : List (Call ρ)) : Prop where
  sees : ∀ c ∈ calls, Sees c.seen c.store
  markers_eq : ∀ c ∈ calls, c.settings.markers = markers
  path_eq : ∀ c ∈ calls, c.settings.indexPath = path
  grows : calls.IsChain fun a b => Grows a.store b.store

section Sequences

variable {markers : Markers} {path : String} {files before after : Files} {store : ρ}
  {calls : List (Call ρ)} {call : Call ρ}

theorem filesAfter_concat (files : Files) (calls : List (Call ρ)) (call : Call ρ) :
    filesAfter files (calls ++ [call]) = (call.indexed (filesAfter files calls)).files := by
  rw [filesAfter, List.foldl_append]
  exact call.files_outcome _

theorem IsSequence.of_append (h : IsSequence markers path (calls ++ [call])) :
    IsSequence markers path calls :=
  ⟨fun c hc => h.sees c (List.mem_append_left _ hc),
    fun c hc => h.markers_eq c (List.mem_append_left _ hc),
    fun c hc => h.path_eq c (List.mem_append_left _ hc), h.grows.left_of_append⟩

theorem Leaves.trans (h : Leaves store markers path files before)
    (h' : Leaves store markers path before after) : Leaves store markers path files after := by
  refine ⟨h.same.trans h'.same, ?_⟩
  rcases h'.content with hsame | hkept
  · rcases h.content with hold | ⟨kept, hkept, sound⟩
    · exact .inl (hsame.trans hold)
    · exact .inr ⟨kept, hsame.trans hkept, sound⟩
  · exact .inr hkept

theorem Leaves.grow {old new : ρ} (h : Leaves old markers path before after)
    (grows : Grows old new) (reachable : Reachable new) : Leaves new markers path before after :=
  ⟨h.same, h.content.imp_right fun kept => kept.grow grows reachable⟩

/-- What can be loaded after some runs from a file that was not there before them. -/
theorem Leaves.loadsSound (h : Leaves store markers path before after)
    (absent : before.read path = .error .notFound) : LoadsSound store markers path after := by
  have hnone : before.content? path = none := by
    rw [Files.content?, absent]
    rfl
  exact .of_kept (hnone ▸ h.content)

/-- A run that goes on from what runs may have left leaves what runs may leave. -/
theorem Leaves.indexed (h : Leaves call.store markers path files before)
    (absent : files.read path = .error .notFound) (sees : Sees call.seen call.store)
    (hmarkers : call.settings.markers = markers) (hpath : call.settings.indexPath = path) :
    Leaves call.store markers path before (call.indexed before).files := by
  subst hmarkers hpath
  exact leaves_buildIndex sees (h.loadsSound absent)

/-- Runs leave the index file as it was or with a sound index in it. -/
theorem leaves_filesAfter (absent : files.read path = .error .notFound)
    (sequence : IsSequence markers path calls) (reachable : Reachable store)
    (hlast : ∀ c ∈ calls.getLast?, Grows c.store store) :
    Leaves store markers path files (filesAfter files calls) := by
  -- From the last run backwards: the store of each run has all that earlier runs have scanned.
  induction calls using List.reverseRecOn generalizing store with
  | nil => exact .refl store markers path files
  | append_singleton calls call ih =>
    have hmem : call ∈ calls ++ [call] := List.mem_append_right calls List.mem_cons_self
    have sees := sequence.sees call hmem
    have hgrows : ∀ c ∈ calls.getLast?, Grows c.store call.store := fun c hc =>
      (List.isChain_append.1 sequence.grows).2.2 c hc call rfl
    have hbefore := ih sequence.of_append sees.reachable hgrows
    have hrun := hbefore.indexed absent sees (sequence.markers_eq call hmem)
      (sequence.path_eq call hmem)
    rw [filesAfter_concat]
    exact (hbefore.trans hrun).grow (hlast call (by simp)) reachable

/-- Runs find the index file that they share missing, or with a sound index in it. -/
theorem IsSequence.leaves_before (sequence : IsSequence markers path (calls ++ [call]))
    (absent : files.read path = .error .notFound) :
    Leaves call.store markers path files (filesAfter files calls) := by
  have sees := sequence.sees call (List.mem_append_right calls List.mem_cons_self)
  refine leaves_filesAfter absent sequence.of_append sees.reachable fun c hc => ?_
  exact (List.isChain_append.1 sequence.grows).2.2 c hc call rfl

/-- A first run that nothing keeps from it comes to the index that is what the store says. -/
theorem UpToDate.first {layout : Layout} {index : ContentIndex}
    (h : UpToDate store markers layout index) (reachable : Reachable store)
    (absent : files.read path = .error .notFound) (hreplaceable : files.Replaceable path)
    {first : Call ρ} (hseen : first.seen = store) (hnever : first.interrupt = .never)
    (hpath : first.settings.indexPath = path) (hmarkers : first.settings.markers = markers)
    (hlayout : first.settings.layout = layout) :
    (first.indexed files).result = .ok index ∧
      (first.outcome files).files.read path = .ok index.text := by
  subst hseen hpath hmarkers hlayout
  obtain ⟨histories, hcollected, hhistories⟩ := h.histories
  have hload := Snapshot.load_of_notFound absent
  -- A first run takes over the same histories, so it has the same commits to scan, and each can be.
  have hscan : ∀ c ∈ (ContentIndex.empty.setHistories histories).mentioned,
      ∃ r, scanned first.seen first.settings.markers c = .ok r := by
    intro c hc
    have hsame : (ContentIndex.empty.setHistories histories).histories = index.histories :=
      hhistories.symm
    obtain ⟨r, hr⟩ := (h.mentioned_iff c).1 (ContentIndex.mentioned_eq hsame ▸ hc)
    exact ⟨r, h.sound c r hr⟩
  obtain ⟨built, hbuilt⟩ :=
    buildIndex_eq_ok first.schedule reachable hload hcollected hscan hreplaceable
  have hresult : (first.indexed files).result = .ok built := by
    rw [Call.indexed, hnever]
    exact hbuilt
  obtain ⟨upToDate, -, hread⟩ := upToDate_buildIndex (.refl reachable) (.of_absent absent) hresult
  -- Both indexes are what the store says, and there is only one that is.
  obtain rfl := h.unique upToDate
  rw [first.files_outcome]
  exact ⟨hresult, hread⟩

/-- A run that gets past bringing the index up to date: the index is what the store says at that
time, it is saved and planned from, and it is the one that a first run over this store comes to. -/
structure GetsThrough (markers : Markers) (path : String) (files before : Files) (call : Call ρ)
    (index : ContentIndex) : Prop where
  upToDate : UpToDate call.store markers call.settings.layout index
  saved : (call.outcome before).files.read path = .ok index.text
  loads : Snapshot.load path (call.outcome before).files = .ok index
  planned : (call.outcome before).result = call.planned index (call.indexed before).done
  first : ∀ first : Call ρ, first.seen = call.store → first.interrupt = .never →
    first.settings.indexPath = path → first.settings.markers = markers →
    first.settings.layout = call.settings.layout →
    (first.indexed files).result = .ok index ∧
      (first.outcome files).files.read path = (call.outcome before).files.read path

/-- A run that fails before: the index file stays as it was or loads to a sound index. Where no
save can succeed, the cause why the file cannot be read may be another one. -/
structure GivesUp (markers : Markers) (path : String) (before : Files) (call : Call ρ)
    (e : Failure) : Prop where
  fails : (call.outcome before).result = .error e
  left : (call.outcome before).files.read path = before.read path ∨
    (∃ kept, Snapshot.load path (call.outcome before).files = .ok kept ∧
      Sound call.store markers kept) ∨
    (¬ before.Replaceable path ∧ before.content? path = none ∧
      (call.outcome before).files.content? path = none)

/-- A file of which the same can be read as before is the same, or it cannot be replaced and cannot
be read before or after. -/
theorem Leaves.read_eq_or (h : Leaves store markers path before after)
    (hsame : after.content? path = before.content? path) :
    after.read path = before.read path ∨
      ¬ before.Replaceable path ∧ before.content? path = none ∧ after.content? path = none := by
  cases hcontent : before.content? path with
  | some content =>
    rw [hcontent] at hsame
    rw [Files.content?_eq_some_iff.1 hcontent, Files.content?_eq_some_iff.1 hsame]
    exact .inl rfl
  | none =>
    by_cases hreplaceable : before.Replaceable path
    · rw [hreplaceable.read_eq, (h.same.replaceable_iff.2 hreplaceable).read_eq, hsame]
      exact .inl rfl
    · exact .inr ⟨hreplaceable, rfl, hsame.trans hcontent⟩

/-- A run after others comes to the same as a first run, whatever has stopped the others. If it
fails before it has an index, what it leaves in the index file is sound. -/
theorem incremental_run (absent : files.read path = .error .notFound)
    (sequence : IsSequence markers path (calls ++ [call])) :
    let before := filesAfter files calls
    (∀ index, (call.indexed before).result = .ok index →
      GetsThrough markers path files before call index) ∧
    ∀ e, (call.indexed before).result = .error e → GivesUp markers path before call e := by
  intro before
  have hmem : call ∈ calls ++ [call] := List.mem_append_right calls List.mem_cons_self
  have sees := sequence.sees call hmem
  obtain rfl := sequence.markers_eq call hmem
  obtain rfl := sequence.path_eq call hmem
  -- All that the run needs to know of the runs before it is what they have left in the index file.
  have leaves : Leaves call.store call.settings.markers call.settings.indexPath files before :=
    sequence.leaves_before absent
  have loads := leaves.loadsSound absent
  constructor
  · intro index hindex
    obtain ⟨upToDate, hreplaceable, hread⟩ := upToDate_buildIndex sees loads hindex
    have saved : (call.outcome before).files.read call.settings.indexPath = .ok index.text := by
      rw [call.files_outcome]
      exact hread
    have loads := Snapshot.load_of_content? (Files.content?_eq_some_iff.2 saved)
    refine ⟨upToDate, saved, loads, Call.result_outcome_of_ok hindex, ?_⟩
    intro first hseen hnever hpath hmarkers hlayout
    rw [saved]
    exact upToDate.first sees.reachable absent (leaves.same.replaceable_iff.1 hreplaceable) hseen
      hnever hpath hmarkers hlayout
  · intro e he
    refine ⟨Call.result_outcome_of_error he, ?_⟩
    rw [call.files_outcome]
    have leaves : Leaves call.store call.settings.markers call.settings.indexPath before
        (call.indexed before).files := leaves_buildIndex sees loads
    rcases leaves.content with hsame | ⟨index, hcontent, sound⟩
    · exact (leaves.read_eq_or hsame).imp_right .inr
    · exact .inr (.inl ⟨index, Snapshot.load_of_content? hcontent, sound⟩)

end Sequences

/-! ### Stores in memory -/

section Memory

variable {α : Type} {old new : Memory}

theorem SortedMap.size_le {m n : SortedMap α} (h : m.entries ⊆ n.entries) : m.size ≤ n.size := by
  have nodup : m.entries.Nodup :=
    m.distinct_entries.imp fun hne heq => hne (congrArg Prod.fst heq)
  exact nodup.length_le_of_subset h

theorem Memory.lookUp_eq_ok {missing : String → Failure} {m n : SortedMap α}
    (h : m.entries ⊆ n.entries) {key : String} {a : α} (ha : lookUp missing m key = .ok a) :
    lookUp missing n key = .ok a := by
  unfold lookUp at ha ⊢
  split at ha
  · rename_i found hget
    rw [SortedMap.get?_eq_some_iff.2 (h (SortedMap.get?_eq_some_iff.1 hget))]
    exact ha
  · cases ha

/-- A store in memory grows by commits and directories, whatever becomes of its logs. -/
theorem Memory.grows (hcommits : old.commits.entries ⊆ new.commits.entries)
    (htrees : old.trees.entries ⊆ new.trees.entries) : Grows old new where
  commit id c h := by
    obtain ⟨tree, htree, hc⟩ := map_eq_ok_iff.1 h
    exact map_eq_ok_iff.2 ⟨tree, lookUp_eq_ok hcommits htree, hc⟩
  entries _ _ h := lookUp_eq_ok htrees h
  depth := Nat.succ_le_succ (SortedMap.size_le htrees)

theorem Memory.reachable (m : Memory) : Reachable m := fun _ => rfl

/-- A store with two commits on its reference line. -/
def Memory.early : Memory where
  logs := .ofList [("svn/trunk", ["A2", "A1"])]
  commits := .ofList [("A1", "T1"), ("A2", "T2")]
  trees := .ofList [("T1", [⟨.tree, "vice", "V1"⟩]), ("T2", [⟨.tree, "vice", "V2"⟩])]
  written := []
  refs := .empty

/-- The same store later: the reference line has lost its first commit and has got another one. -/
def Memory.late : Memory where
  logs := .ofList [("svn/trunk", ["A3", "A2"])]
  commits := .ofList [("A1", "T1"), ("A2", "T2"), ("A3", "T3")]
  trees := .ofList [("T1", [⟨.tree, "vice", "V1"⟩]), ("T2", [⟨.tree, "vice", "V2"⟩]),
    ("T3", [⟨.tree, "vice", "V3"⟩])]
  written := []
  refs := .empty

/-- Settings of a run that brings the index up to date. -/
def Settings.indexing : Settings where
  repo := "repo"
  indexPath := "index.json"
  planOutput := none
  stage := .index
  markers := ⟨"vice", "README"⟩
  layout := ⟨"svn/", "svn/trunk"⟩
  jobs := some 2
  checkpointEvery := 2
  tagStart := "release/"
  legacyBranch := "legacy_releases"
  identity := ⟨"Release Reconstructor", "release-reconstructor@localhost"⟩
  date := none
  verbose := false
  quiet := false
  checkpointEvery_pos := by decide

/-- A run that takes up the second commit first and is stopped while it scans it. -/
def Call.stopped : Call Memory :=
  ⟨.early, .early, .indexing, .after (.commit "A2"), ⟨List.reverse, List.reverse_perm⟩, ⟨0, 0⟩⟩

/-- A run that goes on later. -/
def Call.resumed : Call Memory := ⟨.late, .late, .indexing, .never, .inTurn, ⟨1, 0⟩⟩

theorem incremental_run_resumed :
    ∃ kept index, Snapshot.load "index.json" (filesAfter .fresh [Call.stopped]) = .ok kept ∧
      kept.records.keys = ["A2"] ∧ index.records.keys = ["A2", "A3"] ∧
      GetsThrough ⟨"vice", "README"⟩ "index.json" .fresh (filesAfter .fresh [Call.stopped])
        Call.resumed index := by
  have hkept : (Snapshot.load "index.json" (filesAfter .fresh [Call.stopped])).toOption.map
      (fun kept => kept.records.keys) = some ["A2"] := by decide +kernel
  have hindex : (Call.resumed.indexed (filesAfter .fresh [Call.stopped])).result.toOption.map
      (fun index => index.records.keys) = some ["A2", "A3"] := by decide +kernel
  obtain ⟨kept, hload, hkeptKeys⟩ := Option.map_eq_some_iff.1 hkept
  obtain ⟨index, hresult, hkeys⟩ := Option.map_eq_some_iff.1 hindex
  have sequence :
      IsSequence ⟨"vice", "README"⟩ "index.json" ([Call.stopped] ++ [Call.resumed]) := by
    refine ⟨?_, ?_, ?_, .cons_cons (Memory.grows (by decide) (by decide)) (.singleton _)⟩
    · rintro c (_ | ⟨_, _ | ⟨_, ⟨⟩⟩⟩)
      · exact .refl (Memory.reachable _)
      · exact .refl (Memory.reachable _)
    · rintro c (_ | ⟨_, _ | ⟨_, ⟨⟩⟩⟩) <;> rfl
    · rintro c (_ | ⟨_, _ | ⟨_, ⟨⟩⟩⟩) <;> rfl
  refine ⟨kept, index, toOption_eq_some_iff.1 hload, hkeptKeys, hkeys, ?_⟩
  exact (incremental_run rfl sequence).1 index (toOption_eq_some_iff.1 hresult)

end Memory

end ReleaseRecovery
