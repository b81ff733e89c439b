import ReleaseRecovery.Proofs.Completion
import ReleaseRecovery.Proofs.FreshTags
import ReleaseRecovery.Proofs.GitResumption
import ReleaseRecovery.Proofs.Incremental

/-!
# Running again

A run that applies a plan writes to the store that it has read. If what it has written does not
change the histories that are collected, a second run finds its own index again, plans the same, and
finds everything written already. In a store of objects and refs that is so if the refs that were
made disturb neither the list of refs nor what a name stands for.

## Main Statements

* `buildIndex_again` — an index that was brought up to date is found again
* `run_again_of_collect` — a run is repeated without any change if it collects the same histories
* `Git.Store.Undisturbed.collect` — the same histories are collected if reading is undisturbed
* `Git.Store.run_again` — a run with refs that are apart from what is read is repeated without any
  change
* `Git.Store.not_forall_run_again` — a run whose branch has the name of the reference line is not
-/

namespace ReleaseRecovery

variable {ρ : Type} [Repository ρ]

/-! ### Collecting again -/

section Collecting

variable {seen store : ρ} {layout : Layout} {α β : Type}

/-- Every part of a calculation for a list comes to something if the whole does. -/
theorem Reading.exists_after_of_mapM {f : α → Reading β} {l : List α} {done : List Action}
    {bs : List β} (h : ((l.mapM f).after done).1 = .ok bs) :
    ∀ a ∈ l, ∃ done b, ((f a).after done).1 = .ok b := by
  induction l generalizing done bs with
  | nil => nofun
  | cons a l ih =>
    rw [List.mapM_cons] at h
    obtain ⟨b, hfirst, h⟩ := after_bind_eq_ok_iff.1 h
    obtain ⟨bs, hrest, -⟩ := after_bind_eq_ok_iff.1 h
    exact List.forall_mem_cons.2 ⟨⟨done, b, hfirst⟩, ih hrest⟩

/-- Histories can be collected only if the refs can be listed and every one of them has a log. -/
theorem exists_log_of_collect {histories : SortedMap BranchHistory} {done : List Action}
    (h : ((collect seen layout).after done).1 = .ok histories) :
    ∃ names, Repository.listRefs seen layout.start = .ok names ∧
      ∀ ref ∈ layout.reference :: names, ∃ commits, Repository.log seen ref = .ok commits := by
  have hlog {terminators : List CommitId} {ref : String} {done : List Action} {b : BranchHistory}
      (h : ((history seen terminators ref).after done).1 = .ok b) :
      ∃ commits, Repository.log seen ref = .ok commits := by
    obtain ⟨commits, hcommits, -⟩ := Reading.after_bind_eq_ok_iff.1 h
    exact ⟨commits, Reading.answer_of_after_ask hcommits⟩
  obtain ⟨reference, hreference, h⟩ := Reading.after_bind_eq_ok_iff.1 h
  obtain ⟨names, hnames, h⟩ := Reading.after_bind_eq_ok_iff.1 h
  obtain ⟨others, hothers, -⟩ := Reading.after_bind_eq_ok_iff.1 h
  refine ⟨names, Reading.answer_of_after_ask hnames, List.forall_mem_cons.2 ⟨hlog hreference, ?_⟩⟩
  intro ref href
  by_cases heq : ref = layout.reference
  · exact heq ▸ hlog hreference
  · have hmem : ref ∈ names.filter (· != layout.reference) :=
      List.mem_filter.2 ⟨href, bne_iff_ne.2 heq⟩
    obtain ⟨_, _, hb⟩ := Reading.exists_after_of_mapM hothers ref hmem
    exact hlog hb

/-- The same histories are collected from a store that lists the same refs, with the same logs. -/
theorem collect_follows_of_names (reachable : Reachable store) {names : List String}
    (hseen : Repository.listRefs seen layout.start = .ok names)
    (hstore : Repository.listRefs store layout.start = .ok names)
    (hlog : ∀ ref ∈ layout.reference :: names, ∀ commits,
      Repository.log seen ref = .ok commits → Repository.log store ref = .ok commits) :
    (collect store layout).Follows (collect seen layout) := by
  have hhistory (terminators : List CommitId) : ∀ ref ∈ layout.reference :: names,
      (history store terminators ref).Follows (history seen terminators ref) :=
    fun ref href => .bind (.ask reachable (hlog ref href)) fun _ => .pure _
  refine .bind (hhistory [] _ List.mem_cons_self) fun reference => ?_
  refine .bind_of_ok (.ask reachable fun names' hnames' => ?_) fun names' done hnames' => ?_
  · rw [hstore, ← hseen, hnames']
  obtain rfl : names = names' :=
    Except.ok.inj (hseen.symm.trans (Reading.answer_of_after_ask hnames'))
  refine .bind (.mapM fun ref href => ?_) fun others => .pure _
  exact hhistory reference.commits ref (List.mem_cons_of_mem _ (List.mem_of_mem_filter href))

end Collecting

/-! ### Filling again -/

section Filling

variable {seen : ρ} {markers : Markers} {index built : ContentIndex} {settings : Settings}
  {interrupt : Interrupt} {schedule : Schedule} {files : Files} {done : List Action}

/-- Nothing is left to scan for an index that has every record. -/
theorem ContentIndex.unscanned_of_complete (complete : index.IsComplete) :
    index.unscanned = [] := by
  refine List.eq_nil_iff_forall_not_mem.2 fun c hc => ?_
  obtain ⟨hmentioned, hnone⟩ := ContentIndex.mem_unscanned_iff.1 hc
  obtain ⟨r, hr⟩ := complete c hmentioned
  rw [hnone] at hr
  cases hr

/-- To complete an index that has every record is to save it. -/
theorem completeIndex_of_complete (complete : index.IsComplete)
    (hreplaceable : files.Replaceable settings.indexPath) :
    let indexed := completeIndex seen settings interrupt index files done schedule
    indexed.result = .ok index ∧ indexed.files.read settings.indexPath = .ok index.text := by
  have hfill : fill seen settings.markers settings.checkpointEvery interrupt
      (Snapshot.save settings.indexPath) index files done schedule =
        ⟨.ok ⟨0, index.uniqueCommits⟩, index, files, done⟩ := by
    unfold fill
    dsimp only
    rw [ContentIndex.unscanned_of_complete complete, batches, fillBatches]
    rfl
  have hsave : (Snapshot.save settings.indexPath index files).1 = .ok () :=
    Snapshot.save_eq_ok_iff.2 hreplaceable
  rw [completeIndex_of_ok hfill]
  dsimp only
  rw [hsave]
  exact ⟨rfl, Snapshot.read_save hsave⟩

/-- An index that has been filled with some histories has no record but of what they mention, so to
take them over once more changes nothing. -/
theorem Completed.setHistories_eq_self {histories : SortedMap BranchHistory}
    (completed : Completed seen markers (index.setHistories histories) built) :
    built.setHistories histories = built := by
  have hstart := ContentIndex.mentioned_eq completed.histories_eq
  have pruned : built.IsPruned := by
    intro c r hr
    rcases completed.added c r hr with hold | ⟨hunscanned, -⟩
    · exact hstart ▸ ContentIndex.isPruned_setHistories _ _ c r hold
    · exact hstart ▸ (ContentIndex.mem_unscanned_iff.1 hunscanned).1
  exact pruned.setHistories_eq_self completed.histories_eq

/-- An index that was brought up to date is found again, whoever asks, if the histories are still
the same. -/
theorem buildIndex_again {again : ρ}
    (h : (buildIndex seen settings interrupt files schedule).result = .ok index)
    (hcollect : ((collect again settings.layout).after []).1 =
      ((collect seen settings.layout).after []).1)
    (interrupt' : Interrupt) (schedule' : Schedule) :
    let before := buildIndex seen settings interrupt files schedule
    let after := buildIndex again settings interrupt' before.files schedule'
    after.result = .ok index ∧
      after.files.read settings.indexPath = before.files.read settings.indexPath := by
  intro before after
  obtain ⟨loaded, histories, -, hhistories, completed, hreplaceable, hread⟩ :=
    completed_of_buildIndex h
  have hload : Snapshot.load settings.indexPath before.files = .ok index :=
    Snapshot.load_of_content? (Files.content?_eq_some_iff.2 hread)
  have hreplaceable' : before.files.Replaceable settings.indexPath :=
    (sameDirectories_buildIndex seen settings interrupt files schedule).replaceable_iff.2
      hreplaceable
  rw [hread]
  have hafter : after = completeIndex again settings interrupt' index before.files
      ((collect again settings.layout).after []).2 schedule' := by
    unfold after
    rw [buildIndex_of_ok interrupt' schedule' hload (hcollect.trans hhistories),
      completed.setHistories_eq_self]
  rw [hafter]
  exact completeIndex_of_complete completed.complete hreplaceable'

end Filling

/-! ### Runs -/

section Runs

variable {settings : Settings} {interrupt : Interrupt} {schedule : Schedule} {now : Instant}
  {repo : ρ} {files : Files} {report : Report}

/-- A run that has applied its plan is repeated without any change if the same histories are
collected from the store that it leaves. Its second report is the same, but for what was new. -/
theorem run_again_of_collect {later : ρ → ρ → Prop} (remembers : Remembers id later)
    (hstage : settings.stage = .apply) (hdate : settings.date.isSome)
    (h : (run settings interrupt now repo files schedule).result = .ok (some report))
    (hcollect : ((collect (run settings interrupt now repo files schedule).repo
        settings.layout).after []).1 = ((collect repo settings.layout).after []).1)
    (now' : Instant) (schedule' : Schedule) :
    let first := run settings interrupt now repo files schedule
    let again := run settings .never now' first.repo first.files schedule'
    again.result = .ok (some { report with applied := report.applied.map ApplyReport.settled }) ∧
      again.repo = first.repo ∧
      again.files.read settings.indexPath = first.files.read settings.indexPath := by
  intro first again
  obtain ⟨index, s', hindex, hplanned, hrepo⟩ := exists_planAndApply_of_run h
  obtain ⟨x, applied, hcross, happly, rfl⟩ := planAndApply_eq_ok hstage hplanned
  have hfiles : first.files = (buildIndex repo settings interrupt files schedule).files :=
    files_run ..
  have hoptions : settings.applyOptions now' = settings.applyOptions now := by
    obtain ⟨date, hdate⟩ := Option.isSome_iff_exists.1 hdate
    rw [Settings.applyOptions, Settings.applyOptions, hdate]
    rfl
  obtain ⟨hindex', hread⟩ := buildIndex_again hindex hcollect .never schedule'
  rw [← hfiles] at hindex' hread
  -- The second plan is applied to the store that the first one has left, which is late enough.
  obtain ⟨-, hrepeat⟩ :=
    remembers.applyPlan (settings.applyOptions now) interrupt x.plan _ _ _ happly
  obtain ⟨_, s'', happly', rfl, hsame⟩ :=
    hrepeat ⟨first.repo,
        .poll :: .poll :: (buildIndex first.repo settings .never first.files schedule').done⟩
      (hrepo ▸ remembers.refl _)
  rw [← hoptions] at happly'
  have hagain := run_eq now' hstage hindex' hcross happly'
  refine ⟨?_, ?_, ?_⟩
  · unfold again
    rw [hagain]
    rfl
  · unfold again
    rw [hagain]
    exact hsame
  · unfold again
    rw [hagain, hread]

end Runs

/-! ### Stores of objects and refs -/

namespace Git.Store

variable {s t : Store} {layout : Layout}

/-- A ref has a log only if its name stands for an object. -/
theorem exists_resolve_of_log {ref : String} {commits : List CommitId}
    (h : s.log ref = .ok commits) : ∃ id, s.resolve ref = .ok id := by
  obtain ⟨start, hstart, -⟩ := bind_eq_ok_iff.1 h
  unfold tip at hstart
  split at hstart
  · cases hstart
  · cases hstart
  · rename_i id hid
    exact ⟨id, hid⟩

/-- The same histories are collected if reading is undisturbed. -/
theorem Undisturbed.collect (undisturbed : Undisturbed layout s t) (within : Within s t)
    {histories : SortedMap BranchHistory} (h : ((collect s layout).after []).1 = .ok histories) :
    ((ReleaseRecovery.collect t layout).after []).1 = .ok histories := by
  have hlisted : Repository.listRefs t layout.start = .ok (s.shortNames layout.start) :=
    congrArg Except.ok undisturbed.shortNames_eq
  refine collect_follows_of_names (fun _ => rfl) rfl hlisted ?_ histories [] [] h
  intro ref href
  exact within.log (undisturbed.resolve_eq ref href)

/-- A run that has applied its plan, with a given time for what it makes, comes to the same when it
is repeated on the store and the index file that it has left: it plans the same, makes the same
commits, finds all refs, and changes nothing. For this the new refs must not disturb the reading of
refs, which they do not do if they are apart from the names that are read. -/
theorem run_again {settings : Settings} {interrupt : Interrupt} {now : Instant} {repo : Store}
    {files : Files} {schedule : Schedule} {report : Report} (hstage : settings.stage = .apply)
    (hdate : settings.date.isSome)
    (h : (run settings interrupt now repo files schedule).result = .ok (some report)) :
    let first := run settings interrupt now repo files schedule
    ∃ applied, report.applied = some applied ∧
      (repo.Apart settings.layout applied.newRefs →
        repo.Undisturbed settings.layout first.repo) ∧
      (repo.Undisturbed settings.layout first.repo → ∀ now' schedule',
        let again := run settings .never now' first.repo first.files schedule'
        again.result = .ok (some { report with applied := some applied.settled }) ∧
          again.repo = first.repo ∧
          again.files.read settings.indexPath = first.files.read settings.indexPath) := by
  intro first
  obtain ⟨index, s', hindex, hplanned, hrepo⟩ := exists_planAndApply_of_run h
  obtain ⟨x, applied, -, happly, rfl⟩ := planAndApply_eq_ok hstage hplanned
  obtain ⟨loaded, histories, -, hcollect, -⟩ := completed_of_buildIndex hindex
  have hadds : Adds (· ∈ applied.newRefs) repo first.repo := hrepo ▸ adds_applyPlan happly
  refine ⟨applied, rfl, fun apart => ?_, fun undisturbed now' schedule' => ?_⟩
  · refine undisturbed_of_apart apart hadds fun name hname => ?_
    obtain ⟨names, hnames, hlogs⟩ := exists_log_of_collect hcollect
    obtain rfl := Except.ok.inj hnames
    obtain ⟨commits, hcommits⟩ := hlogs name hname
    exact exists_resolve_of_log hcommits
  · refine run_again_of_collect remembers hstage hdate h ?_ now' schedule'
    rw [hcollect]
    exact undisturbed.collect hadds.toWithin hcollect

/-! ### An imported line -/

/-- The tree of the line. -/
def importedTree : TreeId := "151de34c4ef67c0e5a528b77140285e354605984"

/-- The tree of the release. -/
def releaseTree : TreeId := "0f1c143e56e816cb6e805efc87e7720feaedbee4"

/-- The commit of the line. -/
def importedCommit : CommitId := "bfa5e182916c93ed6ba26f52368a72c57d00985c"

/-- The commit of the release. -/
def releaseCommit : CommitId := "e8023aec5c64a2172e26fc64d20a0068651c162a"

/-- The commit that is made for the release. -/
def madeCommit : CommitId := "aab77435fc8359a38d1bbfb762dd702beb105756"

/-- The id with the given digits. -/
def idOf (digits : String) : Id := (Id.ofText? digits).getD emptyTree

/-- A directory that holds nothing but another one. -/
def holding (name : String) (inner : Id) : Object :=
  ⟨.tree, TreeEntry.encode ⟨0o40000, Ascii.bytes name, inner⟩⟩

/-- A commit with nothing before it. -/
def firstCommit (tree : Id) (maker email : String) (time : Int) (message : String) : Object :=
  let signature : Signature := ⟨Ascii.bytes maker, Ascii.bytes email, time⟩
  ⟨.commit, Commit.encode ⟨tree, [], signature, signature, Ascii.bytes message⟩ 0 0⟩

/-- A line of one commit, and a release whose content it never had. -/
def imported : Store where
  objects := .ofList
    [("4b825dc642cb6eb9a060e54bf8d69288fbee4904", ⟨.tree, []⟩),
      (importedTree, holding "vice" emptyTree),
      (releaseTree, holding "vice" (idOf importedTree)),
      (importedCommit,
        firstCommit (idOf importedTree) "Importer" "importer@example.com" 1000000000 "trunk"),
      (releaseCommit,
        firstCommit (idOf releaseTree) "Importer" "importer@example.com" 1000000060 "tag")]
  refs := .ofList
    [("HEAD", .ref "refs/heads/master"),
      ("refs/remotes/svn/tags/v0.9", .object (idOf releaseCommit)),
      ("refs/remotes/svn/trunk", .object (idOf importedCommit))]
  others := []
  spare := []

/-- Settings of a run that is to apply its plan, for some branch. -/
def applyingTo (branch : String) : Settings :=
  { Settings.indexing with
    stage := .apply
    date := some ⟨1118131750, 0⟩
    legacyBranch := branch }

/-- The index of the imported line. -/
def importedIndex : ContentIndex where
  histories := .ofList [("svn/tags/v0.9", [releaseCommit]), ("svn/trunk", [importedCommit])]
  records := .ofList
    [(importedCommit,
        ⟨.ofList [("/", importedTree)],
          .ofList [("/vice/", "4b825dc642cb6eb9a060e54bf8d69288fbee4904")]⟩),
      (releaseCommit, ⟨.ofList [("/", releaseTree)], .ofList [("/vice/", importedTree)]⟩)]

/-- The only release that is planned for the imported line. -/
def importedRelease : PlannedRelease :=
  ⟨⟨[0, 9]⟩, "svn/tags/v0.9/", releaseTree, none⟩

/-- Which branch is written makes no difference to the index. -/
theorem buildIndex_legacyBranch {ρ : Type} [Repository ρ] (seen : ρ) (settings : Settings)
    (branch : String) (interrupt : Interrupt) (files : Files) (schedule : Schedule) :
    buildIndex seen { settings with legacyBranch := branch } interrupt files schedule =
      buildIndex seen settings interrupt files schedule := by
  simp only [buildIndex, completeIndex]

/-- The reference line of the imported line. -/
def importedTrunk : SortedMap CommitId := .ofList [(importedTree, importedCommit)]

/-- The subhistories of the imported line. -/
def importedSubhistories : SortedMap Subhistory :=
  .ofList [("svn/tags/v0.9/", ⟨[releaseTree], none, none⟩)]

/-- The subhistories and the plan of the imported line. -/
def importedCross : CrossReference :=
  ⟨importedSubhistories, resolveReleases importedSubhistories importedTrunk⟩

set_option maxRecDepth 20000 in
theorem buildIndex_imported (branch : String) :
    (buildIndex imported (applyingTo branch) .never .fresh).result = .ok importedIndex := by
  have h : (buildIndex imported (applyingTo "") .never .fresh).result = .ok importedIndex :=
    toOption_eq_some_iff.1 (by decide +kernel)
  rw [← h]
  exact congrArg Indexed.result (buildIndex_legacyBranch imported (applyingTo "") branch ..)

theorem crossReference_imported :
    crossReference importedIndex "svn/trunk" = .ok importedCross :=
  crossReference_eq_ok_iff.2 ⟨importedTrunk, by decide, by decide, rfl⟩

theorem releases_imported : importedCross.plan.releases = [importedRelease] := by
  have hversions : ((copies importedSubhistories).map (·.version)).eraseDups = [⟨[0, 9]⟩] := by
    decide
  rw [importedCross, releases_of_versions hversions (by decide)]
  decide

theorem ordered_imported : importedCross.plan.ordered = [importedRelease] :=
  (ordered_of_crossReference crossReference_imported).trans releases_imported

/-- What applying the plan of the imported line comes to. -/
def importedApplied (branch : String) : Except Failure ApplyReport × Session Store :=
  (applyPlan ((applyingTo branch).applyOptions ⟨0, 0⟩) .never importedCross.plan).after
    ⟨imported, .poll :: .poll :: (buildIndex imported (applyingTo branch) .never .fresh).done⟩

/-- The first run over the imported line. -/
def importedRun (branch : String) : Outcome Store :=
  run (applyingTo branch) .never ⟨0, 0⟩ imported .fresh

/-- The second run. -/
def importedRerun (branch : String) : Outcome Store :=
  run (applyingTo branch) .never ⟨1, 0⟩ (importedRun branch).repo (importedRun branch).files

theorem importedRun_eq {branch : String} {applied : ApplyReport} {s' : Session Store}
    (h : importedApplied branch = (.ok applied, s')) :
    importedRun branch =
      ⟨.ok (some ⟨"svn/trunk", importedCross, some applied⟩), s'.repo,
        (buildIndex imported (applyingTo branch) .never .fresh).files, s'.done⟩ :=
  run_eq ⟨0, 0⟩ rfl (buildIndex_imported branch) crossReference_imported h

/-- A release that is made beside the imported line is found again. -/
theorem run_again_imported :
    ∃ report applied, (importedRun "legacy_releases").result = .ok (some report) ∧
      report.applied = some applied ∧
      applied.newRefs = ["refs/tags/release/v0.9", "refs/heads/legacy_releases"] ∧
      imported.Apart ⟨"svn/", "svn/trunk"⟩ applied.newRefs ∧
      (importedRerun "legacy_releases").result =
        .ok (some { report with applied := some applied.settled }) ∧
      (importedRerun "legacy_releases").repo = (importedRun "legacy_releases").repo := by
  have hrefs : (importedApplied "legacy_releases").1.toOption.map ApplyReport.newRefs =
      some ["refs/tags/release/v0.9", "refs/heads/legacy_releases"] := by
    simp only [importedApplied, applyPlan, ordered_imported]
    decide +kernel
  obtain ⟨applied, s', happly, hnew⟩ := exists_eq_ok_of_map hrefs
  have hfirst : (importedRun "legacy_releases").result =
      .ok (some ⟨"svn/trunk", importedCross, some applied⟩) := by
    rw [importedRun_eq happly]
  have apart : imported.Apart ⟨"svn/", "svn/trunk"⟩ applied.newRefs := by
    rw [hnew]
    exact ⟨by decide +kernel, by decide +kernel⟩
  obtain ⟨_, happlied, hundisturbed, hagain⟩ := run_again rfl rfl hfirst
  obtain rfl := Option.some.inj happlied
  obtain ⟨hresult, hrepo, -⟩ := hagain (hundisturbed apart) ⟨1, 0⟩ .inTurn
  exact ⟨_, applied, hfirst, rfl, hnew, apart, hresult, hrepo⟩

/-! ### A branch with the name of the reference line -/

/-- The imported line with its release made, in a branch of the same name. -/
def overshadowed : Store where
  objects := imported.objects.insert madeCommit
    (firstCommit (idOf releaseTree) "Release Reconstructor"
      "release-reconstructor@localhost" 1118131750 "Legacy release v0.9")
  refs := .ofList
    [("HEAD", .ref "refs/heads/master"),
      ("refs/heads/svn/trunk", .object (idOf madeCommit)),
      ("refs/remotes/svn/tags/v0.9", .object (idOf releaseCommit)),
      ("refs/remotes/svn/trunk", .object (idOf importedCommit)),
      ("refs/tags/release/v0.9", .object (idOf madeCommit))]
  others := ["logs/refs/heads/svn/trunk"]
  spare := []

/-- The index of the imported line with that branch: the commit that was made for the release takes
the place of the line. -/
def overshadowedIndex : ContentIndex where
  histories := .ofList [("svn/tags/v0.9", [releaseCommit]), ("svn/trunk", [madeCommit])]
  records := .ofList
    [(madeCommit, ⟨.ofList [("/", releaseTree)], .ofList [("/vice/", importedTree)]⟩),
      (releaseCommit, ⟨.ofList [("/", releaseTree)], .ofList [("/vice/", importedTree)]⟩)]

/-- The branch as the reference line. -/
def overshadowedTrunk : SortedMap CommitId := .ofList [(releaseTree, madeCommit)]

/-- The subhistories of the imported line, matched against the branch. -/
def overshadowedSubhistories : SortedMap Subhistory :=
  .ofList [("svn/tags/v0.9/", ⟨[releaseTree], some madeCommit, some madeCommit⟩)]

/-- What is written for the branch. -/
theorem importedApplied_trunk :
    ∃ applied s', importedApplied "svn/trunk" = (.ok applied, s') ∧ s'.repo = overshadowed := by
  have happlied : (importedApplied "svn/trunk").1.toOption.map ApplyReport.newRefs =
        some ["refs/tags/release/v0.9", "refs/heads/svn/trunk"] ∧
      (importedApplied "svn/trunk").2.repo.objects = overshadowed.objects ∧
      (importedApplied "svn/trunk").2.repo.refs = overshadowed.refs ∧
      (importedApplied "svn/trunk").2.repo.others = overshadowed.others ∧
      (importedApplied "svn/trunk").2.repo.spare = [] := by
    simp only [importedApplied, applyPlan, ordered_imported]
    decide +kernel
  obtain ⟨hrefs, hobjects, hstored, hothers, hspare⟩ := happlied
  obtain ⟨applied, s', happly, -⟩ := exists_eq_ok_of_map hrefs
  rw [happly] at hobjects hstored hothers hspare
  refine ⟨applied, s', happly, ?_⟩
  cases hrepo : s'.repo
  rw [hrepo] at hobjects hstored hothers hspare
  subst hobjects hstored hothers hspare
  rfl

set_option maxRecDepth 20000 in
theorem buildIndex_overshadowed :
    (buildIndex overshadowed (applyingTo "svn/trunk") .never
      (buildIndex imported (applyingTo "svn/trunk") .never .fresh).files).result =
        .ok overshadowedIndex :=
  toOption_eq_some_iff.1 (by decide +kernel)

/-- The release is found on the reference line if that is the branch. -/
theorem releases_overshadowed {x : CrossReference}
    (h : crossReference overshadowedIndex "svn/trunk" = .ok x) :
    x.plan.releases = [{ importedRelease with trunkCommit := some madeCommit }] := by
  obtain ⟨trunk, htrunk, hsubhistories, hplan⟩ := crossReference_eq_ok_iff.1 h
  have hline : referenceIndex overshadowedIndex "svn/trunk" = .ok overshadowedTrunk := by
    decide
  obtain rfl := Except.ok.inj (hline.symm.trans htrunk)
  have hmatched : subhistories overshadowedIndex "svn/trunk" overshadowedTrunk =
      .ok overshadowedSubhistories := by
    decide
  have hversions : ((copies overshadowedSubhistories).map (·.version)).eraseDups = [⟨[0, 9]⟩] := by
    decide
  rw [hplan, ← Except.ok.inj (hmatched.symm.trans hsubhistories),
    releases_of_versions hversions (by decide)]
  decide

/-- The objects of the imported line are kept under their own ids. -/
theorem hex_id_imported : ∀ e ∈ imported.objects.entries, e.2.id.hex = e.1 := by decide +kernel

/-- The first run can change what the reference stands for: a branch that is made may have the name
of the reference line, and the short name then stands for the branch. -/
theorem not_forall_run_again :
    ¬ ∀ (settings : Settings) (now now' : Instant) (repo : Store) (files : Files)
        (first : Outcome Store) (report : Report),
      (∀ e ∈ repo.objects.entries, e.2.id.hex = e.1) → settings.stage = .apply →
      settings.date.isSome → run settings .never now repo files = first →
      first.result = .ok (some report) →
      ∃ again report', run settings .never now' first.repo first.files = again ∧
        again.result = .ok (some report') ∧
        report'.crossReference.plan.releases = report.crossReference.plan.releases ∧
        report'.applied = report.applied.map ApplyReport.settled ∧
        again.repo.refs = first.repo.refs := by
  intro hclaim
  obtain ⟨applied, s', happly, hrepo⟩ := importedApplied_trunk
  have hfirst : (importedRun "svn/trunk").result =
      .ok (some ⟨"svn/trunk", importedCross, some applied⟩) := by
    rw [importedRun_eq happly]
  have hstore : (importedRun "svn/trunk").repo = overshadowed := by
    rw [importedRun_eq happly, hrepo]
  have hfiles : (importedRun "svn/trunk").files =
      (buildIndex imported (applyingTo "svn/trunk") .never .fresh).files :=
    files_run ..
  obtain ⟨_, report', hrun, hagain, hreleases, -⟩ := hclaim (applyingTo "svn/trunk") ⟨0, 0⟩ ⟨1, 0⟩
    imported .fresh (importedRun "svn/trunk") _ hex_id_imported rfl rfl rfl hfirst
  rw [← hrun, hstore, hfiles] at hagain
  obtain ⟨index, _, hindex, hplanned, -⟩ := exists_planAndApply_of_run hagain
  rw [buildIndex_overshadowed] at hindex
  obtain rfl := Except.ok.inj hindex
  obtain ⟨x, _, hcross, -, rfl⟩ := planAndApply_eq_ok rfl hplanned
  rw [releases_overshadowed hcross] at hreleases
  exact absurd (hreleases.trans releases_imported) (by decide)

end Git.Store

end ReleaseRecovery
