import ReleaseRecovery.Proofs.Completion
import ReleaseRecovery.Proofs.Incremental

/-!
# Runs with other markers

The index file knows commits by their ids alone, and says nothing of the markers that they were
scanned with. A run with other markers keeps the records that it finds, so what it comes to is what
a first run comes to exactly if those records are the same for both markers.

## Main Definitions

* `markersFor` — the markers that a record stands for after a run with other markers

## Main Statements

* `get?_records_of_otherMarkers` — the records after a run with other markers
* `otherMarkers_run` — when such a run comes to the same as a first run
* `not_forall_otherMarkers` — it need not
-/

namespace ReleaseRecovery

variable {ρ : Type} [Repository ρ]

/-- The markers that the record of a commit stands for, after an index that a run with `old` markers
has left was brought up to date with `new` ones. -/
def markersFor (left : ContentIndex) (old new : Markers) (c : CommitId) : Markers :=
  if c ∈ left.mentioned then old else new

section Records

variable {old new : ρ} {seen : ρ} {markers markers' : Markers} {layout : Layout}
  {left index : ContentIndex} {histories : SortedMap BranchHistory}

/-- An index that was what a store said, and has been brought up to date with other markers, has the
record of every commit that it mentions: the one that it had, or else that of a new scan. -/
theorem get?_records_of_otherMarkers (upToDate : UpToDate old markers layout left)
    (sees : Sees seen new) (grows : Grows old new)
    (completed : Completed seen markers' (left.setHistories histories) index) {c : CommitId}
    {r : InstallRecord} :
    index.records.get? c = some r ↔
      c ∈ index.mentioned ∧ scanned new (markersFor left markers markers' c) c = .ok r := by
  have hsame := ContentIndex.mentioned_eq completed.histories_eq
  have hget : (left.setHistories histories).records.get? c =
      if c ∈ index.mentioned then left.records.get? c else none := by
    rw [hsame, ContentIndex.get?_records_setHistories]
  by_cases hc : c ∈ index.mentioned
  · have hrecord : ∃ r', index.records.get? c = some r' ∧
        scanned new (markersFor left markers markers' c) c = .ok r' := by
      rw [if_pos hc] at hget
      unfold markersFor
      split
      · rename_i hleft
        obtain ⟨r', hr'⟩ := (upToDate.mentioned_iff c).1 hleft
        refine ⟨r', completed.kept c r' (hget.trans hr'), ?_⟩
        exact grows.scanned_eq_ok sees.reachable (upToDate.sound c r' hr')
      · rename_i hleft
        obtain ⟨r', hr'⟩ := completed.complete c hc
        rcases completed.added c r' hr' with hold | ⟨-, hscan⟩
        · exact absurd ((upToDate.mentioned_iff c).2 ⟨r', hget.symm.trans hold⟩) hleft
        · exact ⟨r', hr', sees.scanned_of_scansTo hscan⟩
    obtain ⟨r', hr', hscanned⟩ := hrecord
    rw [hr', hscanned]
    simp [hc]
  · rw [if_neg hc] at hget
    refine iff_of_false (fun hr => ?_) fun h => hc h.1
    rcases completed.added c r hr with hold | ⟨hunscanned, -⟩
    · rw [hget] at hold
      cases hold
    · exact hc (hsame ▸ (ContentIndex.mem_unscanned_iff.1 hunscanned).1)

/-- The records are those of the new markers exactly if no commit that both indexes mention has
another record for them. -/
theorem sound_iff_of_otherMarkers (upToDate : UpToDate old markers layout left)
    (sees : Sees seen new) (grows : Grows old new)
    (completed : Completed seen markers' (left.setHistories histories) index) :
    Sound new markers' index ↔ ∀ c ∈ left.mentioned, c ∈ index.mentioned →
      scanned new markers' c = scanned new markers c := by
  have hrecords := fun c r =>
    get?_records_of_otherMarkers (c := c) (r := r) upToDate sees grows completed
  constructor
  · intro sound c hleft hc
    obtain ⟨r, hr⟩ := completed.complete c hc
    have hscanned := ((hrecords c r).1 hr).2
    rw [markersFor, if_pos hleft] at hscanned
    rw [sound c r hr, hscanned]
  · intro agree c r hr
    obtain ⟨hc, hscanned⟩ := (hrecords c r).1 hr
    unfold markersFor at hscanned
    split at hscanned
    · rename_i hleft
      rw [agree c hleft hc, hscanned]
    · exact hscanned

end Records

/-! ### Runs -/

section Runs

variable {a b : Call ρ} {files : Files} {left index : ContentIndex}

/-- A run that is to plan tells the subhistories and the plan of its index. -/
theorem Call.planned_of_plan {c : Call ρ} (hstage : c.settings.stage = .plan) {x : CrossReference}
    (hcross : crossReference index c.settings.layout.reference = .ok x) (done : List Action) :
    c.planned index done =
      if c.interrupt.raised done then .error (.cancelled .plan)
      else .ok (some ⟨c.settings.layout.reference, x, none⟩) := by
  have happly : c.settings.stage ≠ .apply := by
    rw [hstage]
    decide
  have hindex : c.settings.stage ≠ .index := by
    rw [hstage]
    decide
  rw [planned, if_neg hindex, planAndApply_of_ok hcross, Writing.after_unlessRaised_bind,
    if_neg happly]
  dsimp only
  cases c.interrupt.raised done <;> rfl

/-- A run with markers of its own that goes on from the index file that another run has left, over
the same store or one that has grown since. The other run has found no index, or one with no records
but those of its own markers. -/
structure TakesOver (files : Files) (a b : Call ρ) : Prop where
  sees : Sees a.seen a.store
  sees' : Sees b.seen b.store
  grows : Grows a.store b.store
  path_eq : b.settings.indexPath = a.settings.indexPath
  loads : LoadsSound a.store a.settings.markers a.settings.indexPath files

/-- What a run that takes over has done: it has found the index of the other run, and has filled it
to its end with fresh histories. -/
theorem TakesOver.completed (takes : TakesOver files a b)
    (hleft : (a.indexed files).result = .ok left)
    (hindex : (b.indexed (a.outcome files).files).result = .ok index) :
    UpToDate a.store a.settings.markers a.settings.layout left ∧
      (∃ histories, ((collect b.seen b.settings.layout).after []).1 = .ok histories ∧
        Completed b.seen b.settings.markers (left.setHistories histories) index) ∧
      files.Replaceable b.settings.indexPath ∧
      (b.outcome (a.outcome files).files).files.read b.settings.indexPath = .ok index.text := by
  obtain ⟨upToDate, hreplaceable, hread⟩ := upToDate_buildIndex takes.sees takes.loads hleft
  obtain ⟨loaded, histories, hload, hcollect, hcompleted, -, hsaved⟩ :=
    completed_of_buildIndex hindex
  have hload' : Snapshot.load b.settings.indexPath (a.outcome files).files = .ok left := by
    rw [a.files_outcome, takes.path_eq]
    exact Snapshot.load_of_content? (Files.content?_eq_some_iff.2 hread)
  obtain rfl := Except.ok.inj (hload.symm.trans hload')
  rw [takes.path_eq]
  rw [takes.path_eq] at hsaved
  refine ⟨upToDate, ⟨histories, hcollect, hcompleted⟩, hreplaceable, ?_⟩
  rw [b.files_outcome]
  exact hsaved

/-- A first run saves an index exactly if that is what the store says. -/
theorem UpToDate.read_first_iff {store : ρ} (reachable : Reachable store) {first : Call ρ}
    (hseen : first.seen = store) (hnever : first.interrupt = .never)
    (absent : files.read first.settings.indexPath = .error .notFound)
    (hreplaceable : files.Replaceable first.settings.indexPath)
    (upToDate : Sound store first.settings.markers index →
      UpToDate store first.settings.markers first.settings.layout index) :
    (first.outcome files).files.read first.settings.indexPath = .ok index.text ↔
      Sound store first.settings.markers index := by
  subst hseen
  constructor
  · intro hread
    have hnone : files.content? first.settings.indexPath = none := by
      rw [Files.content?, absent]
      rfl
    have leaves : Leaves first.seen first.settings.markers first.settings.indexPath files
        (first.indexed files).files := leaves_buildIndex (.refl reachable) (.of_absent absent)
    rw [first.files_outcome, ← Files.content?_eq_some_iff] at hread
    rcases leaves.content with hsame | ⟨kept, hkept, sound⟩
    · rw [hread, hnone] at hsame
      cases hsame
    · rw [hread] at hkept
      obtain rfl := ContentIndex.text_inj (Option.some.inj hkept)
      exact sound
  · intro sound
    exact ((upToDate sound).first reachable absent hreplaceable rfl hnever rfl rfl rfl).2

/-- A run that takes over from another one keeps the records that it finds, which are those of the
other one's markers. It saves what a first run saves, in the same directories but without an index
file, exactly if no commit that both mention has another record for its own markers, and then it
tells the same subhistories and the same plan. -/
theorem otherMarkers_run (takes : TakesOver files a b) (hleft : (a.indexed files).result = .ok left)
    (hindex : (b.indexed (a.outcome files).files).result = .ok index) :
    let after := b.outcome (a.outcome files).files
    let path := b.settings.indexPath
    (∃ histories, collected b.store b.settings.layout = .ok histories ∧
      index.histories = histories.mapValues BranchHistory.commits) ∧
    (∀ c r, index.records.get? c = some r ↔ c ∈ index.mentioned ∧
      scanned b.store (markersFor left a.settings.markers b.settings.markers c) c = .ok r) ∧
    after.files.read path = .ok index.text ∧
    ∀ (bare : Files) (first : Call ρ), files.SameDirectories bare →
      bare.read path = .error .notFound → first.seen = b.store → first.interrupt = .never →
      first.settings = b.settings →
      ((first.outcome bare).files.read path = after.files.read path ↔
        ∀ c ∈ left.mentioned, c ∈ index.mentioned →
          scanned b.store b.settings.markers c = scanned b.store a.settings.markers c) ∧
      ((first.outcome bare).files.read path = after.files.read path →
        b.settings.stage = .plan → ∀ report, after.result = .ok (some report) →
          (first.outcome bare).result = .ok (some report)) := by
  intro after path
  obtain ⟨upToDate, ⟨histories, hcollect, completed⟩, hreplaceable, hsaved⟩ :=
    takes.completed hleft hindex
  have hcollected := takes.sees'.collected_eq_ok hcollect
  have hrecords := fun c r => get?_records_of_otherMarkers (c := c) (r := r) upToDate takes.sees'
    takes.grows completed
  have fresh : Sound b.store b.settings.markers index →
      UpToDate b.store b.settings.markers b.settings.layout index := by
    intro sound
    refine ⟨⟨histories, hcollected, completed.histories_eq⟩, fun c => ?_, sound⟩
    exact ⟨completed.complete c, fun ⟨r, hr⟩ => ((hrecords c r).1 hr).1⟩
  refine ⟨⟨histories, hcollected, completed.histories_eq⟩, hrecords, hsaved, ?_⟩
  intro bare first same absent hseen hnever hsettings
  have habsent : bare.read first.settings.indexPath = .error .notFound := by
    rw [hsettings]
    exact absent
  have hreplaceable' : bare.Replaceable first.settings.indexPath := by
    rw [hsettings]
    exact same.replaceable_iff.2 hreplaceable
  have hread : (first.outcome bare).files.read path = after.files.read path ↔
      Sound b.store b.settings.markers index := by
    have hfirst := UpToDate.read_first_iff takes.sees'.reachable hseen hnever habsent hreplaceable'
      (by rw [hsettings]; exact fresh)
    rw [hsettings] at hfirst
    rw [hsaved]
    exact hfirst
  have hagree := sound_iff_of_otherMarkers upToDate takes.sees' takes.grows completed
  refine ⟨hread.trans hagree, fun hsame hstage report hreport => ?_⟩
  have hbuilt : (first.indexed bare).result = .ok index := by
    have hfirst := (fresh (hread.1 hsame)).first takes.sees'.reachable habsent hreplaceable' hseen
      hnever rfl (by rw [hsettings]) (by rw [hsettings])
    exact hfirst.1
  obtain ⟨x, hcross⟩ := exists_crossReference_of_buildIndex hindex
  rw [Call.result_outcome_of_ok hindex, Call.planned_of_plan hstage hcross] at hreport
  rw [← hsettings] at hstage hcross
  rw [Call.result_outcome_of_ok hbuilt, Call.planned_of_plan hstage hcross, hnever, hsettings]
  split at hreport
  · cases hreport
  · exact hreport

end Runs

/-! ### Stores in memory -/

section Memory

/-- Settings of a run that plans, with some markers. -/
def Settings.planning (markers : Markers) : Settings :=
  { Settings.indexing with stage := .plan, markers := markers }

/-- A run that plans, with some markers. -/
def Call.planning (m : Memory) (markers : Markers) : Call Memory :=
  ⟨m, m, .planning markers, .never, .inTurn, ⟨0, 0⟩⟩

/-- Another marker file makes no difference where no commit has a marker file, also if the run
before has found an index of its own markers. -/
theorem otherMarkers_run_agreeing :
    let a := Call.planning .early ⟨"vice", "README"⟩
    let b := Call.planning .early ⟨"vice", "NEWS"⟩
    let files := (a.outcome .fresh).files
    ∃ left index, TakesOver files a b ∧ (a.indexed files).result = .ok left ∧
      (b.indexed (a.outcome files).files).result = .ok index ∧
      (b.outcome .fresh).files.read "index.json" =
        (b.outcome (a.outcome files).files).files.read "index.json" := by
  intro a b files
  have hmentioned : (a.indexed files).result.toOption.map ContentIndex.mentioned =
      some ["A2", "A1"] := by decide +kernel
  have hagain : (b.indexed (a.outcome files).files).result.toOption.isSome = true := by
    decide +kernel
  have agree : ∀ c ∈ ["A2", "A1"],
      scanned Memory.early ⟨"vice", "NEWS"⟩ c = scanned Memory.early ⟨"vice", "README"⟩ c := by
    decide +kernel
  obtain ⟨left, hleft, hleftMentioned⟩ := Option.map_eq_some_iff.1 hmentioned
  obtain ⟨index, hindex⟩ := Option.isSome_iff_exists.1 hagain
  have absent : Files.fresh.read "index.json" = .error .notFound := rfl
  have sees : Sees a.seen a.store := .refl (Memory.reachable _)
  have leaves : Leaves a.store a.settings.markers "index.json" .fresh files := by
    have hfiles : files = (a.indexed .fresh).files := a.files_outcome .fresh
    rw [hfiles]
    exact leaves_buildIndex sees (.of_absent absent)
  have takes : TakesOver files a b :=
    ⟨sees, .refl (Memory.reachable _), .refl _, rfl, leaves.loadsSound absent⟩
  have hleft' := toOption_eq_some_iff.1 hleft
  have hindex' := toOption_eq_some_iff.1 hindex
  refine ⟨left, index, takes, hleft', hindex', ?_⟩
  obtain ⟨-, -, -, hfirst⟩ := otherMarkers_run takes hleft' hindex'
  refine (hfirst .fresh b leaves.same.symm absent rfl rfl rfl).1.2 fun c hc _ => ?_
  rw [hleftMentioned] at hc
  exact agree c hc

/-- A store whose release is a copy for one marker directory and none for another one. -/
def Memory.twoMarkers : Memory where
  logs := .ofList [("svn/trunk", ["C1"]), ("svn/tags/v1.0", ["R1"])]
  commits := .ofList [("C1", "T1"), ("R1", "T2")]
  trees := .ofList [("T1", [⟨.tree, "vice", "V1"⟩, ⟨.tree, "src", "S1"⟩]),
    ("T2", [⟨.tree, "src", "S2"⟩]), ("V1", []), ("S1", []), ("S2", [])]
  written := []
  refs := .empty

/-- The keys of the subhistories that a run tells. -/
def Outcome.keys {ρ : Type} (o : Outcome ρ) : Option (List String) :=
  o.result.toOption.bind (Option.map fun report => report.crossReference.subhistories.keys)

/-- A run with other markers need not save what a first run saves, nor tell the same. -/
theorem not_forall_otherMarkers :
    ¬ ∀ (m : Memory) (a b : Settings) (now : Instant) (files : Files) (report : Report),
      a.stage = .plan → b = { a with markers := b.markers } →
      files.read a.indexPath = .error .notFound →
      let left := run a .never now m files
      let after := run b .never now m left.files
      let first := run b .never now m files
      left.result = .ok (some report) →
      after.files.read b.indexPath = first.files.read b.indexPath ∧
        after.result = first.result := by
  intro h
  let vice := Settings.planning ⟨"vice", "README"⟩
  let src := Settings.planning ⟨"src", "README"⟩
  have hleft : (run vice .never ⟨0, 0⟩ Memory.twoMarkers .fresh).keys = some [] := by
    decide +kernel
  have hafter : (run src .never ⟨0, 0⟩ Memory.twoMarkers
      (run vice .never ⟨0, 0⟩ Memory.twoMarkers .fresh).files).keys = some [] := by
    decide +kernel
  have hfirst : (run src .never ⟨0, 0⟩ Memory.twoMarkers .fresh).keys =
      some ["svn/tags/v1.0/"] := by
    decide +kernel
  obtain ⟨result, hresult, hreport⟩ := Option.bind_eq_some_iff.1 hleft
  obtain ⟨report, rfl, -⟩ := Option.map_eq_some_iff.1 hreport
  have absent : Files.fresh.read "index.json" = .error .notFound := rfl
  obtain ⟨-, hsame⟩ := h .twoMarkers vice src ⟨0, 0⟩ .fresh report rfl rfl absent
    (toOption_eq_some_iff.1 hresult)
  rw [Outcome.keys, hsame] at hafter
  rw [Outcome.keys, hafter] at hfirst
  cases hfirst

end Memory

end ReleaseRecovery
