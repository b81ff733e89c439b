import ReleaseRecovery.Proofs.Applying
import ReleaseRecovery.Proofs.Indexing
import ReleaseRecovery.Proofs.Runs

/-!
# Where a run fails

A run fails for a reason of its own, such as a request to stop or a file that cannot be read, or
because the store refuses something that it was asked for. Each part of a run can fail for some of
these reasons only.

## Main Definitions

* `Refuses` — a store refuses an action with a failure
* `Reading.FailsOnly`, `Writing.FailsOnly` — the failures that a calculation can come to
* `Failure.isOfIndexing`, `Failure.isOfRun` — the failures that a run comes to without being refused
  anything

## Main Statements

* `collect_failsOnly`, `scan_failsOnly`, `applyPlan_failsOnly` — how the parts of a run fail
* `buildIndex_error` — how bringing the index up to date fails
* `run_error` — how a run fails, and what it has done to the store by then
-/

namespace ReleaseRecovery

/-! ### Refusals -/

/-- What is wanted by an action. -/
inductive Action.Purpose
  /-- Which refs there are, and which commits they lead to. -/
  | collecting
  /-- What is in a commit. -/
  | scanning
  | writing
  | saving
  /-- Whether the run is asked to stop. -/
  | polling
deriving DecidableEq

/-- What an action is done for. -/
def Action.purpose : Action → Action.Purpose
  | .listRefs _ | .log _ => .collecting
  | .commit _ | .entries _ => .scanning
  | .createCommit _ | .createTag _ | .createBranch _ => .writing
  | .save => .saving
  | .poll => .polling

variable {ρ : Type} [Repository ρ]

/-- A store refuses an action with a failure: it cannot be reached, or this is its answer. -/
inductive Refuses (store : ρ) : Action → Failure → Prop
  | outage {action : Action} {done : List Action} {e : Failure}
    (question : action.purpose = .collecting ∨ action.purpose = .scanning)
    (h : Repository.outage store done = some e) : Refuses store action e
  | listRefs {start : String} {e : Failure} (h : Repository.listRefs store start = .error e) :
    Refuses store (.listRefs start) e
  | log {ref : String} {e : Failure} (h : Repository.log store ref = .error e) :
    Refuses store (.log ref) e
  | commit {id : CommitId} {e : Failure} (h : Repository.commit store id = .error e) :
    Refuses store (.commit id) e
  | entries {id : TreeId} {e : Failure} (h : Repository.entries store id = .error e) :
    Refuses store (.entries id) e
  | createCommit {c : NewCommit} {e : Failure}
    (h : (Repository.createCommit store c).1 = .error e) : Refuses store (.createCommit c.tree) e
  | createTag {name : String} {target : CommitId} {e : Failure}
    (h : (Repository.createTag store name target).1 = .error e) : Refuses store (.createTag name) e
  | createBranch {name : String} {target : CommitId} {e : Failure}
    (h : (Repository.createBranch store name target).1 = .error e) :
    Refuses store (.createBranch name) e

/-- Some store of a kind refuses an action of some purpose with a failure. -/
def IsRefusal (ρ : Type) [Repository ρ] (purpose : Action.Purpose) (e : Failure) : Prop :=
  ∃ (store : ρ) (action : Action), action.purpose = purpose ∧ Refuses store action e

/-- The failures that bringing the index up to date comes to without being refused anything. -/
def Failure.isOfIndexing : Failure → Bool
  | endlessTree _ | interrupted .scan _ _ | indexUnreadable _ | indexMalformed _
  | indexUnwritable _ => true
  | _ => false

/-- The failures that a run comes to without being refused anything. -/
def Failure.isOfRun (e : Failure) : Bool :=
  e.isOfIndexing || match e with | interrupted .apply _ _ | cancelled _ => true | _ => false

theorem Failure.isOfRun_of_isOfIndexing {e : Failure} (h : e.isOfIndexing = true) :
    e.isOfRun = true := by
  unfold isOfRun
  rw [h, Bool.true_or]

/-! ### Calculations -/

namespace Reading

variable {α β : Type} {P : Failure → Prop}

/-- Whenever a calculation fails, its failure is one of those. -/
def FailsOnly (P : Failure → Prop) (r : Reading α) : Prop :=
  ∀ done e, (r.after done).1 = .error e → P e

theorem FailsOnly.pure (a : α) : (Pure.pure a : Reading α).FailsOnly P := by
  intro done e h
  cases h

theorem FailsOnly.throw {e : Failure} (he : P e) :
    (MonadExcept.throw e : Reading α).FailsOnly P := by
  intro done e' h
  rw [after_throw] at h
  exact Except.error.inj h ▸ he

theorem FailsOnly.bind {r : Reading α} {f : α → Reading β} (h : r.FailsOnly P)
    (hf : ∀ a, (f a).FailsOnly P) : (r >>= f).FailsOnly P := by
  intro done e he
  rw [after_bind] at he
  rcases hr : r.after done with ⟨e' | a, done'⟩
  · rw [hr] at he
    obtain rfl := Except.error.inj he
    exact h done e' (congrArg Prod.fst hr)
  · rw [hr] at he
    exact hf a done' e he

theorem FailsOnly.foldlM {f : β → α → Reading β} (h : ∀ b a, (f b a).FailsOnly P) (l : List α)
    (b : β) : (l.foldlM f b).FailsOnly P := by
  induction l generalizing b with
  | nil => exact .pure b
  | cons a l ih =>
    rw [List.foldlM_cons]
    exact (h b a).bind ih

theorem FailsOnly.mapM {f : α → Reading β} (h : ∀ a, (f a).FailsOnly P) (l : List α) :
    (l.mapM f).FailsOnly P := by
  induction l with
  | nil => exact .pure []
  | cons a l ih =>
    rw [List.mapM_cons]
    exact (h a).bind fun b => ih.bind fun bs => .pure (b :: bs)

/-- A question fails if the store cannot be reached, or with its answer. -/
theorem failsOnly_ask {store : ρ} {action : Action} {answer : Except Failure α}
    (houtage : ∀ done e, Repository.outage store done = some e → P e)
    (hanswer : ∀ e, answer = .error e → P e) : (ask store action answer).FailsOnly P := by
  intro done e h
  rw [after_ask] at h
  cases hdone : Repository.outage store done with
  | none =>
    rw [hdone] at h
    exact hanswer e h
  | some e' =>
    rw [hdone] at h
    exact Except.error.inj h ▸ houtage done e' hdone

end Reading

namespace Writing

variable {α β : Type} {P : Failure → Prop}

/-- Whenever a calculation fails, its failure is one of those. -/
def FailsOnly (P : Failure → Prop) (w : Writing ρ α) : Prop :=
  ∀ s e, (w.after s).1 = .error e → P e

omit [Repository ρ] in
theorem FailsOnly.pure (a : α) : (Pure.pure a : Writing ρ α).FailsOnly P := by
  intro s e h
  cases h

omit [Repository ρ] in
theorem FailsOnly.mono {Q : Failure → Prop} {w : Writing ρ α} (h : w.FailsOnly P)
    (hQ : ∀ e, P e → Q e) : w.FailsOnly Q :=
  fun s e he => hQ e (h s e he)

omit [Repository ρ] in
theorem failsOnly_unlessRaised (interrupt : Interrupt) {e : Failure} (he : P e) :
    (unlessRaised interrupt e : Writing ρ Unit).FailsOnly P := by
  intro s e' h
  rw [after_unlessRaised] at h
  split at h
  · exact Except.error.inj h ▸ he
  · cases h

omit [Repository ρ] in
theorem failsOnly_add {action : Action} {change : ρ → Except Failure α × ρ}
    (h : ∀ store e, (change store).1 = .error e → P e) : (add action change).FailsOnly P :=
  fun s e he => h s.repo e he

omit [Repository ρ] in
theorem FailsOnly.bind {w : Writing ρ α} {f : α → Writing ρ β} (h : w.FailsOnly P)
    (hf : ∀ a, (f a).FailsOnly P) : (w >>= f).FailsOnly P := by
  intro s e he
  rw [after_bind] at he
  rcases hw : w.after s with ⟨e' | a, s'⟩
  · rw [hw] at he
    obtain rfl := Except.error.inj he
    exact h s e' (congrArg Prod.fst hw)
  · rw [hw] at he
    exact hf a s' e he

omit [Repository ρ] in
theorem FailsOnly.foldlM {f : β → α → Writing ρ β} (h : ∀ b a, (f b a).FailsOnly P) (l : List α)
    (b : β) : (l.foldlM f b).FailsOnly P := by
  induction l generalizing b with
  | nil => exact .pure b
  | cons a l ih =>
    rw [List.foldlM_cons]
    exact (h b a).bind ih

end Writing

/-! ### The parts of a run -/

section Parts

variable {store : ρ}

theorem collect_failsOnly (store : ρ) (layout : Layout) :
    (collect store layout).FailsOnly (IsRefusal ρ .collecting) := by
  have hlog : ∀ terminators ref,
      (history store terminators ref).FailsOnly (IsRefusal ρ .collecting) := by
    intro terminators ref
    refine .bind (Reading.failsOnly_ask ?_ ?_) fun _ => .pure _
    · exact fun done e h => ⟨store, .log ref, rfl, .outage (.inl rfl) h⟩
    · exact fun e h => ⟨store, .log ref, rfl, .log h⟩
  refine (hlog [] layout.reference).bind fun reference => ?_
  refine .bind (Reading.failsOnly_ask ?_ ?_) fun names => ?_
  · exact fun done e h => ⟨store, .listRefs layout.start, rfl, .outage (.inl rfl) h⟩
  · exact fun e h => ⟨store, .listRefs layout.start, rfl, .listRefs h⟩
  · exact (Reading.FailsOnly.mapM (fun ref => hlog reference.commits ref) _).bind fun _ => .pure _

theorem searchTree_failsOnly (store : ρ) (markers : Markers) (room : Nat) (tree : TreeId)
    (path : String) (record : InstallRecord) :
    (searchTree store markers room tree path record).FailsOnly fun e =>
      (∃ tree, e = .endlessTree tree) ∨ IsRefusal ρ .scanning e := by
  induction room generalizing tree path record with
  | zero => exact .throw (.inl ⟨tree, rfl⟩)
  | succ room ih =>
    refine .bind (Reading.failsOnly_ask ?_ ?_) fun entries => ?_
    · exact fun done e h => .inr ⟨store, .entries tree, rfl, .outage (.inr rfl) h⟩
    · exact fun e h => .inr ⟨store, .entries tree, rfl, .entries h⟩
    cases entries.find? markers.isDirectory with
    | some marker => exact .pure _
    | none =>
      dsimp only
      split
      · exact .pure _
      · exact .foldlM (fun record (e : Entry) => ih e.id _ record) _ _

theorem scan_failsOnly (store : ρ) (markers : Markers) (c : CommitId) :
    (scan store markers c).FailsOnly fun e =>
      (∃ tree, e = .endlessTree tree) ∨ IsRefusal ρ .scanning e := by
  refine .bind (Reading.failsOnly_ask ?_ ?_) fun commit => ?_
  · exact fun done e h => .inr ⟨store, .commit c, rfl, .outage (.inr rfl) h⟩
  · exact fun e h => .inr ⟨store, .commit c, rfl, .commit h⟩
  · exact searchTree_failsOnly store markers _ commit.tree "/" .empty

/-- To find the commit of a release and to tag it fails only where the store refuses something. -/
theorem tagRelease_failsOnly (options : ApplyOptions) (p : Progress) (r : PlannedRelease) :
    (do
      let commit ← commitFor options p.last r
      let update ← Writing.createTag (options.tagName r.version) commit
      return p.add options r commit update : Writing ρ Progress).FailsOnly
      (IsRefusal ρ .writing) := by
  have hfor : (commitFor options p.last r : Writing ρ CommitId).FailsOnly
      (IsRefusal ρ .writing) := by
    unfold commitFor
    split
    · exact .pure _
    · refine Writing.failsOnly_add fun store e h => ?_
      exact ⟨store, .createCommit r.tree, rfl, .createCommit h⟩
  refine hfor.bind fun commit => .bind (Writing.failsOnly_add fun store e h => ?_) fun _ => .pure _
  exact ⟨store, .createTag (options.tagName r.version), rfl, .createTag h⟩

theorem createBranch_failsOnly (name : String) (target : CommitId) :
    (Writing.createBranch name target : Writing ρ RefUpdate).FailsOnly (IsRefusal ρ .writing) :=
  Writing.failsOnly_add fun store _ h => ⟨store, .createBranch name, rfl, .createBranch h⟩

theorem applyPlan_failsOnly (options : ApplyOptions) (interrupt : Interrupt)
    (plan : ReleasePlan) :
    (applyPlan options interrupt plan : Writing ρ ApplyReport).FailsOnly fun e =>
      (∃ completed remaining, e = .interrupted .apply completed remaining) ∨
        IsRefusal ρ .writing e := by
  have hrelease : ∀ total p r, (applyRelease options interrupt total p r :
      Writing ρ Progress).FailsOnly fun e =>
        (∃ completed remaining, e = .interrupted .apply completed remaining) ∨
          IsRefusal ρ .writing e := by
    intro total p r
    rw [applyRelease_eq]
    refine (Writing.failsOnly_unlessRaised interrupt (.inl ⟨_, _, rfl⟩)).bind fun _ => ?_
    exact (tagRelease_failsOnly options p r).mono fun _ => .inr
  unfold applyPlan
  refine (Writing.FailsOnly.foldlM (hrelease _) _ _).bind fun p => .bind ?_ fun _ => .pure _
  unfold applyBranch
  split
  · exact .pure _
  · refine (Writing.failsOnly_unlessRaised interrupt (.inl ⟨_, _, rfl⟩)).bind fun _ => ?_
    exact .bind ((createBranch_failsOnly _ _).mono fun _ => .inr) fun _ => .pure _

end Parts

/-! ### Bringing the index up to date -/

section Indexing

variable {σ : Type} {store : ρ} {markers : Markers} {interrupt : Interrupt} {schedule : Schedule}
  {settings : Settings} {files : Files} {e : Failure}

theorem exists_of_firstFailure? {results : List (CommitId × Except Failure InstallRecord)}
    (h : firstFailure? results = some e) : ∃ c, (c, .error e) ∈ results := by
  obtain ⟨⟨c, result⟩, hmem, hresult⟩ := List.exists_of_findSome?_eq_some h
  cases result with
  | ok r => cases hresult
  | error e' =>
    cases hresult
    exact ⟨c, hmem⟩

/-- Filling fails if the index cannot be saved, if a commit cannot be scanned, or if the run is
asked to stop. -/
theorem fillBatches_error {save : ContentIndex → σ → Except Failure Unit × σ}
    {pending reused : Nat} {parts : List (List CommitId)} {scans : Nat} {index : ContentIndex}
    {saves : σ} {done : List Action}
    (h : (fillBatches store markers interrupt schedule save pending reused parts scans index saves
      done).result = .error e) :
    (∃ index saves, (save index saves).1 = .error e) ∨
      (∃ c done, ((scan store markers c).after done).1 = .error e) ∨
      ∃ completed remaining, e = .interrupted .scan completed remaining := by
  induction parts generalizing scans index saves done with
  | nil => cases h
  | cons batch parts ih =>
    rw [fillBatches] at h
    dsimp only at h
    split at h
    · rename_i hsaved
      cases h
      exact .inl ⟨_, _, hsaved⟩
    split at h
    · rename_i hfailure
      cases h
      obtain ⟨c, hc⟩ := exists_of_firstFailure? hfailure
      obtain ⟨-, done', hscan⟩ := mem_scanBatch hc
      exact .inr (.inl ⟨c, done', hscan.symm⟩)
    split at h
    · cases h
      exact .inr (.inr ⟨_, _, rfl⟩)
    · exact ih h

theorem Snapshot.save_error {path : String} {index : ContentIndex}
    (h : (Snapshot.save path index files).1 = .error e) : ∃ cause, e = .indexUnwritable cause := by
  rw [Snapshot.save_eq] at h
  cases hwritten : (files.replace path index.text).1 with
  | ok _ =>
    rw [hwritten] at h
    cases h
  | error cause =>
    rw [hwritten] at h
    exact ⟨cause, (Except.error.inj h).symm⟩

theorem Snapshot.load_error {path : String} (h : Snapshot.load path files = .error e) :
    (∃ cause, e = .indexUnreadable cause) ∨ ∃ cause, e = .indexMalformed cause := by
  unfold Snapshot.load at h
  split at h
  · cases h
  · exact .inl ⟨_, (Except.error.inj h).symm⟩
  · split at h
    · cases h
    · exact .inr ⟨_, (Except.error.inj h).symm⟩

/-- Completing an index fails as filling it does, or because it cannot be saved in the end. -/
theorem completeIndex_error {index : ContentIndex} {done : List Action}
    (h : (completeIndex store settings interrupt index files done schedule).result = .error e) :
    (∃ cause, e = .indexUnwritable cause) ∨
      (∃ c done, ((scan store settings.markers c).after done).1 = .error e) ∨
      ∃ completed remaining, e = .interrupted .scan completed remaining := by
  rcases hfill : fill store settings.markers settings.checkpointEvery interrupt
    (Snapshot.save settings.indexPath) index files done schedule with
    ⟨e' | counts, built, saves, actions⟩
  · rw [completeIndex_of_error hfill] at h
    obtain rfl := Except.error.inj h
    refine (fillBatches_error (congrArg Filled.result hfill)).imp_left ?_
    rintro ⟨index, saves, hsave⟩
    exact Snapshot.save_error hsave
  · rw [completeIndex_of_ok hfill] at h
    dsimp only at h
    cases hsaved : (Snapshot.save settings.indexPath built saves).1 with
    | ok _ =>
      rw [hsaved] at h
      cases h
    | error e' =>
      rw [hsaved] at h
      obtain rfl := Except.error.inj h
      exact .inl (Snapshot.save_error hsaved)

/-- Bringing the index up to date fails for a reason of its own, or because the store refuses to
tell its histories or to show a commit. -/
theorem buildIndex_error
    (h : (buildIndex store settings interrupt files schedule).result = .error e) :
    e.isOfIndexing = true ∨ ((collect store settings.layout).after []).1 = .error e ∨
      IsRefusal ρ .scanning e := by
  unfold buildIndex at h
  cases hload : Snapshot.load settings.indexPath files with
  | error e' =>
    rw [hload] at h
    obtain rfl := Except.error.inj h
    obtain ⟨cause, rfl⟩ | ⟨cause, rfl⟩ := Snapshot.load_error hload
    · exact .inl rfl
    · exact .inl rfl
  | ok index =>
    rw [hload] at h
    dsimp only at h
    cases hcollect : ((collect store settings.layout).after []).1 with
    | error e' =>
      rw [hcollect] at h
      exact .inr (.inl (congrArg Except.error (Except.error.inj h)))
    | ok histories =>
      rw [hcollect] at h
      rcases completeIndex_error h with ⟨cause, rfl⟩ | ⟨c, done, hscan⟩ |
        ⟨completed, remaining, rfl⟩
      · exact .inl rfl
      · rcases scan_failsOnly store settings.markers c done e hscan with ⟨tree, rfl⟩ | hrefusal
        · exact .inl rfl
        · exact .inr (.inr hrefusal)
      · exact .inl rfl

end Indexing

/-! ### Whole runs -/

section Runs

variable {settings : Settings} {interrupt : Interrupt} {now : Instant} {e : Failure}

/-- The last part of a run fails before it does anything but to look at the request to stop, or
while it applies the plan. -/
theorem planAndApply_error {index : ContentIndex} {s s' : Session ρ}
    (h : (planAndApply settings interrupt now index).after s = (.error e, s')) :
    (s'.repo = s.repo ∧ (e = .cancelled .plan ∨ e = .cancelled .apply ∨
        crossReference index settings.layout.reference = .error e)) ∨
      ∃ x, settings.stage = .apply ∧
        crossReference index settings.layout.reference = .ok x ∧
        (applyPlan (settings.applyOptions now) interrupt x.plan).after s.polled.polled =
          (.error e, s') := by
  cases hcross : crossReference index settings.layout.reference with
  | error e' =>
    rw [after_planAndApply_of_error hcross, Prod.mk.injEq, Except.error.injEq] at h
    obtain ⟨rfl, rfl⟩ := h
    refine .inl ⟨rfl, ?_⟩
    split
    · exact .inl rfl
    · exact .inr (.inr rfl)
  | ok x =>
    rw [planAndApply_of_ok hcross] at h
    rcases Writing.after_bind_eq_error_iff.1 h with hraised | ⟨_, s₁, hquiet, h₁⟩
    · obtain ⟨-, rfl, rfl⟩ := Writing.after_unlessRaised_eq_error_iff.1 hraised
      exact .inl ⟨rfl, .inl rfl⟩
    obtain rfl : s.polled = s₁ := (Prod.mk.inj hquiet).2
    split at h₁
    · rename_i hstage
      rcases Writing.after_bind_eq_error_iff.1 h₁ with hraised | ⟨_, s₂, hquiet, h₂⟩
      · obtain ⟨-, rfl, rfl⟩ := Writing.after_unlessRaised_eq_error_iff.1 hraised
        exact .inl ⟨rfl, .inr (.inl rfl)⟩
      obtain rfl : s.polled.polled = s₂ := (Prod.mk.inj hquiet).2
      rcases Writing.after_bind_eq_error_iff.1 h₂ with happly | ⟨_, _, -, hnone⟩
      · exact .inr ⟨x, hstage, rfl, happly⟩
      · cases hnone
    · cases h₁

/-- A run that fails has left the store as it was, unless it was stopped while it applied its plan,
or the store refused to be written to. -/
theorem run_error {repo : ρ} {files : Files} {schedule : Schedule}
    (h : (run settings interrupt now repo files schedule).result = .error e) :
    ((run settings interrupt now repo files schedule).repo = repo ∧
        ((buildIndex repo settings interrupt files schedule).result = .error e ∨
          e = .cancelled .plan ∨ e = .cancelled .apply ∨
          ∃ index, (buildIndex repo settings interrupt files schedule).result = .ok index ∧
            crossReference index settings.layout.reference = .error e)) ∨
      (∃ completed remaining, e = .interrupted .apply completed remaining) ∨
      IsRefusal ρ .writing e := by
  rcases run_cases settings interrupt now repo files schedule with
    ⟨hrepo, -, hindex, -⟩ | ⟨index, hindex, -, hrepo, -, hresult⟩
  · exact .inl ⟨hrepo, .inl (hindex e h)⟩
  rw [hresult] at h
  rcases planAndApply_error (Prod.ext (map_eq_error_iff.1 h) rfl) with
    ⟨hsame, he⟩ | ⟨x, -, -, happly⟩
  · refine .inl ⟨hrepo.trans hsame, .inr (he.imp_right ?_)⟩
    exact Or.imp_right fun hcross => ⟨index, hindex, hcross⟩
  · exact .inr (applyPlan_failsOnly _ _ _ _ e (congrArg Prod.fst happly))

end Runs

end ReleaseRecovery
