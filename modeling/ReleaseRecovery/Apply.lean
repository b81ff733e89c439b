import ReleaseRecovery.Plan
import ReleaseRecovery.Repository

/-!
# Applying a plan

Every planned release is tagged. A release whose content never was on the reference line gets a
commit of its own; these commits form one chain, oldest version first, and a branch points at the
last of them.

## Main Definitions

* `ApplyOptions` — names and maker of what is written
* `ApplyReport` — what was written, and what was left out
* `Writing` — a calculation that adds to a store
* `applyRelease`, `applyPlan` — one release, and the whole plan

## Main Statements

* `Writing.after_bind` — a calculation goes on from the store as it is by then

## Design Notes

A run that is asked to stop finishes the release it is at. Since commits and refs are only ever
added, a later run finds what is there and goes on.
-/

namespace ReleaseRecovery

/-- Names and maker of what is written. -/
structure ApplyOptions where
  /-- What the names of release tags begin with. -/
  tagStart : String
  legacyBranch : String
  identity : Identity
  /-- The time of synthesized commits, in seconds from the start of 1970. -/
  time : Int
deriving DecidableEq

/-- The tag of a release. -/
def ApplyOptions.tagName (options : ApplyOptions) (v : Version) : String :=
  options.tagStart ++ v.text

/-- The message of the commit that is made for a release. -/
def legacyMessage (v : Version) : String := "Legacy release " ++ v.text

/-- A ref that points at a commit, and whether this run made it. -/
structure RefOutcome where
  name : String
  commit : CommitId
  created : Bool
deriving DecidableEq

/-- A commit that was made for a release. -/
structure SynthesizedRelease where
  version : Version
  commit : CommitId
  tree : TreeId
  parent : Option CommitId
deriving DecidableEq

/-- A release, or a copy of one, that was left out. -/
structure SkippedRelease where
  version : Version
  source : String
  /-- The plan has another copy of the release. -/
  tagged : Bool
deriving DecidableEq

/-- What was written, and what was left out. -/
structure ApplyReport where
  tags : List RefOutcome
  synthesized : List SynthesizedRelease
  legacyBranch : Option RefOutcome
  skipped : List SkippedRelease
deriving DecidableEq

/-! ### Writing to a store -/

variable {ρ : Type}

/-- A store, and what has been done so far, the last action first. -/
structure Session (ρ : Type) where
  repo : ρ
  done : List Action

/-- The same store, after one more look at the request to stop. -/
def Session.polled (s : Session ρ) : Session ρ := { s with done := .poll :: s.done }

@[simp] theorem Session.repo_polled (s : Session ρ) : s.polled.repo = s.repo := rfl

@[simp] theorem Session.done_polled (s : Session ρ) : s.polled.done = .poll :: s.done := rfl

/-- A calculation that adds to a store. What has been added stays when it fails. -/
abbrev Writing (ρ : Type) := ExceptT Failure (StateM (Session ρ))

namespace Writing

/-- What a calculation comes to, and the store after it. -/
def after {α : Type} (w : Writing ρ α) (s : Session ρ) : Except Failure α × Session ρ :=
  Id.run (StateT.run (ExceptT.run w) s)

/-- Adds to the store, and notes it. -/
def add {α : Type} (action : Action) (change : ρ → Except Failure α × ρ) : Writing ρ α :=
  ExceptT.mk fun s => ((change s.repo).1, ⟨(change s.repo).2, action :: s.done⟩)

/-- Looks whether the run has been asked to stop, and fails if it has. -/
def unlessRaised (interrupt : Interrupt) (e : Failure) : Writing ρ Unit :=
  ExceptT.mk fun s => (if interrupt.raised s.done then .error e else .ok (), s.polled)

variable {α β : Type}

@[simp] theorem after_pure (a : α) (s : Session ρ) :
    (pure a : Writing ρ α).after s = (.ok a, s) := rfl

@[simp] theorem after_throw (e : Failure) (s : Session ρ) :
    (throw e : Writing ρ α).after s = (.error e, s) := rfl

@[simp] theorem after_unlessRaised (interrupt : Interrupt) (e : Failure) (s : Session ρ) :
    (unlessRaised interrupt e).after s =
      (if interrupt.raised s.done then .error e else .ok (), s.polled) := rfl

/-- A failure ends a calculation; otherwise the rest goes on from the store as it is by then. -/
theorem after_bind (w : Writing ρ α) (f : α → Writing ρ β) (s : Session ρ) :
    (w >>= f).after s =
      match w.after s with
      | (.ok a, s) => (f a).after s
      | (.error e, s) => (.error e, s) := by
  simp only [after, ExceptT.run_bind, StateT.run_bind, Id.run_bind]
  generalize Id.run (StateT.run (ExceptT.run w) s) = x
  obtain ⟨(_ | _), _⟩ := x <;> rfl

/-- Whether a change can be made or not, it is noted, and the store is what it left. -/
@[simp] theorem after_add (action : Action) (change : ρ → Except Failure α × ρ) (s : Session ρ) :
    (add action change).after s =
      ((change s.repo).1, ⟨(change s.repo).2, action :: s.done⟩) := rfl

variable [Repository ρ]

/-- Makes a commit. -/
def createCommit (c : NewCommit) : Writing ρ CommitId :=
  add (.createCommit c.tree) fun repo => Repository.createCommit repo c

/-- Points a tag at a commit. -/
def createTag (name : String) (target : CommitId) : Writing ρ RefUpdate :=
  add (.createTag name) fun repo => Repository.createTag repo name target

/-- Points a branch at a commit. -/
def createBranch (name : String) (target : CommitId) : Writing ρ RefUpdate :=
  add (.createBranch name) fun repo => Repository.createBranch repo name target

end Writing

/-! ### The plan -/

/-- What has come of the releases so far, and the last commit that was made for one. -/
structure Progress where
  tags : List RefOutcome
  synthesized : List SynthesizedRelease
  last : Option CommitId
deriving DecidableEq

namespace Progress

/-- Before the first release. -/
def start : Progress := ⟨[], [], none⟩

/-- One more commit was made for a release. -/
def addCommit (p : Progress) (r : PlannedRelease) (commit : CommitId) : Progress :=
  { p with
    synthesized := p.synthesized ++ [⟨r.version, commit, r.tree, p.last⟩]
    last := some commit }

/-- One more release was tagged. -/
def addTag (p : Progress) (tag : String) (commit : CommitId) (update : RefUpdate) : Progress :=
  { p with tags := p.tags ++ [⟨tag, commit, update == .created⟩] }

end Progress

variable [Repository ρ]

/-- Makes the commit of a release, as the child of the last one that was made. -/
def synthesize (options : ApplyOptions) (p : Progress) (r : PlannedRelease) :
    Writing ρ (CommitId × Progress) := do
  let commit ← Writing.createCommit
    ⟨r.tree, p.last, legacyMessage r.version, options.identity, options.time⟩
  return (commit, p.addCommit r commit)

/-- Tags one release, the next of `total`. -/
def applyRelease (options : ApplyOptions) (interrupt : Interrupt) (total : Nat) (p : Progress)
    (r : PlannedRelease) : Writing ρ Progress := do
  Writing.unlessRaised interrupt (.interrupted .apply p.tags.length (total - p.tags.length))
  let (commit, p) ←
    match r.trunkCommit with
    | some commit => pure (commit, p)
    | none => synthesize options p r
  let tag := options.tagName r.version
  let update ← Writing.createTag tag commit
  return p.addTag tag commit update

/-- Points the branch at the last commit that was made for a release, if one was. -/
def applyBranch (options : ApplyOptions) (interrupt : Interrupt) (total : Nat) (p : Progress) :
    Writing ρ (Option RefOutcome) := do
  match p.last with
  | none => return none
  | some commit =>
    Writing.unlessRaised interrupt (.interrupted .apply total 0)
    let update ← Writing.createBranch options.legacyBranch commit
    return some ⟨options.legacyBranch, commit, update == .created⟩

/-- The releases of a plan in ascending order of their versions. -/
def ReleasePlan.ordered (plan : ReleasePlan) : List PlannedRelease :=
  plan.releases.mergeSort fun a b => decide (a.version ≤ b.version)

/-- What a plan leaves out. -/
def ReleasePlan.skipped (plan : ReleasePlan) : List SkippedRelease :=
  plan.unresolved.map fun u =>
    ⟨u.version, u.source, plan.releases.any fun r => decide (r.version = u.version)⟩

/-- Applies a plan. -/
def applyPlan (options : ApplyOptions) (interrupt : Interrupt) (plan : ReleasePlan) :
    Writing ρ ApplyReport := do
  let releases := plan.ordered
  let p ← releases.foldlM (applyRelease options interrupt releases.length) Progress.start
  let branch ← applyBranch options interrupt releases.length p
  return ⟨p.tags, p.synthesized, branch, plan.skipped⟩

end ReleaseRecovery
