import ReleaseRecovery.Files
import ReleaseRecovery.Json.Problem
import ReleaseRecovery.Text.Quoted

/-!
# Failures

Everything that can stop a run, by cause.

## Main Definitions

* `Stage` — how far a run is to go
* `Step` — the parts of a run that can be interrupted half way
* `Failure` — the causes
* `Failure.message` — their wording
-/

namespace ReleaseRecovery

/-- How far a run goes. -/
inductive Stage
  /-- Histories and installs are brought up to date. -/
  | index
  /-- Releases are planned. -/
  | plan
  /-- Releases are tagged. -/
  | apply
deriving DecidableEq

/-- The word for a stage. -/
def Stage.text : Stage → String
  | .index => "index"
  | .plan => "plan"
  | .apply => "apply"

/-- A part of a run that can be interrupted half way. -/
inductive Step
  | scan
  | apply
deriving DecidableEq

/-- The word for a step. -/
def Step.text : Step → String
  | .scan => "scan"
  | .apply => "apply"

/-- Why a run stops. -/
inductive Failure
  /-- A text that is no release name. -/
  | malformedName (name : String)
  | refNotFound (ref : String)
  | objectNotFound (id : String)
  | invalidObjectId (id : String)
  /-- A commit of a history that has not been looked at. -/
  | missingScan (commit ref : String)
  /-- A directory that contains itself. -/
  | endlessTree (tree : String)
  | interrupted (step : Step) (completed remaining : Nat)
  /-- Stopped before a stage that would have come next. -/
  | cancelled (stage : Stage)
  /-- A ref that is there already and points elsewhere. -/
  | refConflict (name existing wanted : String)
  | invalidDate (raw : String)
  /-- The version store cannot do what the context says. -/
  | store (context : String)
  | indexUnreadable (cause : FileError)
  | indexMalformed (cause : Json.Problem)
  | indexUnwritable (cause : FileError)
  | planUnwritable (cause : FileError)
deriving DecidableEq

/-- The wording of a failure. -/
def Failure.message : Failure → String
  | malformedName name => "not a release name: " ++ Text.quote name
  | refNotFound ref => "ref not found: " ++ ref
  | objectNotFound id => "object not found: " ++ id
  | invalidObjectId id => "not a valid object id: " ++ id
  | missingScan commit ref => s!"content index has no scan for commit {commit} (ref {ref})"
  | endlessTree tree => "directory contains itself: " ++ tree
  | interrupted step completed remaining =>
    step.text ++ " interrupted: " ++ Nat.repr completed ++ " done, " ++ Nat.repr remaining ++
      " left for the next run"
  | cancelled stage =>
    "interrupted before the " ++ stage.text ++ " stage, the repository was not touched"
  | refConflict name existing wanted =>
    s!"ref {name} already points at {existing}, refusing to move it to {wanted}"
  | invalidDate raw => "invalid synthetic date " ++ Text.quote raw ++ " (expected RFC 3339)"
  | store context => context
  | indexUnreadable cause => cause.kind
  | indexMalformed cause => cause.category
  | indexUnwritable cause => cause.kind
  | planUnwritable cause => cause.kind

end ReleaseRecovery
