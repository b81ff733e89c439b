import ReleaseRecovery.Apply
import ReleaseRecovery.CommandLine
import ReleaseRecovery.History
import ReleaseRecovery.Instant

/-!
# Settings

What a run is to do, as the command line says it.

## Main Definitions

* `Settings` — everything that a run depends on
* `CommandError` — a command line that cannot be followed
* `Settings.ofArguments` — from the arguments of a command line
-/

namespace ReleaseRecovery

/-- Everything that a run depends on. -/
structure Settings where
  repo : String
  indexPath : String
  /-- Where the report goes; none for standard output. -/
  planOutput : Option String
  stage : Stage
  markers : Markers
  layout : Layout
  /-- The number of workers, if it was given. -/
  jobs : Option Nat
  /-- The number of commits that are scanned between two saves. -/
  checkpointEvery : Nat
  tagStart : String
  legacyBranch : String
  identity : Identity
  /-- The time of synthesized commits; none for the time of the run. -/
  date : Option Instant
  verbose : Bool
  quiet : Bool
  checkpointEvery_pos : 0 < checkpointEvery

/-- A command line that cannot be followed. -/
inductive CommandError
  | usage (error : UsageError)
  | failure (cause : Failure)
deriving DecidableEq

namespace Settings

/-- The names and the maker of what is written, in a run that takes place now. -/
def applyOptions (s : Settings) (now : Instant) : ApplyOptions :=
  ⟨s.tagStart, s.legacyBranch, s.identity, (s.date.getD now).seconds⟩

/-- The moment that was given for synthesized commits. -/
def date? (line : CommandLine) : Except Failure (Option Instant) :=
  match line.value? .syntheticDate with
  | none => .ok none
  | some raw =>
    match Instant.ofText? raw with
    | some i => .ok (some i)
    | none => .error (.invalidDate raw)

/-- The number that was given for an option, at least one. -/
def count? (line : CommandLine) (f : Flag) : Option Nat :=
  ((line.value? f).bind countOfText?).map (max 1)

/-- The settings that a command line stands for. -/
def ofCommandLine (line : CommandLine) : Except Failure Settings := do
  let date ← date? line
  let checkpoint := (count? line .checkpointEvery).getD 500
  return {
    repo := line.value .repo ""
    indexPath := line.value .index "retag-index.json"
    planOutput := line.value? .planOutput
    stage := ((line.value? .stage).bind Stage.ofText?).getD .plan
    markers := ⟨line.value .markerDirectory "vice", line.value .markerFile "README"⟩
    layout := ⟨line.value .refStart "svn/", line.value .reference "svn/trunk"⟩
    jobs := count? line .jobs
    checkpointEvery := max 1 checkpoint
    tagStart := line.value .tagStart "release/"
    legacyBranch := line.value .legacyBranch "legacy_releases"
    identity := ⟨line.value .identityName "Release Reconstructor",
      line.value .identityEmail "release-reconstructor@localhost"⟩
    date := date
    verbose := line.has .verbose
    quiet := line.has .quiet
    checkpointEvery_pos := by omega }

/-- The settings that arguments stand for. -/
def ofArguments (arguments : List String) : Except CommandError Settings :=
  match CommandLine.parse arguments with
  | .error e => .error (.usage e)
  | .ok line =>
    match ofCommandLine line with
    | .error e => .error (.failure e)
    | .ok s => .ok s

end Settings

end ReleaseRecovery
