import ReleaseRecovery.Run

/-!
# The program

From the arguments of a command line to an exit code: what a run writes, and how it ends.

## Main Definitions

* `Surroundings` — a repository, its place, and the files around it
* `Surroundings.opens` — the paths that lead to the repository
* `Execution`, `execute` — a run that opens the repository and delivers its report
* `exitCode` — how a command ends
* `Ending`, `program` — the program
-/

namespace ReleaseRecovery

/-- A repository, and the files around it. -/
structure Surroundings (ρ : Type) where
  repo : ρ
  /-- The directory of the repository. -/
  place : List String
  files : Files

/-- The directory in which a repository keeps its data. -/
def Surroundings.home {ρ : Type} (s : Surroundings ρ) : List String := s.place ++ [".git"]

/-- Whether the repository can be opened at a path: it is sound, and the path leads to its directory
or to the `.git` in there. The path may be of any length. -/
def Surroundings.opens {ρ : Type} [Repository ρ] (s : Surroundings ρ) (path : String) : Bool :=
  match s.files.trace path with
  | .ok place => Repository.isSound s.repo && (place.names = s.place ∨ place.names = s.home)
  | .error _ => false

/-- What a run comes to, what it prints, and what it leaves behind. -/
structure Execution (ρ : Type) where
  result : Except Failure Unit
  output : Bytes
  surroundings : Surroundings ρ

variable {ρ : Type} [Repository ρ]

/-- Writes a report to the file it is meant for, or prints it. -/
def deliver (settings : Settings) (report : Json.Value) (s : Surroundings ρ) : Execution ρ :=
  match settings.planOutput with
  | none => ⟨.ok (), Snapshot.planText report, s⟩
  | some path =>
    let (written, files) := Snapshot.writePlan path report s.files
    ⟨written, [], { s with files := files }⟩

/-- Opens the repository, makes a run and delivers its report. -/
def execute (settings : Settings) (interrupt : Interrupt) (now : Instant) (s : Surroundings ρ) :
    Execution ρ :=
  if !s.opens settings.repo then ⟨.error (.store "opening"), [], s⟩
  else
    let o := run settings interrupt now s.repo s.files
    let s : Surroundings ρ := ⟨o.repo, s.place, o.files⟩
    match o.result with
    | .error e => ⟨.error e, [], s⟩
    | .ok none => ⟨.ok (), [], s⟩
    | .ok (some report) => deliver settings (report.encode now) s

/-! ### How it ends -/

/-- Whether a failure is a stop that was asked for. -/
def Failure.isStop : Failure → Bool
  | .interrupted _ _ _ | .cancelled _ => true
  | _ => false

/-- Whether the arguments ask for a text instead of a run. -/
def UsageError.isRequest : UsageError → Bool
  | .displayHelp | .displayVersion => true
  | _ => false

/-- The exit code of a command: 0 if it did what it was asked to, 2 if the arguments are refused,
130 if it was stopped, and 1 otherwise. -/
def exitCode : Except CommandError Unit → UInt32
  | .ok _ => 0
  | .error (.usage e) => if e.isRequest then 0 else 2
  | .error (.failure e) => if e.isStop then 130 else 1

/-- How a command ends, what it prints, and what it leaves behind. -/
structure Ending (ρ : Type) where
  result : Except CommandError Unit
  output : Bytes
  surroundings : Surroundings ρ

/-- The exit code of an ending. -/
def Ending.code (e : Ending ρ) : UInt32 := exitCode e.result

/-- The text that the arguments ask for instead of a run. -/
def CommandError.output : CommandError → Bytes
  | .usage .displayHelp => Utf8.encode CommandLine.help
  | .usage .displayVersion => Utf8.encode CommandLine.versionText
  | _ => []

/-- What is told about the way a command ended. -/
def complaint : Except CommandError Unit → Option String
  | .ok _ => none
  | .error (.failure e) => some e.message
  | .error (.usage e) => if e.isRequest then none else some "the arguments cannot be followed"

/-- The program. -/
def program (arguments : List String) (interrupt : Interrupt) (now : Instant)
    (s : Surroundings ρ) : Ending ρ :=
  match Settings.ofArguments arguments with
  | .error e => ⟨.error e, e.output, s⟩
  | .ok settings =>
    let done := execute settings interrupt now s
    ⟨done.result.mapError .failure, done.output, done.surroundings⟩

end ReleaseRecovery
