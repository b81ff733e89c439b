import ReleaseRecovery.Failure
import ReleaseRecovery.Text.Decimal

/-!
# The command line

Which options there are, and how a list of arguments is taken apart into them.

## Main Definitions

* `Flag` — the options
* `UsageError` — why arguments are refused
* `OptionReader`, `OptionReader.step` — taking arguments one by one
* `CommandLine.parse` — a whole command line

## Design Notes

An option is given by its long name, or by its letter if it has one. A value follows as the next
argument, or directly after `=` or the letter; an argument that starts with a hyphen is no value,
unless it is the hyphen alone. Letters of options without a value can share one hyphen.

A value that stands in an argument of its own is looked at only when the next option, or the end, is
reached, so an unknown option is reported before a bad value in front of it.
-/

namespace ReleaseRecovery

/-- Why the arguments are refused, or what was asked for instead of a run. -/
inductive UsageError
  | missingRequiredArgument
  | unknownArgument
  | invalidValue
  | valueValidation
  | argumentConflict
  | tooManyValues
  | displayHelp
  | displayVersion
deriving DecidableEq

/-- The options. -/
inductive Flag
  | repo
  | index
  | stage
  | planOutput
  | refStart
  | reference
  | markerDirectory
  | markerFile
  | jobs
  | checkpointEvery
  | tagStart
  | legacyBranch
  | identityName
  | identityEmail
  | syntheticDate
  | verbose
  | quiet
  | help
  | version
deriving DecidableEq

namespace Flag

/-- The long name of an option. -/
def name : Flag → String
  | repo => "repo"
  | index => "index"
  | stage => "stage"
  | planOutput => "plan-output"
  | refStart => "prefix"
  | reference => "reference"
  | markerDirectory => "marker-dir"
  | markerFile => "marker-file"
  | jobs => "jobs"
  | checkpointEvery => "checkpoint-every"
  | tagStart => "tag-prefix"
  | legacyBranch => "legacy-branch"
  | identityName => "identity-name"
  | identityEmail => "identity-email"
  | syntheticDate => "synthetic-date"
  | verbose => "verbose"
  | quiet => "quiet"
  | help => "help"
  | version => "version"

/-- The letter of an option. -/
def letter? : Flag → Option Char
  | repo => some 'r'
  | jobs => some 'j'
  | verbose => some 'v'
  | quiet => some 'q'
  | help => some 'h'
  | version => some 'V'
  | _ => none

/-- All options. -/
def all : List Flag :=
  [repo, index, stage, planOutput, refStart, reference, markerDirectory, markerFile, jobs,
    checkpointEvery, tagStart, legacyBranch, identityName, identityEmail, syntheticDate, verbose,
    quiet, help, version]

/-- Whether an option has a value. -/
def takesValue : Flag → Bool
  | verbose | quiet | help | version => false
  | _ => true

/-- The option with a long name. -/
def ofName? (n : String) : Option Flag := all.find? fun f => f.name = n

/-- The option with a letter. -/
def ofLetter? (c : Char) : Option Flag := all.find? fun f => f.letter? = some c

end Flag

/-! ### Values -/

/-- The stage that a word stands for. -/
def Stage.ofText? (s : String) : Option Stage :=
  [Stage.index, .plan, .apply].find? fun stage => stage.text = s

/-- A natural number of 64 bits; a plus sign may stand in front of it. -/
def countOfText? (s : String) : Option Nat :=
  let digits := match s.toList with
    | '+' :: rest => rest
    | cs => cs
  (Decimal.value? digits).bind fun n => if n < UInt64.size then some n else none

/-- Checks the value of an option. Paths are not empty. -/
def Flag.check (f : Flag) (value : String) : Except UsageError Unit :=
  match f with
  | repo | index | planOutput => if value = "" then .error .invalidValue else .ok ()
  | stage => if (Stage.ofText? value).isSome then .ok () else .error .invalidValue
  | jobs | checkpointEvery =>
    if (countOfText? value).isSome then .ok () else .error .valueValidation
  | _ => .ok ()

/-! ### Taking arguments one by one -/

/-- The options that have been taken, with their values, and the one that has been read last. -/
structure OptionReader where
  taken : List (Flag × String)
  /-- The last option with a value of its own argument, and that value once it has been read. -/
  pending : Option (Flag × Option String)
  /-- Everything after a double hyphen is no option. -/
  ended : Bool

namespace OptionReader

/-- Before the first argument. -/
def start : OptionReader := ⟨[], none, false⟩

/-- Takes an option with its value. Every option is given at most once. -/
def accept (s : OptionReader) (f : Flag) (value : Option String) : Except UsageError OptionReader :=
  if f = .help then .error .displayHelp
  else if f = .version then .error .displayVersion
  else
    match value with
    | none =>
      if f.takesValue then .error .invalidValue
      else if (s.taken.lookup f).isSome then .error .argumentConflict
      else .ok { s with taken := (f, "true") :: s.taken }
    | some v =>
      if (s.taken.lookup f).isSome then .error .argumentConflict
      else (f.check v).map fun _ => { s with taken := (f, v) :: s.taken }

/-- Takes the option that has been read last. -/
def settle (s : OptionReader) : Except UsageError OptionReader :=
  match s.pending with
  | none => .ok s
  | some (f, value) => { s with pending := none }.accept f value

/-- Takes an option together with its value, after the one that has been read before. -/
def give (s : OptionReader) (f : Flag) (value : Option String) :
    Except UsageError OptionReader := do
  (← s.settle).accept f value

/-- Reads an option whose value is to follow. -/
def expect (s : OptionReader) (f : Flag) : Except UsageError OptionReader := do
  return { ← s.settle with pending := some (f, none) }

/-- Reads the letters after a single hyphen. -/
def letters : OptionReader → List Char → Except UsageError OptionReader
  | s, [] => .ok s
  | s, c :: rest =>
    match Flag.ofLetter? c with
    | none => .error .unknownArgument
    | some f =>
      if f.takesValue then
        match rest with
        | [] => s.expect f
        | '=' :: value => s.give f (some (String.ofList value))
        | value => s.give f (some (String.ofList value))
      else
        match s.give f none with
        | .ok s => letters s rest
        | .error e => .error e

/-- Reads what stands after a double hyphen. -/
def long (s : OptionReader) (cs : List Char) : Except UsageError OptionReader :=
  match Flag.ofName? (String.ofList (cs.takeWhile (· != '='))) with
  | none => .error .unknownArgument
  | some f =>
    match cs.dropWhile (· != '=') with
    | _ :: value =>
      if f.takesValue then s.give f (some (String.ofList value)) else .error .tooManyValues
    | [] => if f.takesValue then s.expect f else s.give f none

/-- Reads an argument that is no option: the value that is waited for. -/
def plain (s : OptionReader) (argument : String) : Except UsageError OptionReader :=
  match s.pending with
  | some (f, none) => .ok { s with pending := some (f, some argument) }
  | _ => .error .unknownArgument

/-- Reads one argument. -/
def step (s : OptionReader) (argument : String) : Except UsageError OptionReader :=
  if s.ended then .error .unknownArgument
  else
    match argument.toList with
    | ['-', '-'] => .ok { s with ended := true }
    | '-' :: '-' :: cs => s.long cs
    | '-' :: c :: cs => s.letters (c :: cs)
    | _ => s.plain argument

end OptionReader

/-! ### Whole command lines -/

/-- The options that were given, with their values. -/
structure CommandLine where
  taken : List (Flag × String)

namespace CommandLine

/-- The value of an option, if it was given. -/
def value? (line : CommandLine) (f : Flag) : Option String := line.taken.lookup f

/-- The value of an option, or what stands for it otherwise. -/
def value (line : CommandLine) (f : Flag) (otherwise : String) : String :=
  (line.value? f).getD otherwise

/-- Whether an option was given. -/
def has (line : CommandLine) (f : Flag) : Bool := (line.value? f).isSome

/-- What is told about an option. -/
def about : Flag → String
  | .repo => "the repository, of which the refs have to be listed in `info/refs`"
  | .index => "where the index is kept between runs [retag-index.json]"
  | .stage => "how far the run goes: index, plan or apply [plan]"
  | .planOutput => "where the report goes; standard output otherwise"
  | .refStart => "what the names of the refs that are looked at begin with [svn/]"
  | .reference => "the reference line [svn/trunk]"
  | .markerDirectory => "the directory that marks a full install [vice]"
  | .markerFile => "the file that marks a partial install [README]"
  | .jobs => "the number of workers"
  | .checkpointEvery => "the number of commits between two saves of the index [500]"
  | .tagStart => "what the names of new tags begin with [release/]"
  | .legacyBranch => "the branch of synthesized commits [legacy_releases]"
  | .identityName => "the name of their maker"
  | .identityEmail => "the address of their maker"
  | .syntheticDate => "their date, as in RFC 3339; the time of the run otherwise"
  | .verbose => "tell more"
  | .quiet => "tell less"
  | .help => "tell this"
  | .version => "tell the version"

/-- A line about an option. -/
def helpLine (f : Flag) : String :=
  "  " ++ (f.letter?.elim "    " fun c => "-" ++ c.toString ++ ", ") ++ "--" ++ f.name ++ ": " ++
    about f

/-- What is told about the command line. -/
def help : String := "\n".intercalate ("Options:" :: Flag.all.map helpLine) ++ "\n"

/-- What is told about the version of the program. -/
def versionText : String := "release-recovery 0.1.0\n"

/-- Takes a command line apart. The repository has to be given, and a run is not both verbose and
quiet. -/
def parse (arguments : List String) : Except UsageError CommandLine := do
  let s ← arguments.foldlM OptionReader.step OptionReader.start
  let line : CommandLine := ⟨(← s.settle).taken⟩
  if line.has .verbose ∧ line.has .quiet then throw .argumentConflict
  if !line.has .repo then throw .missingRequiredArgument
  return line

end CommandLine

end ReleaseRecovery
