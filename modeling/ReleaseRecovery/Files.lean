import ReleaseRecovery.Files.Path
import ReleaseRecovery.SortedMap
import ReleaseRecovery.Text.Utf8

/-!
# Files

The files and directories around a run, and the few things that are done to them.

## Main Definitions

* `FileError` — why something cannot be done
* `Files` — files and directories, with the directory that paths start from
* `Files.read` — the contents of a file
* `FileStep` — one change: creating, writing, flushing, renaming
* `Files.replace` — writing a file beside its place and moving it there

## Design Notes

Files and directories are kept by their full path, as the names on the way from the top with slashes
between them. A change either happens as a whole or leaves everything as it was, except that writing
can stop after any part of the data; `FileStep.run` is one change, and a run that stops early has
done the first few of its changes.
-/

namespace ReleaseRecovery

/-- Why something cannot be done with a file. -/
inductive FileError
  | notFound
  | isADirectory
  | notADirectory
  | busy
  | invalidName
  | invalidInput
  | other
deriving DecidableEq

/-- The word for a cause. -/
def FileError.kind : FileError → String
  | .notFound => "NotFound"
  | .isADirectory => "IsADirectory"
  | .notADirectory => "NotADirectory"
  | .busy => "ResourceBusy"
  | .invalidName => "InvalidFilename"
  | .invalidInput => "InvalidInput"
  | .other => "Other"

/-- What a path can lead to. -/
inductive FileNode
  | file (content : Bytes)
  | directory
deriving DecidableEq

/-- Files and directories by full path, and the directory that paths start from. The top itself is
a directory and is not listed. -/
structure Files where
  nodes : SortedMap FileNode
  start : List String

namespace Files

/-- The full path that a list of names stands for. -/
def key (names : List String) : String := "/".intercalate names

/-- What stands at a place. -/
def node? (files : Files) (names : List String) : Option FileNode :=
  if names = [] then some .directory else files.nodes.get? (key names)

/-- An otherwise empty directory to start from. -/
def fresh : Files := ⟨SortedMap.ofList [("work", .directory)], ["work"]⟩

/-- The names in the directory that paths start from, ascending. -/
def listing (files : Files) : List String :=
  files.nodes.keys.filterMap fun k =>
    let names := Path.parts k
    if names.dropLast = files.start then names.getLast? else none

/-! ### Where a path leads -/

/-- A place that a path leads to: a name in a directory, or a directory reached by `.`, `..` or a
slash at the end. -/
structure Place where
  names : List String
  /-- The path ends in a name. -/
  isNamed : Bool
  /-- A slash follows the name. -/
  hasSlash : Bool

/-- Goes one name further from a directory. -/
def enter (files : Files) (place : List String) (name : String) : Except FileError (List String) :=
  match files.node? place with
  | none => .error .notFound
  | some (.file _) => .error .notADirectory
  | some .directory =>
    if name = "." then .ok place
    else if name = ".." then .ok place.dropLast
    else if Path.maxName < name.utf8ByteSize then .error .invalidName
    else .ok (place ++ [name])

/-- Where a path leads, however long it is. Every name on the way has to be a directory; the last
one may be free. -/
def trace (files : Files) (path : String) : Except FileError Place := do
  if path = "" then throw .notFound
  let names := (Path.parts path).filter (· ≠ "")
  let start := if path.toList.head? = some '/' then [] else files.start
  let place ← names.foldlM (enter files) start
  let last := names.getLast?
  return {
    names := place
    isNamed := last ≠ none ∧ last ≠ some "." ∧ last ≠ some ".."
    hasSlash := path.toList.getLast? = some '/' }

/-- Where a path leads. -/
def resolve (files : Files) (path : String) : Except FileError Place :=
  if path.toList.contains '\x00' then .error .invalidInput
  else if Path.maxLength < path.utf8ByteSize then .error .invalidName
  else files.trace path

/-- The contents of a file. -/
def read (files : Files) (path : String) : Except FileError Bytes := do
  let place ← files.resolve path
  match files.node? place.names with
  | none => throw .notFound
  | some .directory => throw .isADirectory
  | some (.file content) => if place.hasSlash then throw .notADirectory else return content

/-- The files with something else at a place. -/
def put (files : Files) (names : List String) (node : FileNode) : Files :=
  { files with nodes := files.nodes.insert (key names) node }

/-- The files without what stands at a place. -/
def drop (files : Files) (names : List String) : Files :=
  { files with nodes := files.nodes.filterKeys (· != key names) }

end Files

/-! ### Changes -/

/-- One change to the files. -/
inductive FileStep
  /-- An empty file, in place of any old one. -/
  | create (path : String)
  /-- Data at the end of a file. -/
  | write (path : String) (data : Bytes)
  /-- Everything written so far reaches the disk. -/
  | flush (path : String)
  /-- A file takes a new name, in place of any file that had it. -/
  | rename (old new : String)
deriving DecidableEq

namespace FileStep

open Files

/-- Makes an empty file. -/
def runCreate (files : Files) (path : String) : Except FileError Files := do
  let place ← files.resolve path
  if place.hasSlash ∨ !place.isNamed then throw .isADirectory
  match files.node? place.names with
  | some .directory => throw .isADirectory
  | _ => return files.put place.names (.file [])

/-- Appends to a file. -/
def runWrite (files : Files) (path : String) (data : Bytes) : Except FileError Files := do
  let place ← files.resolve path
  let content ← files.read path
  return files.put place.names (.file (content ++ data))

/-- Moves a file. A file takes the place of another file but not that of a directory. -/
def runRename (files : Files) (old new : String) : Except FileError Files := do
  let source ← files.resolve old
  let target ← files.resolve new
  if !source.isNamed ∨ !target.isNamed then throw .busy
  match files.node? source.names with
  | none => throw .notFound
  | some .directory => throw .other
  | some (.file content) =>
    if source.hasSlash ∨ target.hasSlash then throw .notADirectory
    match files.node? target.names with
    | some .directory => throw .isADirectory
    | _ =>
      if source.names = target.names then return files
      else return (files.drop source.names).put target.names (.file content)

/-- One change; the cause if it cannot be made. -/
def run (files : Files) : FileStep → Except FileError Files
  | create path => runCreate files path
  | write path data => runWrite files path data
  | flush _ => .ok files
  | rename old new => runRename files old new

/-- Makes changes one after the other until one fails. What has been changed stays. -/
def runAll : List FileStep → Files → Except FileError Unit × Files
  | [], files => (.ok (), files)
  | s :: rest, files =>
    match s.run files with
    | .ok files => runAll rest files
    | .error e => (.error e, files)

@[simp] theorem runAll_nil (files : Files) : runAll [] files = (.ok (), files) := rfl

theorem runAll_cons (s : FileStep) (rest : List FileStep) (files : Files) :
    runAll (s :: rest) files =
      match s.run files with
      | .ok files => runAll rest files
      | .error e => (.error e, files) := by
  cases h : s.run files <;> simp only [runAll, h]

end FileStep

namespace Files

/-- The changes that give a file new contents: all of the data is written to a temporary file beside
it, which then takes its name. -/
def replacement (path : String) (data : Bytes) : List FileStep :=
  let temporary := Path.withExtension path "tmp"
  [.create temporary, .write temporary data, .flush temporary, .rename temporary path]

/-- Gives a file new contents. -/
def replace (files : Files) (path : String) (data : Bytes) : Except FileError Unit × Files :=
  FileStep.runAll (replacement path data) files

end Files

end ReleaseRecovery
