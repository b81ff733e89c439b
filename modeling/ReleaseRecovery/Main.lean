import ReleaseRecovery.Git.Loose
import ReleaseRecovery.Program
import Std.Time.DateTime.Timestamp

/-!
# The command

Reads a repository and the files around it, runs the program on them, and writes what is new.

## Main Definitions

* `Disk.load` — reading what a run needs
* `Disk.keep` — writing what a run has added
* `main` — the command

## Design Notes

Directories are not searched. Refs are found in the lists `packed-refs` and `info/refs`, which `git
update-server-info` writes, and objects in files of their own. Refs that have been added are put
into `info/refs` as well, so that the next run finds them. A file of a ref that is there is never
written over.
-/

namespace ReleaseRecovery.Disk

/-- The contents of a file; none if it cannot be read. -/
def read? (path : String) : IO (Option Bytes) := do
  try
    return some (← IO.FS.readBinFile path).toList
  catch _ => return none

/-- Whether there is something at a path. -/
def exists? (path : String) : IO Bool := do
  try
    discard (IO.FS.realPath path)
    return true
  catch _ => return false

/-- Writes a file. -/
def write (path : String) (data : Bytes) : IO Unit := IO.FS.writeBinFile path ⟨data.toArray⟩

/-- The path of the directory that a path goes through last. -/
def parent (path : String) : String :=
  String.ofList ((path.toList.reverse.dropWhile (· != '/')).drop 1).reverse

/-! ### Loading -/

/-- The directory that holds the data of a repository. -/
def data? (repo : String) : IO (Option String) := do
  let repo ← try pure (← IO.FS.realPath repo).toString catch _ => return none
  if (← read? (repo ++ "/.git/HEAD")).isSome then return some (repo ++ "/.git")
  else if (← read? (repo ++ "/HEAD")).isSome then return some repo
  else return none

/-- Adds refs to a repository, and their logs. What stands in the file of a ref counts more than
what a list says. -/
partial def refs (data : String) : List String → Git.Store → IO Git.Store
  | [], store => return store
  | name :: rest, store => do
    let log := Git.Store.logPath name
    let store := if ← exists? (data ++ "/" ++ log) then store.overwrite log else store
    match ← read? (data ++ "/" ++ name) with
    | none => refs data rest store
    | some text =>
      match Git.RefTarget.decode? text with
      | none => refs data rest (store.overwrite name)
      | some (.object id) =>
        refs data rest { store with refs := store.refs.insert name (.object id) }
      | some (.ref target) =>
        let further := if store.refs.contains target then rest else target :: rest
        refs data further { store with refs := store.refs.insert name (.ref target) }

/-- Reads objects and those that they lead to. -/
partial def objects (data : String) : List Git.Id → Git.Store → IO Git.Store
  | [], store => return store
  | id :: rest, store => do
    if store.objects.contains id.hex then objects data rest store
    else
      match (← read? (data ++ "/" ++ Git.Loose.path id)).bind Git.Loose.decode? with
      | some o =>
        let known := { store with objects := store.objects.insert id.hex o }
        objects data (o.leadsTo ++ rest) known
      | none => objects data rest store

/-- The ids that refs point at. -/
def targets (refs : SortedMap Git.RefTarget) : List Git.Id :=
  refs.values.filterMap fun
    | .object id => some id
    | .ref _ => none

/-- Reads a repository, of which the given names of refs are looked for in any case. -/
def repository (data : String) (wanted : List String) : IO Git.Store := do
  let packed := (← read? (data ++ "/packed-refs")).getD []
  let lists := packed ++ (← read? (data ++ "/info/refs")).getD []
  let listed := (Git.RefList.decode lists).map fun e => (e.1, Git.RefTarget.object e.2)
  let names := "HEAD" :: (listed.map Prod.fst ++ wanted.filter Git.RefName.isValid)
  let store ← refs data names ⟨.empty, SortedMap.ofList listed, [], []⟩
  objects data (targets store.refs) store

/-- Notes the directories on a path. -/
partial def directories (path : String) (files : Files) : IO Files := do
  if path = "" then return files
  let files ← directories (parent path) files
  match files.trace path with
  | .ok place => if ← exists? path then return files.put place.names .directory else return files
  | .error _ => return files

/-- Notes a file and the directories on its path. What is there and cannot be read counts as a
directory. -/
def file (files : Files) (path : String) : IO Files := do
  let files ← directories (parent path) files
  match files.resolve path with
  | .error _ => return files
  | .ok place =>
    match ← read? path with
    | some content => return files.put place.names (.file content)
    | none => if ← exists? path then return files.put place.names .directory else return files

/-- The files that a run can write. -/
def written (s : Settings) : List String :=
  (s.indexPath :: s.planOutput.toList).flatMap fun path => [path, Path.withExtension path "tmp"]

/-- The names of refs that a run looks at without finding them in a list. -/
def wanted (s : Settings) : List String :=
  ("refs/heads/" ++ s.legacyBranch) :: Git.RefName.candidates s.layout.reference

/-- Reads what a run needs. -/
def load (s : Settings) : IO (Surroundings Git.Store) := do
  let files ← (written s).foldlM file Files.fresh
  match ← data? s.repo with
  | none => return ⟨.fresh, ["", ""], files⟩
  | some data =>
    let files ← directories s.repo files
    let place := match files.trace s.repo with
      | .ok place => place.names
      | .error _ => ["", ""]
    return ⟨← repository data (wanted s), place, files⟩

/-! ### Keeping -/

/-- Writes the file of a new object, unless it is there. -/
def keepObject (data : String) (o : Git.Object) : IO Unit := do
  let path := data ++ "/" ++ Git.Loose.path o.id
  if (← read? path).isNone then
    IO.FS.createDirAll (parent path)
    write path (Git.Loose.encode o)

/-- Writes the file of a new ref and puts the ref into the list. -/
def keepRef (data name : String) (id : Git.Id) : IO Unit := do
  let path := data ++ "/" ++ name
  if (← read? path).isSome then throw (IO.userError ("ref " ++ name ++ " is there already"))
  IO.FS.createDirAll (parent path)
  write path (Git.RefTarget.object id).encode
  let list := (← read? (data ++ "/info/refs")).getD []
  IO.FS.createDirAll (data ++ "/info")
  write (data ++ "/info/refs") (list ++ Git.RefList.line name id)

/-- Writes a file that has changed. The data is written beside its place and then moved there. -/
def keepFile (old new : Files) (path : String) : IO Unit := do
  match new.read path with
  | .error _ => return
  | .ok content =>
    if (old.read path).toOption ≠ some content then
      write (path ++ ".new") content
      IO.FS.rename (path ++ ".new") path

/-- Writes what a run has added. -/
def keep (s : Settings) (old new : Surroundings Git.Store) : IO Unit := do
  if let some data ← data? s.repo then
    for (hex, o) in new.repo.objects.entries do
      unless old.repo.objects.contains hex do keepObject data o
    for (name, target) in new.repo.refs.entries do
      if let .object id := target then
        unless old.repo.refs.contains name do keepRef data name id
  (written s).forM (keepFile old.files new.files)

/-! ### The command -/

/-- The moment at which the command is given. -/
def now : IO Instant := do
  let t ← Std.Time.Timestamp.now
  return ⟨t.val.second.val, t.val.nano.val.toNat⟩

end ReleaseRecovery.Disk

open ReleaseRecovery

/-- The command. -/
def main (arguments : List String) : IO UInt32 := do
  let now ← Disk.now
  let old ← match Settings.ofArguments arguments with
    | .ok s => Disk.load s
    | .error _ => pure ⟨.fresh, [], .fresh⟩
  let e := program arguments .never now old
  if let .ok s := Settings.ofArguments arguments then Disk.keep s old e.surroundings
  IO.print (Utf8.decodeLossy e.output)
  if let some text := complaint e.result then IO.eprintln text
  return e.code
