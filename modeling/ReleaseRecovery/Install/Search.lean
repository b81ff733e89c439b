import ReleaseRecovery.Repository

/-!
# Finding installs

The directories of a commit are searched from the top. The search does not go below a directory that
carries a marker; a directory without markers is scaffolding, and all directories in it are
searched.

## Main Definitions

* `Markers.isDirectory`, `Markers.isFile` — the two markers among the entries of a directory
* `searchTree` — searching one directory
* `scan` — searching a commit

## Design Notes

Subdirectories are searched from the last one to the first, each to its end before the next. Where
two directories have the same path, the one that is searched later is recorded. The number of
directories that can stand inside each other is bounded, so the search ends also where a directory
contains itself.
-/

namespace ReleaseRecovery

namespace Markers

/-- Whether an entry is the marker directory. -/
def isDirectory (markers : Markers) (e : Entry) : Bool :=
  e.kind == .tree && e.name == markers.directory

/-- Whether an entry is the marker file. -/
def isFile (markers : Markers) (e : Entry) : Bool :=
  e.kind == .blob && e.name == markers.file

end Markers

variable {ρ : Type} [Repository ρ]

/-- Searches the directory at a path, with `room` for directories inside each other, and adds what
is found to a record. -/
def searchTree (repo : ρ) (markers : Markers) :
    Nat → TreeId → String → InstallRecord → Reading InstallRecord
  | 0, tree, _, _ => throw (.endlessTree tree)
  | room + 1, tree, path, record => do
    let entries ← Reading.entries repo tree
    match entries.find? markers.isDirectory with
    | some marker => return record.addFull markers path tree marker.id
    | none =>
      if entries.any markers.isFile then return record.addPartial path tree
      else
        (entries.filter (·.kind == .tree)).reverse.foldlM
          (fun record e =>
            searchTree repo markers room e.id (InstallRecord.subpath path e.name) record)
          record

/-- The installs of a commit. -/
def scan (repo : ρ) (markers : Markers) (id : CommitId) : Reading InstallRecord := do
  let commit ← Reading.commit repo id
  searchTree repo markers (Repository.depth repo) commit.tree "/" .empty

end ReleaseRecovery
