import ReleaseRecovery.Git.Store

/-!
# The directory of a store

A store keeps every ref in a file whose path is the name of the ref. Beside these stand one file for
each object, the logs of refs, a few files and directories that every store has, and whatever else
has been put there.

## Main Definitions

* `Git.Store.files`, `Git.Store.directories` — all that stands in the directory, by path
* `Git.Store.holdsFile` — the files that are no refs
* `Git.Store.bars` — the names that cannot be looked for
* `Git.Store.isIntact` — whether the store can still be used
* `Git.Store.overwrite` — putting a file there that is neither a ref nor an object

## Design Notes

Only paths count here. They are needed where a name leads to no ref, to tell a ref that is missing
from a place that cannot be read: a name may lead to another file, and a part of it may be too long
for a directory that is there.
-/

namespace ReleaseRecovery.Git.Store

/-! ### Files -/

/-- The files that every store has, refs apart. -/
def firstFiles : List String := ["config", "description", "hooks/README.sample", "info/exclude"]

/-- The files whose contents decide whether a store can be opened and looked through. -/
def vitalFiles : List String := ["config", "commondir", "shallow", "info/grafts", "packed-refs"]

/-- Whether none of the files that a store depends on has been overwritten. -/
def isIntact (s : Store) : Bool := vitalFiles.all fun file => !s.others.contains file

/-- The files of a store. -/
def files (s : Store) : List String :=
  firstFiles ++ s.others ++ s.refs.keys ++ s.objects.keys.map objectPath

/-- Whether a file that is no ref stands at a path. -/
def holdsFile (s : Store) (path : String) : Bool :=
  (firstFiles ++ s.others).contains path ||
    RefName.isBelow "objects" path && (s.objects.keys.map objectPath).contains path

/-- The store after a file that is neither a ref nor an object has been put at a path. Whatever had
its place is lost. -/
def overwrite (s : Store) (path : String) : Store :=
  { s with
    objects := s.objects.filterKeys fun hex => objectPath hex != path
    refs := s.refs.filterKeys (· != path)
    others := if s.others.contains path then s.others else path :: s.others }

/-! ### Directories -/

/-- The directories of a store that holds nothing. -/
def firstDirectories : List String :=
  ["hooks", "info", "objects", "objects/info", "objects/pack", "refs", "refs/heads", "refs/tags"]

/-- The directories of a store, some of them more than once. -/
def directories (s : Store) : List String :=
  firstDirectories ++ s.spare.flatMap (fun d => RefName.directories d ++ [d]) ++
    s.files.flatMap RefName.directories

/-- Whether there is a directory at a path. The empty path is that of the top. -/
def hasDirectory (s : Store) (path : String) : Bool := path == "" || s.directories.contains path

/-- Whether a name cannot be looked for: the way to its place goes on from a directory that is there
to a part that is too long. -/
def bars (s : Store) (name : String) : Bool :=
  !(Path.parts name).all RefName.isShort && s.hasDirectory (RefName.reach name)

end ReleaseRecovery.Git.Store
