import ReleaseRecovery.SortedMap

/-!
# Installs

Where copies of the project live inside one commit. A copy is recognised by its markers: a directory
that contains the marker directory is a full install, and a directory that contains the marker file
is a copy of the marker directory alone.

## Main Definitions

* `CommitId`, `TreeId` — names of commits and of directory contents
* `Markers` — the names that give a copy away
* `InstallRecord` — the installs of one commit, by path

## Design Notes

Paths start with a slash and every directory name in them is followed by one: the top directory is
`/`, and a directory below it is `/tags/`.
-/

namespace ReleaseRecovery

/-- The name of a commit. -/
abbrev CommitId := String

/-- The name of the contents of a directory. -/
abbrev TreeId := String

/-- The names by which a copy of the project is recognised. -/
structure Markers where
  directory : String
  file : String
deriving DecidableEq

/-- The installs of one commit. -/
structure InstallRecord where
  /-- Directories that directly contain the marker directory, with their contents. -/
  full : SortedMap TreeId
  /-- Marker directories, inside a full install or copied on their own, with their contents. -/
  partly : SortedMap TreeId
deriving DecidableEq

namespace InstallRecord

/-- No installs. -/
def empty : InstallRecord := ⟨.empty, .empty⟩

instance : Inhabited InstallRecord := ⟨empty⟩

/-- The contents of a full install in the top directory. -/
def root? (r : InstallRecord) : Option TreeId := r.full.get? "/"

/-- The path of a directory inside another one. -/
def subpath (path name : String) : String := path ++ name ++ "/"

/-- Records a full install together with the marker directory inside it. -/
def addFull (r : InstallRecord) (markers : Markers) (path : String) (tree marker : TreeId) :
    InstallRecord :=
  ⟨r.full.insert path tree, r.partly.insert (subpath path markers.directory) marker⟩

/-- Records a copy of the marker directory. -/
def addPartial (r : InstallRecord) (path : String) (tree : TreeId) : InstallRecord :=
  ⟨r.full, r.partly.insert path tree⟩

end InstallRecord

end ReleaseRecovery
