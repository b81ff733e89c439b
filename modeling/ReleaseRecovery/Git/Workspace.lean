import ReleaseRecovery.Git.Log
import ReleaseRecovery.Program

/-!
# A store among other files

The files of a store stand in a directory like any others, so a path that the program is given can
lead to them. Before the program starts, they are put among the files around it, by their paths;
when it has ended, whatever it has written there is taken into the store.

## Main Definitions

* `Git.Workspace` — a store and the files around it
* `Git.Workspace.spread` — with the files of the store among the others
* `Git.Workspace.collect` — with what has been written there in the store
* `Git.Workspace.perform` — the program

## Design Notes

The program writes no empty file, so a file of the store, whose contents do not matter here, is told
apart by being empty.
-/

namespace ReleaseRecovery.Git

/-- A store and the files around it. -/
abbrev Workspace := Surroundings Store

namespace Workspace

/-- Puts a file or a directory at a path of the store, unless there is something. -/
def putOwn (w : Workspace) (node : FileNode) (path : String) : Workspace :=
  let names := w.home ++ Path.parts path
  if (w.files.node? names).isSome then w else { w with files := w.files.put names node }

/-- The workspace with the files of the store among the others. -/
def spread (w : Workspace) : Workspace :=
  let inDirectories := w.repo.directories.foldl (putOwn · .directory) w
  w.repo.files.foldl (putOwn · (.file [])) inDirectories

/-- The paths in the store that something has been written to. -/
def written (w : Workspace) : List String :=
  w.files.nodes.entries.filterMap fun (key, node) =>
    match node with
    | .file (_ :: _) => RefName.after? (Files.key w.home ++ "/") key
    | _ => none

/-- The workspace with what has been written to the store in it, and without the other files of the
store among those around it. -/
def collect (w : Workspace) : Workspace :=
  let home := Files.key w.home
  let kept := w.written.map (home ++ "/" ++ ·)
  let isKept (key : String) : Bool := !RefName.isBelow home key || kept.contains key
  { w with
    repo := w.written.foldl Store.overwrite w.repo
    files := { w.files with nodes := w.files.nodes.filterKeys isKept } }

/-- What the program comes to in a workspace. -/
def perform (w : Workspace) (arguments : List String) (now : Instant) : Ending Store :=
  let ending := program arguments .never now w.spread
  { ending with surroundings := collect ending.surroundings }

end Workspace

end ReleaseRecovery.Git
