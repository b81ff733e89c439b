import ReleaseRecovery.Failure
import ReleaseRecovery.Index.Format

/-!
# The index on disk

## Main Definitions

* `Snapshot.load` — the index that an earlier run has saved
* `Snapshot.save` — saving an index
* `Snapshot.writePlan` — writing a report

## Design Notes

A file that is not there means a first run, and gives an empty index; a file that cannot be read is
never taken for one. Both writes go through `Files.replace`.
-/

namespace ReleaseRecovery.Snapshot

/-- The index in a file. -/
def load (path : String) (files : Files) : Except Failure ContentIndex :=
  match files.read path with
  | .error .notFound => .ok .empty
  | .error cause => .error (.indexUnreadable cause)
  | .ok text =>
    match ContentIndex.ofText text with
    | .ok index => .ok index
    | .error cause => .error (.indexMalformed cause)

/-- What came of a write, with its cause as a failure. -/
def result (failure : FileError → Failure) : Except FileError Unit → Except Failure Unit
  | .ok _ => .ok ()
  | .error cause => .error (failure cause)

/-- Saves an index. -/
def save (path : String) (index : ContentIndex) (files : Files) : Except Failure Unit × Files :=
  let (written, files) := files.replace path index.text
  (result .indexUnwritable written, files)

/-- The text of a report: its JSON value, and a line break. -/
def planText (report : Json.Value) : Bytes := Json.render .indented report ++ [Ascii.newline]

/-- Writes a report. -/
def writePlan (path : String) (report : Json.Value) (files : Files) : Except Failure Unit × Files :=
  let (written, files) := files.replace path (planText report)
  (result .planUnwritable written, files)

end ReleaseRecovery.Snapshot
