import ReleaseRecovery.Apply
import ReleaseRecovery.Instant
import ReleaseRecovery.Plan.Format

/-!
# Reports

What a run tells: the subhistories, the plan, and what was written if it was applied.

## Main Definitions

* `ApplyReport.encode` — what was written, as JSON
* `Report`, `Report.encode` — the whole report
-/

namespace ReleaseRecovery

open Json

/-- The JSON value of a truth value. -/
def Json.Value.ofBool (b : Bool) : Value := .bool b

/-- The JSON value of a ref that points at a commit. -/
def RefOutcome.encode (r : RefOutcome) : Value :=
  Value.ofFields [("name", Value.ofString r.name), ("commit", Value.ofString r.commit),
    ("created", Value.ofBool r.created)]

/-- The JSON value of a commit that was made for a release. -/
def SynthesizedRelease.encode (r : SynthesizedRelease) : Value :=
  Value.ofFields [("version", r.version.encode), ("commit", Value.ofString r.commit),
    ("tree_hash", Value.ofString r.tree), ("parent", Value.ofString? r.parent)]

/-- The JSON value of a release that was left out. -/
def SkippedRelease.encode (r : SkippedRelease) : Value :=
  Value.ofFields [("version", r.version.encode), ("source", Value.ofString r.source),
    ("tagged", Value.ofBool r.tagged)]

/-- The JSON value of what was written. -/
def ApplyReport.encode (r : ApplyReport) : Value :=
  Value.ofFields [("tags", Value.ofItems (r.tags.map RefOutcome.encode)),
    ("synthesized", Value.ofItems (r.synthesized.map SynthesizedRelease.encode)),
    ("legacy_branch", (r.legacyBranch.map RefOutcome.encode).getD .null),
    ("skipped", Value.ofItems (r.skipped.map SkippedRelease.encode))]

/-- What a run tells. -/
structure Report where
  reference : String
  crossReference : CrossReference
  /-- What was written, if the plan was applied. -/
  applied : Option ApplyReport
deriving DecidableEq

/-- The JSON value of a report that is made at some moment. -/
def Report.encode (r : Report) (now : Instant) : Value :=
  Value.ofFields ([("generated_at", Value.ofString now.text),
    ("reference", Value.ofString r.reference)] ++ r.crossReference.fields ++
    (r.applied.map fun a => ("applied", a.encode)).toList)

end ReleaseRecovery
