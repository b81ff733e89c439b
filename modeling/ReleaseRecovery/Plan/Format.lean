import ReleaseRecovery.CrossReference
import ReleaseRecovery.Index.Format

/-!
# Plans as JSON

## Main Definitions

* `Version.decode`, `UnresolvedReason.decode`, … — the parts of a plan
* `ReleasePlan.encode`, `ReleasePlan.decode` — plans
* `CrossReference.encode`, `CrossReference.decode` — subhistories and plan

## Design Notes

The reason of an unresolved release names its kind in a field of its own, which may stand anywhere;
the other fields have a meaning only then. So the fields are held in memory until all of them have
been read, and it is only then that they are taken apart.
-/

namespace ReleaseRecovery

open Json

/-! ### Versions and subhistories -/

/-- The JSON value of a version. -/
def Version.encode (v : Version) : Value := Value.ofString v.text

/-- The version that a JSON value stands for. -/
def Version.decode (t : Value) : Except Problem Version := do
  let name ← t.text
  required (Version.ofText? name)

namespace Subhistory

/-- The JSON value of a subhistory. -/
def encode (s : Subhistory) : Value :=
  Value.ofFields [("history", encodeNames s.history),
    ("branched_from", Value.ofString? s.branchedFrom), ("merged_to", Value.ofString? s.mergedTo)]

/-- The fields of a subhistory that have been read. -/
structure Fields where
  history : Option (List TreeId)
  branchedFrom : Option (Option CommitId)
  mergedTo : Option (Option CommitId)

/-- Reads one field of a subhistory. -/
def Fields.add (f : Fields) (key : String) (t : Value) : Except Problem Fields :=
  match key with
  | "history" => (once f.history (decodeNames t)).map fun v => { f with history := v }
  | "branched_from" => (once f.branchedFrom t.text?).map fun v => { f with branchedFrom := v }
  | "merged_to" => (once f.mergedTo t.text?).map fun v => { f with mergedTo := v }
  | _ => t.skip.map fun _ => f

/-- The subhistory that a JSON value stands for. -/
def decode : Value → Except Problem Subhistory
  | .object members => do
    let f ← members.walk Fields.add ⟨none, none, none⟩
    return ⟨← required f.history, f.branchedFrom.join, f.mergedTo.join⟩
  | .array items => do
    let (history, items) ← items.next decodeNames
    let (branchedFrom, items) ← items.next Value.text?
    let (mergedTo, items) ← items.next Value.text?
    items.finish
    return ⟨history, branchedFrom, mergedTo⟩
  | t => .error t.mismatch

end Subhistory

/-! ### Reasons -/

namespace UnresolvedReason

/-- The JSON value of a reason. -/
def encode : UnresolvedReason → Value
  | emptyHistory => Value.ofFields [("kind", Value.ofString "empty_history")]
  | noTrunkMatch distinct =>
    Value.ofFields [("kind", Value.ofString "no_trunk_match"), ("distinct", Value.ofNat distinct)]
  | conflictingSources sources =>
    Value.ofFields
      [("kind", Value.ofString "conflicting_sources"), ("sources", encodeNames sources)]

/-- What a reason is about. -/
inductive Kind
  | emptyHistory
  | noTrunkMatch
  | conflictingSources
deriving DecidableEq

/-- The kind that a JSON value stands for. -/
def Kind.decode (t : Value) : Except Problem Kind := do
  match ← t.text with
  | "empty_history" => return .emptyHistory
  | "no_trunk_match" => return .noTrunkMatch
  | "conflicting_sources" => return .conflictingSources
  | _ => throw .mismatch

/-- The natural number that a JSON value stands for. -/
def decodeCount : Value → Except Problem Nat
  | .number literal => required (word? literal)
  | t => .error t.mismatch

/-- The kind and the other fields that have been read, the last one first. -/
structure Fields where
  kind : Option Kind
  others : List (String × Value)

/-- Reads one field of a reason, with `room` for brackets in its value. -/
def Fields.add (room : Nat) (f : Fields) (key : String) (t : Value) : Except Problem Fields :=
  if key = "kind" then (once f.kind (Kind.decode t)).map fun v => { f with kind := v }
  else (t.hold room).map fun _ => { f with others := (key, t) :: f.others }

/-- The value of a field that has to be given exactly once. -/
def single (others : List (String × Value)) (key : String) : Except Problem Value :=
  match others.filter fun o => o.1 = key with
  | [o] => .ok o.2
  | _ => .error .mismatch

/-- The items of an array, each of which has room for brackets. -/
def holdItems (room : Nat) (items : Items) : Except Problem (List Value) :=
  items.decode fun t => (t.hold room).map fun _ => t

/-- The reason that a JSON value stands for, with `room` for brackets in it. -/
def decode (room : Nat) : Value → Except Problem UnresolvedReason
  | .object members => do
    let f ← members.walk (Fields.add (room - 1)) ⟨none, []⟩
    match ← required f.kind with
    | .emptyHistory => return emptyHistory
    | .noTrunkMatch => (single f.others "distinct" >>= decodeCount).map noTrunkMatch
    | .conflictingSources => (single f.others "sources" >>= decodeNames).map conflictingSources
  | .array items => do
    let (kind, items) ← items.next Kind.decode
    match kind, ← holdItems (room - 1) items with
    | .emptyHistory, [] => return emptyHistory
    | .noTrunkMatch, [t] => (decodeCount t).map noTrunkMatch
    | .conflictingSources, [t] => (decodeNames t).map conflictingSources
    | _, _ => throw .mismatch
  | t => .error t.mismatch

end UnresolvedReason

/-! ### Releases and plans -/

namespace PlannedRelease

/-- The JSON value of a planned release. -/
def encode (r : PlannedRelease) : Value :=
  Value.ofFields [("version", r.version.encode), ("source", Value.ofString r.source),
    ("tree_hash", Value.ofString r.tree), ("trunk_commit", Value.ofString? r.trunkCommit)]

/-- The fields of a planned release that have been read. -/
structure Fields where
  version : Option Version
  source : Option String
  tree : Option TreeId
  trunkCommit : Option (Option CommitId)

/-- Reads one field of a planned release. -/
def Fields.add (f : Fields) (key : String) (t : Value) : Except Problem Fields :=
  match key with
  | "version" => (once f.version (Version.decode t)).map fun v => { f with version := v }
  | "source" => (once f.source t.text).map fun v => { f with source := v }
  | "tree_hash" => (once f.tree t.text).map fun v => { f with tree := v }
  | "trunk_commit" => (once f.trunkCommit t.text?).map fun v => { f with trunkCommit := v }
  | _ => t.skip.map fun _ => f

/-- The planned release that a JSON value stands for. -/
def decode : Value → Except Problem PlannedRelease
  | .object members => do
    let f ← members.walk Fields.add ⟨none, none, none, none⟩
    return ⟨← required f.version, ← required f.source, ← required f.tree, f.trunkCommit.join⟩
  | .array items => do
    let (version, items) ← items.next Version.decode
    let (source, items) ← items.next Value.text
    let (tree, items) ← items.next Value.text
    let (trunkCommit, items) ← items.next Value.text?
    items.finish
    return ⟨version, source, tree, trunkCommit⟩
  | t => .error t.mismatch

end PlannedRelease

namespace UnresolvedRelease

/-- The JSON value of an unresolved release. -/
def encode (r : UnresolvedRelease) : Value :=
  Value.ofFields [("version", r.version.encode), ("source", Value.ofString r.source),
    ("reason", r.reason.encode), ("history", encodeNames r.history)]

/-- The fields of an unresolved release that have been read. -/
structure Fields where
  version : Option Version
  source : Option String
  reason : Option UnresolvedReason
  history : Option (List TreeId)

/-- Reads one field of an unresolved release, with `room` for brackets in its value. -/
def Fields.add (room : Nat) (f : Fields) (key : String) (t : Value) : Except Problem Fields :=
  match key with
  | "version" => (once f.version (Version.decode t)).map fun v => { f with version := v }
  | "source" => (once f.source t.text).map fun v => { f with source := v }
  | "reason" =>
    (once f.reason (UnresolvedReason.decode room t)).map fun v => { f with reason := v }
  | "history" => (once f.history (decodeNames t)).map fun v => { f with history := v }
  | _ => t.skip.map fun _ => f

/-- The unresolved release that a JSON value stands for, with `room` for brackets in it. -/
def decode (room : Nat) : Value → Except Problem UnresolvedRelease
  | .object members => do
    let f ← members.walk (Fields.add (room - 1)) ⟨none, none, none, none⟩
    return ⟨← required f.version, ← required f.source, ← required f.reason, ← required f.history⟩
  | .array items => do
    let (version, items) ← items.next Version.decode
    let (source, items) ← items.next Value.text
    let (reason, items) ← items.next (UnresolvedReason.decode (room - 1))
    let (history, items) ← items.next decodeNames
    items.finish
    return ⟨version, source, reason, history⟩
  | t => .error t.mismatch

end UnresolvedRelease

namespace ReleasePlan

/-- The JSON value of a plan. -/
def encode (p : ReleasePlan) : Value :=
  Value.ofFields [("releases", Value.ofItems (p.releases.map PlannedRelease.encode)),
    ("unresolved", Value.ofItems (p.unresolved.map UnresolvedRelease.encode))]

/-- The fields of a plan that have been read. -/
structure Fields where
  releases : Option (List PlannedRelease)
  unresolved : Option (List UnresolvedRelease)

/-- Reads one field of a plan, with `room` for brackets in its value. -/
def Fields.add (room : Nat) (f : Fields) (key : String) (t : Value) : Except Problem Fields :=
  match key with
  | "releases" =>
    (once f.releases (t.list PlannedRelease.decode)).map fun v => { f with releases := v }
  | "unresolved" =>
    (once f.unresolved (t.list (UnresolvedRelease.decode (room - 1)))).map fun v =>
      { f with unresolved := v }
  | _ => t.skip.map fun _ => f

/-- The plan that a JSON value stands for, with `room` for brackets in it. -/
def decode (room : Nat) : Value → Except Problem ReleasePlan
  | .object members => do
    let f ← members.walk (Fields.add (room - 1)) ⟨none, none⟩
    return ⟨← required f.releases, ← required f.unresolved⟩
  | .array items => do
    let (releases, items) ← items.next (Value.list PlannedRelease.decode)
    let (unresolved, items) ← items.next (Value.list (UnresolvedRelease.decode (room - 2)))
    items.finish
    return ⟨releases, unresolved⟩
  | t => .error t.mismatch

end ReleasePlan

namespace CrossReference

/-- The fields of subhistories and plan, as JSON values. -/
def fields (c : CrossReference) : List (String × Value) :=
  [("subhistories", c.subhistories.encode Subhistory.encode), ("release_history", c.plan.encode)]

/-- The JSON value of subhistories and plan. -/
def encode (c : CrossReference) : Value := Value.ofFields c.fields

/-- The fields of subhistories and plan that have been read. -/
structure Fields where
  subhistories : Option (SortedMap Subhistory)
  plan : Option ReleasePlan

/-- Reads one field of subhistories and plan, with `room` for brackets in its value. -/
def Fields.add (room : Nat) (f : Fields) (key : String) (t : Value) : Except Problem Fields :=
  match key with
  | "subhistories" =>
    (once f.subhistories (t.map Subhistory.decode)).map fun v => { f with subhistories := v }
  | "release_history" =>
    (once f.plan (ReleasePlan.decode room t)).map fun v => { f with plan := v }
  | _ => t.skip.map fun _ => f

/-- The subhistories and the plan that a JSON value stands for, with `room` for brackets in it. -/
def decode (room : Nat) : Value → Except Problem CrossReference
  | .object members => do
    let f ← members.walk (Fields.add (room - 1)) ⟨none, none⟩
    return ⟨← required f.subhistories, ← required f.plan⟩
  | .array items => do
    let (subhistories, items) ← items.next (Value.map Subhistory.decode)
    let (plan, items) ← items.next (ReleasePlan.decode (room - 1))
    items.finish
    return ⟨subhistories, plan⟩
  | t => .error t.mismatch

end CrossReference

end ReleaseRecovery
