import ReleaseRecovery.Index
import ReleaseRecovery.Json.Decode

/-!
# The index as JSON

## Main Definitions

* `InstallRecord.encode`, `InstallRecord.decode` — install records
* `ContentIndex.encode`, `ContentIndex.decode` — the whole index
* `ContentIndex.text`, `ContentIndex.ofText` — the text that is saved and loaded
-/

namespace ReleaseRecovery

open Json

/-- The JSON value of a map. -/
def SortedMap.encode {α : Type} (value : α → Value) (m : SortedMap α) : Value :=
  Value.ofFields (m.entries.map fun e => (e.1, value e.2))

/-- The JSON value of a list of names. -/
def encodeNames (l : List String) : Value := Value.ofItems (l.map Value.ofString)

/-- The list of names that a JSON value stands for. -/
def decodeNames : Value → Except Problem (List String) := Value.list Value.text

namespace InstallRecord

/-- The JSON value of a record. -/
def encode (r : InstallRecord) : Value :=
  Value.ofFields
    [("full", r.full.encode Value.ofString), ("partial", r.partly.encode Value.ofString)]

/-- The fields of a record that have been read. -/
structure Fields where
  full : Option (SortedMap TreeId)
  partly : Option (SortedMap TreeId)

/-- Reads one field of a record. -/
def Fields.add (f : Fields) (key : String) (t : Value) : Except Problem Fields :=
  match key with
  | "full" => (once f.full (t.map Value.text)).map fun v => { f with full := v }
  | "partial" => (once f.partly (t.map Value.text)).map fun v => { f with partly := v }
  | _ => t.skip.map fun _ => f

/-- The record that a JSON value stands for. -/
def decode : Value → Except Problem InstallRecord
  | .object members => do
    let f ← members.walk Fields.add ⟨none, none⟩
    return ⟨← required f.full, ← required f.partly⟩
  | .array items => do
    let (full, items) ← items.next (Value.map Value.text)
    let (partly, items) ← items.next (Value.map Value.text)
    items.finish
    return ⟨full, partly⟩
  | t => .error t.mismatch

end InstallRecord

namespace ContentIndex

/-- The JSON value of an index. -/
def encode (index : ContentIndex) : Value :=
  Value.ofFields [("branch_history", index.histories.encode encodeNames),
    ("commit_trees", index.records.encode InstallRecord.encode)]

/-- The fields of an index that have been read. -/
structure Fields where
  histories : Option (SortedMap (List CommitId))
  records : Option (SortedMap InstallRecord)

/-- Reads one field of an index. -/
def Fields.add (f : Fields) (key : String) (t : Value) : Except Problem Fields :=
  match key with
  | "branch_history" =>
    (once f.histories (t.map decodeNames)).map fun v => { f with histories := v }
  | "commit_trees" =>
    (once f.records (t.map InstallRecord.decode)).map fun v => { f with records := v }
  | _ => t.skip.map fun _ => f

/-- The index that a JSON value stands for. -/
def decode : Value → Except Problem ContentIndex
  | .object members => do
    let f ← members.walk Fields.add ⟨none, none⟩
    return ⟨← required f.histories, ← required f.records⟩
  | .array items => do
    let (histories, items) ← items.next (Value.map decodeNames)
    let (records, items) ← items.next (Value.map InstallRecord.decode)
    items.finish
    return ⟨histories, records⟩
  | t => .error t.mismatch

/-- The text of an index. -/
def text (index : ContentIndex) : Bytes := Json.render .indented index.encode

/-- The index in a text. -/
def ofText (text : Bytes) : Except Problem ContentIndex := Json.decode decode text

end ContentIndex

end ReleaseRecovery
