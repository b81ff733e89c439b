import ReleaseRecovery.Install

/-!
# The content index

What is kept between runs: the history of every ref, and the installs of every commit that has been
looked at.

## Main Definitions

* `BranchHistory` — the commits of one ref, newest first
* `ContentIndex` — histories and install records
* `ContentIndex.setHistories` — taking over fresh histories
* `ContentIndex.unscanned` — the commits that still have to be looked at
-/

namespace ReleaseRecovery

/-- The commits of one ref, newest first. -/
structure BranchHistory where
  refName : String
  commits : List CommitId
deriving DecidableEq

/-- The histories of all refs, and the installs of the commits that have been looked at. -/
structure ContentIndex where
  histories : SortedMap (List CommitId)
  records : SortedMap InstallRecord
deriving DecidableEq

/-- The different members of a list of strings, ascending. -/
def ascendingDistinct (l : List String) : List String :=
  (SortedMap.ofList (l.map fun s => (s, ()))).keys

namespace ContentIndex

/-- An index without histories and records. -/
def empty : ContentIndex := ⟨.empty, .empty⟩

instance : Inhabited ContentIndex := ⟨empty⟩

/-- The commits that the histories mention, ref by ref. -/
def mentioned (index : ContentIndex) : List CommitId := index.histories.values.flatten

/-- Replaces all histories. Records of commits that no history mentions any more are dropped. -/
def setHistories (index : ContentIndex) (histories : SortedMap BranchHistory) : ContentIndex :=
  let fresh : ContentIndex := ⟨histories.mapValues BranchHistory.commits, index.records⟩
  let mentioned := fresh.mentioned
  { fresh with records := index.records.filterKeys mentioned.contains }

/-- The number of records that new histories drop. -/
def droppedBy (index : ContentIndex) (histories : SortedMap BranchHistory) : Nat :=
  index.records.size - (index.setHistories histories).records.size

/-- The commits that a history mentions and that have no record, ascending. -/
def unscanned (index : ContentIndex) : List CommitId :=
  ascendingDistinct (index.mentioned.filter fun c => !index.records.contains c)

/-- The number of different commits that the histories mention. -/
def uniqueCommits (index : ContentIndex) : Nat := (ascendingDistinct index.mentioned).length

/-- Adds the record of a commit. -/
def addRecord (index : ContentIndex) (commit : CommitId) (record : InstallRecord) : ContentIndex :=
  { index with records := index.records.insert commit record }

/-- The contents of a full install in the top directory of a commit. -/
def root? (index : ContentIndex) (commit : CommitId) : Option TreeId :=
  (index.records.get? commit).bind InstallRecord.root?

end ContentIndex

end ReleaseRecovery
