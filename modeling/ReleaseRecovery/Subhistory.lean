import ReleaseRecovery.Install

/-!
# Subhistories

The contents that one copied directory went through, newest first, without repetition of a content
by the next one.

## Main Definitions

* `Subhistory` — contents, and where they meet the reference line
* `Subhistory.push` — one older content
* `Subhistory.gather` — the subhistories of a sequence of observed directories

## Main Statements

* `Subhistory.oldest_push` — the content that was added last is the oldest one
-/

namespace ReleaseRecovery

/-- The contents of one copied directory, newest first. -/
structure Subhistory where
  history : List TreeId
  /-- The commit of the reference line with the oldest content. -/
  branchedFrom : Option CommitId
  /-- The commit of the reference line with the newest content. -/
  mergedTo : Option CommitId
deriving DecidableEq

namespace Subhistory

/-- A subhistory before any content has been seen. -/
def empty : Subhistory := ⟨[], none, none⟩

instance : Inhabited Subhistory := ⟨empty⟩

/-- Appends an older content, unless it is the oldest one already. -/
def push (s : Subhistory) (tree : TreeId) : Subhistory :=
  if s.history.getLast? = some tree then s else { s with history := s.history ++ [tree] }

/-- The newest content. -/
def newest (s : Subhistory) : Option TreeId := s.history.head?

/-- The oldest content. -/
def oldest (s : Subhistory) : Option TreeId := s.history.getLast?

theorem history_push (s : Subhistory) (tree : TreeId) :
    (s.push tree).history =
      if s.history.getLast? = some tree then s.history else s.history ++ [tree] := by
  unfold push
  split <;> rfl

/-- The content that was added last is the oldest one. -/
@[simp] theorem oldest_push (s : Subhistory) (tree : TreeId) :
    (s.push tree).oldest = some tree := by
  rw [oldest, history_push]
  split
  · assumption
  · simp

/-- The subhistories of directories that were observed one after the other, by key. -/
def gather (observed : List (String × TreeId)) : SortedMap Subhistory :=
  observed.foldl (fun m o => m.insert o.1 (((m.get? o.1).getD empty).push o.2)) .empty

/-- Looks up where the contents meet the reference line. -/
def locate (trunk : SortedMap CommitId) (s : Subhistory) : Subhistory :=
  { s with
    branchedFrom := s.oldest.bind trunk.get?
    mergedTo := s.newest.bind trunk.get? }

end Subhistory

end ReleaseRecovery
