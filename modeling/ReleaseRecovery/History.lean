import ReleaseRecovery.Index
import ReleaseRecovery.Repository

/-!
# Collecting histories

The history of every ref that is looked at. The reference line is followed to its end; any other
ref is followed up to the first commit that is on the reference line.

## Main Definitions

* `upTo` — the beginning of a list, up to the first member that is wanted
* `history` — the history of one ref
* `Layout` — which refs are looked at
* `collect` — the histories of all of them

## Main Statements

* `upTo_isPrefix` — nothing is left out before the end
-/

namespace ReleaseRecovery

/-- Which refs are looked at, and which of them is the reference line. -/
structure Layout where
  /-- What the names of the refs begin with. -/
  start : String
  reference : String
deriving DecidableEq

/-- The members of a list up to the first that passes a test, that one included. -/
def upTo {α : Type} (stop : α → Bool) : List α → List α
  | [] => []
  | a :: rest => if stop a then [a] else a :: upTo stop rest

theorem upTo_isPrefix {α : Type} (stop : α → Bool) (l : List α) : upTo stop l <+: l := by
  induction l with
  | nil => exact List.prefix_rfl
  | cons a rest ih =>
    simp only [upTo]
    split
    · exact List.prefix_iff_eq_append.2 rfl
    · exact (List.prefix_cons_inj a).2 ih

/-- The first of every member of a log up to the first terminator. -/
def truncated (terminators log : List CommitId) : List CommitId :=
  (upTo terminators.contains log).eraseDups

variable {ρ : Type} [Repository ρ]

/-- The history of a ref, which ends at the first terminator. -/
def history (repo : ρ) (terminators : List CommitId) (ref : String) : Reading BranchHistory := do
  let log ← Reading.log repo ref
  return ⟨ref, truncated terminators log⟩

/-- The histories of the reference line and of all refs whose names begin as the layout says. -/
def collect (repo : ρ) (layout : Layout) : Reading (SortedMap BranchHistory) := do
  let reference ← history repo [] layout.reference
  let names ← Reading.listRefs repo layout.start
  let others ← (names.filter (· != layout.reference)).mapM (history repo reference.commits)
  return (SortedMap.ofList (others.map fun h => (h.refName, h))).insert layout.reference reference

end ReleaseRecovery
