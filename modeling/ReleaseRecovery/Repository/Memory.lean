import ReleaseRecovery.Repository

/-!
# A store in memory

A store that is given by what it answers. Made commits are numbered, and refs are kept in a map.

## Main Definitions

* `Memory` — logs, commits and directories, and what has been written
* `Memory.writeRef` — pointing a ref at a commit

## Main Statements

* `Memory.get?_refs_writeRef` — what a write does to every ref
* `Memory.writeRef_eq_error_iff` — a write fails exactly where the ref points elsewhere
-/

namespace ReleaseRecovery

/-- A commit that has been made. -/
structure WrittenCommit where
  id : CommitId
  content : NewCommit
deriving DecidableEq

/-- A store that is given by what it answers. -/
structure Memory where
  logs : SortedMap (List CommitId)
  /-- The top directory of each commit. -/
  commits : SortedMap TreeId
  trees : SortedMap (List Entry)
  /-- The commits that have been made, oldest first. -/
  written : List WrittenCommit
  /-- The refs that have been written, by full name. -/
  refs : SortedMap CommitId
deriving DecidableEq

namespace Memory

/-- A store without content. -/
def empty : Memory := ⟨.empty, .empty, .empty, [], .empty⟩

/-- The maker of every commit that was there from the start. -/
def importer : Person := ⟨"Importer", "importer@example.com", 0⟩

/-- The answer for a name that is not there. -/
def lookUp {α : Type} (missing : String → Failure) (m : SortedMap α) (key : String) :
    Except Failure α :=
  match m.get? key with
  | some a => .ok a
  | none => .error (missing key)

/-- A commit that was there from the start. -/
def commit (m : Memory) (id : CommitId) : Except Failure Commit :=
  (lookUp .objectNotFound m.commits id).map fun tree => ⟨id, tree, [], importer, importer, ""⟩

/-- Makes a commit, numbered in the order of making. -/
def createCommit (m : Memory) (c : NewCommit) : CommitId × Memory :=
  let id := "S" ++ Nat.repr (m.written.length + 1)
  (id, { m with written := m.written ++ [⟨id, c⟩] })

/-- Points a ref at a commit. A ref that is there is not moved. -/
def writeRef (m : Memory) (name : String) (target : CommitId) :
    Except Failure RefUpdate × Memory :=
  match m.refs.get? name with
  | some existing =>
    (if existing = target then .ok .unchanged else .error (.refConflict name existing target), m)
  | none => (.ok .created, { m with refs := m.refs.insert name target })

/-- A ref that has been written is where it was asked to be, and every other ref is where it was. -/
theorem get?_refs_writeRef {m : Memory} {name : String} {target : CommitId} {u : RefUpdate}
    (h : (m.writeRef name target).1 = .ok u) (key : String) :
    (m.writeRef name target).2.refs.get? key =
      if key = name then some target else m.refs.get? key := by
  unfold writeRef at h ⊢
  cases hget : m.refs.get? name with
  | none => exact SortedMap.get?_insert _ _ _ _
  | some existing =>
    by_cases he : existing = target
    · by_cases hk : key = name
      · simp [hk, hget, he]
      · simp [hk]
    · simp [hget, he] at h

/-- A ref can be written unless it points elsewhere. -/
theorem writeRef_eq_error_iff {m : Memory} {name : String} {target : CommitId} {e : Failure} :
    (m.writeRef name target).1 = .error e ↔
      ∃ existing, m.refs.get? name = some existing ∧ existing ≠ target ∧
        e = .refConflict name existing target := by
  unfold writeRef
  cases hget : m.refs.get? name with
  | none => simp
  | some existing =>
    by_cases he : existing = target
    · simp [he]
    · simp only [he, if_false, Except.error.injEq, Option.some.injEq]
      exact ⟨fun h => ⟨existing, rfl, he, h.symm⟩, fun ⟨_, h, _, h'⟩ => by rw [h', h]⟩

instance : Repository Memory where
  isSound _ := true
  listRefs m start := .ok (m.logs.keys.filter (·.startsWith start))
  log m ref := lookUp .refNotFound m.logs ref
  commit := commit
  entries m id := lookUp .objectNotFound m.trees id
  depth m := m.trees.size + 1
  createCommit m c := (.ok (m.createCommit c).1, (m.createCommit c).2)
  createTag m name target := m.writeRef ("refs/tags/" ++ name) target
  createBranch m name target := m.writeRef ("refs/heads/" ++ name) target

end Memory

end ReleaseRecovery
