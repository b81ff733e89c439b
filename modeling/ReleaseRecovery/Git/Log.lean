import ReleaseRecovery.Git.Store.Refs
import ReleaseRecovery.Heap

/-!
# Logs

The log of a ref: all commits that its commit leads to, newest first by the time of committing,
even where a commit claims to be older than the one before it.

## Main Definitions

* `Git.Store.reachable?` — the commits that a commit leads to
* `Git.Store.log` — the log of a ref

## Design Notes

The commits are found through a queue that is itself kept newest first, and then leave a heap. The
order in which they are found matters only for commits of the same time.
-/

namespace ReleaseRecovery.Git.Store

/-- Whether one commit is newer than another. -/
def isNewer (a b : Link) : Bool := b.time < a.time

/-- The link of a commit. -/
def link? (s : Store) (id : Id) : Option Link := do
  let o ← s.object? id
  if o.kind = .commit then Link.decode? id o.content else none

/-- Puts a commit into a queue, before the first one that is older. -/
def enqueue (c : Link) : List Link → List Link
  | [] => [c]
  | d :: rest => if isNewer c d then c :: d :: rest else d :: enqueue c rest

/-- The commits that wait to be followed, and all that have ever waited. -/
structure Frontier where
  waiting : List Link
  seen : List Id

/-- Adds a commit that has not been seen before. -/
def Frontier.add? (s : Store) (f : Frontier) (id : Id) : Option Frontier := do
  let c ← s.link? id
  if f.seen.contains id then return f else return ⟨enqueue c f.waiting, id :: f.seen⟩

/-- Follows the commits that wait and those that they lead to, `room` of them at most; none if one
of them is missing. -/
def gather? (s : Store) : Nat → Frontier → Option (List Link)
  | 0, _ => some []
  | room + 1, f =>
    match f.waiting with
    | [] => some []
    | c :: rest => do
      let f ← c.parents.foldlM (Frontier.add? s) ⟨rest, f.seen⟩
      return c :: (← s.gather? room f)

/-- The commits that a commit leads to, itself included. No commit is followed twice, so the number
of objects is room enough. -/
def reachable? (s : Store) (id : Id) : Option (List Link) := do
  s.gather? (s.objects.size + 1) (← Frontier.add? s ⟨[], []⟩ id)

/-- The log of a ref. -/
def log (s : Store) (ref : String) : Except Failure (List CommitId) := do
  let start ← s.tip ref
  match s.reachable? start with
  | some links => return (Heap.sorted isNewer links).map fun c => c.id.hex
  | none => throw (.store ("walking " ++ ref))

/-! ### The store as a repository -/

/-- Who did something, as text. -/
def person (s : Signature) : Person :=
  ⟨Utf8.decodeLossy s.name, Utf8.decodeLossy s.email, s.time⟩

/-- A commit, as text. -/
def commit (s : Store) (given : CommitId) : Except Failure ReleaseRecovery.Commit := do
  let c ← s.findCommit (← parseId given) given
  return ⟨given, c.tree.hex, c.parents.map Id.hex, person c.author, person c.committer,
    Utf8.decodeLossy c.message⟩

/-- The entries of a directory, as text. -/
def entries (s : Store) (given : TreeId) : Except Failure (List Entry) := do
  let l ← s.findTree (← parseId given) given
  return l.filterMap TreeEntry.answer?

instance : Repository Store where
  isSound := isIntact
  listRefs s start := .ok (s.shortNames start)
  log := log
  commit := commit
  entries := entries
  depth s := s.objects.size + 2
  createCommit := createCommit
  createTag s name target := s.writeRef ("refs/tags/" ++ name) target
  createBranch s name target := s.writeRef ("refs/heads/" ++ name) target

end ReleaseRecovery.Git.Store
