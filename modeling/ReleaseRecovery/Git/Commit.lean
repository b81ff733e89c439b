import ReleaseRecovery.Git.Object
import ReleaseRecovery.Git.Signature

/-!
# Commits

A commit names a directory and the commits before it, says who wrote and who committed it, and
carries a message.

## Main Definitions

* `Git.Commit`, `Git.Commit.encode`, `Git.Commit.decode?`
* `Git.Link`, `Git.Link.decode?` — the part of a commit that a walk through the history needs

## Design Notes

A walk reads less of a commit than a look at it does. So it passes commits whose directory or author
cannot be read, and its own reading is kept apart.
-/

namespace ReleaseRecovery.Git

/-- A commit. -/
structure Commit where
  tree : Id
  parents : List Id
  author : Signature
  committer : Signature
  message : Bytes
deriving DecidableEq

namespace Commit

/-- A line of a field. -/
def line (field : String) (value : Bytes) : Bytes :=
  Ascii.bytes field ++ value ++ [Ascii.newline]

/-- The content of a commit whose author and committer are in the given time zones. -/
def encode (c : Commit) (authorZone committerZone : Int) : Bytes :=
  line "tree " c.tree.digits ++ c.parents.flatMap (fun p => line "parent " p.digits) ++
    line "author " (c.author.encode authorZone) ++
    line "committer " (c.committer.encode committerZone) ++ Ascii.newline :: c.message

/-- Passes over lines that name an author; none if one of them is malformed. -/
def skipAuthors? (s : Bytes) : Option Bytes :=
  if (Ascii.bytes "author ").isPrefixOf s then
    match _h : signatureLine? "author " s with
    | none => none
    | some (_, rest) => skipAuthors? rest
  else some s
termination_by s.length
decreasing_by exact length_signatureLine? _h

/-- What follows the first empty line. -/
def afterHeader (atLineStart : Bool) : Bytes → Bytes
  | [] => []
  | b :: rest =>
    if b = Ascii.newline then if atLineStart then rest else afterHeader true rest
    else afterHeader false rest

/-- The message that follows a header, without line breaks at its start. -/
def messageOf (s : Bytes) : Bytes := (untilZero (afterHeader true s)).dropWhile (· == Ascii.newline)

/-- Reads a commit. Of several authors the first one counts. -/
def decode? (s : Bytes) : Option Commit := do
  let (tree, s) ← idLine? "tree " s
  let (parents, s) := idLines "parent " s
  let (author, s) ← signatureLine? "author " s
  let s ← skipAuthors? s
  let (committer, s) ← signatureLine? "committer " s
  return ⟨tree, parents, author, committer, messageOf s⟩

end Commit

/-- What a walk needs of a commit. -/
structure Link where
  id : Id
  parents : List Id
  /-- When it was committed. -/
  time : Int
deriving DecidableEq

/-- Reads the link of a commit. The line of its directory is passed over unread. -/
def Link.decode? (id : Id) (s : Bytes) : Option Link :=
  if s.length < 46 then none
  else do
    let (parents, s) := idLines "parent " (s.drop 46)
    let s ← Commit.skipAuthors? s
    let (committer, _) ← signatureLine? "committer " s
    return ⟨id, parents, committer.time⟩

end ReleaseRecovery.Git
