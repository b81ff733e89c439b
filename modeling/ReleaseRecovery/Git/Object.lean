import ReleaseRecovery.Git.Id

/-!
# Objects

Everything that a repository holds is an object: a kind and a content. An object is named by the
digest of both, so equal objects have one name.

## Main Definitions

* `Git.ObjectKind`, `Git.Object`
* `Git.Object.id` — the name of an object
* `Git.emptyTree` — the name of the directory without entries
-/

namespace ReleaseRecovery.Git

/-- What an object is. -/
inductive ObjectKind
  /-- The content of a file. -/
  | blob
  /-- A directory. -/
  | tree
  | commit
  /-- A note that names another object. -/
  | tag
deriving DecidableEq

/-- The word for a kind. -/
def ObjectKind.text : ObjectKind → String
  | .blob => "blob"
  | .tree => "tree"
  | .commit => "commit"
  | .tag => "tag"

/-- A kind and a content. -/
structure Object where
  kind : ObjectKind
  content : Bytes
deriving DecidableEq

/-- What an object is named for: its kind, its size and its content. -/
def Object.named (o : Object) : Bytes :=
  Ascii.bytes (o.kind.text ++ " " ++ Nat.repr o.content.length) ++ 0 :: o.content

/-- The name of an object. -/
def Object.id (o : Object) : Id := .ofDigest o.named

/-- The name of the directory without entries. Every repository has this directory. -/
def emptyTree : Id := Object.id ⟨.tree, []⟩

end ReleaseRecovery.Git
