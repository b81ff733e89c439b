import ReleaseRecovery.Git.Commit
import ReleaseRecovery.Git.RefName
import ReleaseRecovery.Git.Tree

/-!
# Repositories of objects and refs

A store keeps objects by their id and refs by their full name. A ref points at an object or at
another ref.

## Main Definitions

* `Git.Store` — objects and refs
* `Git.Store.object?`, `Git.Store.find` — looking up objects
* `Git.Store.peel?` — the commit that an object leads to
* `Git.Store.createCommit` — making a commit

## Design Notes

Adding an object that is there changes nothing, so making a commit leaves everything that could be
looked up before as it was.
-/

namespace ReleaseRecovery.Git

/-- What a ref points at. -/
inductive RefTarget
  | object (id : Id)
  /-- Another ref, by its full name. -/
  | ref (name : String)
deriving DecidableEq

/-- Objects and refs. -/
structure Store where
  /-- The objects, by the digits of their ids. -/
  objects : SortedMap Object
  /-- The refs, by their full names. -/
  refs : SortedMap RefTarget
  /-- The files that hold neither an object nor a ref, by their paths, without those that every
  store has from the start. -/
  others : List String
  /-- The directories that were made for refs and hold none, by their paths. -/
  spare : List String
deriving DecidableEq

namespace Store

/-- A store without objects, in which `HEAD` stands for a branch that has no commit yet. -/
def fresh : Store := ⟨.empty, SortedMap.ofList [("HEAD", .ref "refs/heads/master")], [], []⟩

/-! ### Objects -/

/-- The path of the file of an object, by the digits of its id. -/
def objectPath (hex : String) : String :=
  "objects/" ++ String.ofList (hex.toList.take 2) ++ "/" ++ String.ofList (hex.toList.drop 2)

/-- Adds an object. -/
def add (s : Store) (o : Object) : Store :=
  if s.objects.contains o.id.hex then s
  else { s with objects := s.objects.insert o.id.hex o }

/-- The object with an id. The directory without entries is always there and is not looked for. -/
def object? (s : Store) (id : Id) : Option Object :=
  if id = emptyTree then some ⟨.tree, []⟩ else s.objects.get? id.hex

/-- Adding an object leaves the refs. -/
@[simp] theorem refs_add (s : Store) (added : Object) : (s.add added).refs = s.refs := by
  unfold add
  split <;> rfl

/-- Looks up an object of a kind and reads it. An object whose place another file has taken cannot
be read. Messages name the id as it was given. -/
def find {α : Type} (s : Store) (kind : ObjectKind) (read? : Bytes → Option α) (id : Id)
    (given : String) : Except Failure α :=
  match s.object? id with
  | none =>
    if s.others.contains (objectPath id.hex) then .error (.store ("reading " ++ given))
    else .error (.objectNotFound given)
  | some o =>
    if o.kind ≠ kind then .error (.objectNotFound given)
    else
      match read? o.content with
      | some a => .ok a
      | none => .error (.store ("reading " ++ given))

/-- Looks up a commit. -/
def findCommit (s : Store) (id : Id) (given : String) : Except Failure Commit :=
  s.find .commit Commit.decode? id given

/-- Looks up a directory. -/
def findTree (s : Store) (id : Id) (given : String) : Except Failure (List TreeEntry) :=
  s.find .tree TreeEntry.decodeAll? id given

/-- The id that a text stands for. -/
def parseId (given : String) : Except Failure Id :=
  match Id.ofText? given with
  | some id => .ok id
  | none => .error (.invalidObjectId given)

/-- Whether an object is a commit that can be read. -/
def isCommit (o : Object) : Bool := o.kind == .commit && (Commit.decode? o.content).isSome

/-- The commit that an object of some kind leads to through `room` notes at most. -/
def peelAs? (s : Store) : Nat → Option ObjectKind → Id → Option Id
  | 0, _, _ => none
  | room + 1, kind, id => do
    let o ← s.object? id
    if kind.any (· != o.kind) then none
    else if isCommit o then some id
    else if o.kind = .tag then
      let note ← Note.decode? o.content
      peelAs? s room (some note.kind) note.target
    else none

/-- The commit that an object leads to. -/
def peel? (s : Store) (id : Id) : Option Id := s.peelAs? (s.objects.size + 1) none id

/-! ### Making commits -/

/-- The times that a commit can be made at are counted modulo this number. -/
def timeModulus : Int := UInt32.size

/-- The object of a commit that is to be made. -/
def draft (s : Store) (c : NewCommit) : Except Failure Object := do
  let treeId ← parseId c.tree
  let parentId ← c.parent.mapM parseId
  match Signature.new? c.identity.name c.identity.email (c.time % timeModulus) with
  | none => throw (.store "building the synthetic signature")
  | some signature =>
    let _ ← s.findTree treeId c.tree
    match parentId, c.parent with
    | some p, some given => let _ ← s.findCommit p given
    | _, _ => pure ()
    if c.message.toList.contains '\x00' then throw (.store ("committing tree " ++ treeId.hex))
    let commit : Commit :=
      ⟨treeId, parentId.toList, signature, signature, Ascii.bytes c.message⟩
    return ⟨.commit, commit.encode 0 0⟩

/-- Makes a commit and tells its id. -/
def createCommit (s : Store) (c : NewCommit) : Except Failure CommitId × Store :=
  match s.draft c with
  | .ok o => (.ok o.id.hex, s.add o)
  | .error e => (.error e, s)

end Store

end ReleaseRecovery.Git
