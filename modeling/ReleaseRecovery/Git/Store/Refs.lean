import ReleaseRecovery.Git.Store.Directory

/-!
# Refs of a store

Following refs to the objects that they stand for, and adding refs.

## Main Definitions

* `Git.Store.lookUp` — what the ref with a full name points at
* `Git.Store.resolve`, `Git.Store.tip` — what a short name of a ref stands for
* `Git.Store.shortNames` — the names that refs are listed under
* `Git.Store.noteChange` — the logs of a change
* `Git.Store.writeRef` — pointing a ref at a commit

## Main Statements

* `Git.Store.lookUp_eq_ok_iff` — a look-up finds exactly the refs
* `Git.Store.get?_refs_writeRef` — no ref is lost or moved

## Design Notes

A ref that is there is never moved. An attempt to add a ref can fail half-way, with the directories
for its file made, or its log begun, and the file not written; they stay behind, and a later name
can lead there.
-/

namespace ReleaseRecovery.Git.Store

/-- Why a name leads to no object. -/
inductive NoObject
  | missing
  | broken
deriving DecidableEq

/-! ### Following -/

/-- What the ref with a full name points at. -/
def lookUp (s : Store) (name : String) : Except NoObject RefTarget :=
  match s.refs.get? name with
  | some target => .ok target
  | none => if s.holdsFile name || s.bars name then .error .broken else .error .missing

/-- A look-up finds exactly the refs. -/
theorem lookUp_eq_ok_iff {s : Store} {name : String} {target : RefTarget} :
    s.lookUp name = .ok target ↔ s.refs.get? name = some target := by
  cases hget : s.refs.get? name with
  | some t => simp [lookUp, hget]
  | none =>
    by_cases h : (s.holdsFile name || s.bars name) = true
    · simp only [lookUp, hget, if_pos h, reduceCtorEq]
    · simp only [lookUp, hget, if_neg h, reduceCtorEq]

/-- The object that a ref points at, through `room` further refs at most. -/
def follow (s : Store) : Nat → RefTarget → Except NoObject Id
  | _, .object id => .ok id
  | 0, .ref _ => .error .broken
  | room + 1, .ref name =>
    match s.lookUp name with
    | .ok target => s.follow room target
    | .error e => .error e

/-- The number of refs that are followed before a ref counts as broken. -/
def maxRefs : Nat := 5

/-- The object that a full name leads to. -/
def followName (s : Store) (name : String) : Except NoObject Id := do
  s.follow maxRefs (← s.lookUp name)

/-- The object that the first name leads to that is there; if none is there, what is wrong with the
last one. Names that no ref can have are passed over. -/
def firstOf (s : Store) : NoObject → List String → Except NoObject Id
  | last, [] => .error last
  | _, name :: rest =>
    if !RefName.isValid name then s.firstOf .broken rest
    else if !RefName.fits name then .error .broken
    else
      match s.followName name with
      | .error .missing => s.firstOf .missing rest
      | answer => answer

/-- The object that a short name stands for. -/
def resolve (s : Store) (name : String) : Except NoObject Id :=
  s.firstOf .missing (RefName.candidates name)

/-- The commit that a short name stands for. -/
def tip (s : Store) (name : String) : Except Failure Id :=
  match s.resolve name with
  | .error .missing => .error (.refNotFound name)
  | .error .broken => .error (.store ("resolving " ++ name))
  | .ok id =>
    match s.peel? id with
    | some commit => .ok commit
    | none => .error (.store ("resolving " ++ name))

/-- The commit that a ref points at, directly or not. -/
def pointsAt? (s : Store) : RefTarget → Option Id
  | .object id => s.peel? id
  | .ref name =>
    match s.followName name with
    | .ok id => s.peel? id
    | .error _ => none

/-! ### Listing -/

/-- The refs below `refs/`, with what they point at. -/
def listed (s : Store) : List (String × RefTarget) :=
  s.refs.entries.filter fun e => RefName.isBelow "refs" e.1

/-- The short names of the refs that point at an object and begin with a text, each once. -/
def shortNames (s : Store) (start : String) : List String :=
  let direct := s.listed.filter fun e => match e.2 with | .object _ => true | .ref _ => false
  let names := direct.map fun e => RefName.short e.1
  (SortedMap.ofList (names.map fun n => (n, ()))).keys.filter (·.startsWith start)

/-! ### Logs -/

/-- The path of the log of a ref. -/
def logPath (name : String) : String := "logs/" ++ name

/-- Whether the changes of a ref are logged: those of branches are, and those of every ref that has
a log. -/
def isLogged (s : Store) (name : String) : Bool :=
  s.others.contains (logPath name) || name == "HEAD" ||
    ["refs/heads", "refs/remotes", "refs/notes"].any (RefName.isBelow · name)

/-- The store once a ref has a log; none if a file on the way to its place, or one beyond it, does
not allow that. -/
def withLog? (s : Store) (name : String) : Option Store :=
  let path := logPath name
  if s.others.contains path then some s
  else if s.others.any fun file => RefName.isBelow file path || RefName.isBelow path file then none
  else some { s with others := path :: s.others }

/-- The name that a ref leads to in the end, through `room` further refs at most: that of a ref that
points at an object, or a name that no ref has. -/
def lastName? (s : Store) (room : Nat) (name : String) : Option String :=
  match s.lookUp name with
  | .ok (.object _) => some name
  | .ok (.ref next) =>
    match room with
    | 0 => none
    | room + 1 => s.lastName? room next
  | .error .missing => some name
  | .error .broken => none

/-- Notes a change of a ref in its log, and in that of `HEAD` if `HEAD` leads there: whether it
could be noted, and the store after that. -/
def noteChange (s : Store) (name : String) : Bool × Store :=
  if !s.isLogged name then (true, s)
  else
    match s.withLog? name with
    | none => (false, s)
    | some own =>
      match own.lastName? (maxRefs + 1) "HEAD" with
      | none => (false, own)
      | some last =>
        if last ≠ name then (true, own)
        else
          match own.withLog? "HEAD" with
          | none => (false, own)
          | some both => (true, both)

/-- A log is no ref. -/
theorem refs_withLog? {s logged : Store} {name : String} (h : s.withLog? name = some logged) :
    logged.refs = s.refs := by
  unfold withLog? at h
  dsimp only at h
  split at h
  · rw [← Option.some.inj h]
  · split at h
    · exact absurd h (by simp)
    · rw [← Option.some.inj h]

/-- What is noted in logs leaves the refs. -/
@[simp] theorem refs_noteChange (s : Store) (name : String) :
    (s.noteChange name).2.refs = s.refs := by
  unfold noteChange
  split
  · rfl
  · split
    · rfl
    · rename_i own hown
      split
      · exact refs_withLog? hown
      · split
        · exact refs_withLog? hown
        · split
          · exact refs_withLog? hown
          · rename_i both hboth
            exact (refs_withLog? hboth).trans (refs_withLog? hown)

/-! ### Adding -/

/-- The store without the empty directories at a path and below it. -/
def clear (s : Store) (path : String) : Store :=
  { s with spare := s.spare.filter fun d => d != path && !RefName.isBelow path d }

/-- The store with the way to the place of a ref made, and the place cleared. -/
def opened (s : Store) (name : String) : Store :=
  { s with spare := (s.clear name).spare.insert (RefName.reach name) }

/-- Whether the file of a ref can be written: its name is not too long for that, and no other
writing holds it. -/
def allows (s : Store) (name : String) : Bool :=
  RefName.canBeWritten name && !s.others.contains (name ++ ".lock")

/-- Adds a ref under a name that no ref has; fails if it cannot be done. A ref cannot stand where
others stand beyond it, nor beyond another one, and its change has to reach the logs first. -/
def addRef (s : Store) (name : String) (target : Id) (failure : Failure) :
    Except Failure RefUpdate × Store :=
  if s.files.any (RefName.isBelow · name) then (.error failure, s)
  else
    let cleared := s.clear name
    if cleared.files.any (RefName.isBelow name) then (.error failure, cleared)
    else
      let opened := s.opened name
      if !s.allows name then (.error failure, opened)
      else
        match opened.noteChange name with
        | (false, noted) => (.error failure, noted)
        | (true, noted) =>
          (.ok .created,
            { noted with refs := s.refs.insert name (.object target), spare := cleared.spare })

/-- Makes a ref stand for another one. Only `HEAD` has a log of such changes, and only if it then
stands for an object. -/
def addLink (s : Store) (name other : String) : Store :=
  let logged := if name = "HEAD" ∧ (s.followName other).isOk then s.withLog? name else none
  { logged.getD s with refs := s.refs.insert name (.ref other) }

/-- The name in normal form under which a ref has to be added so that it points at a commit; none if
it points there already. Messages name ref and commit as they were given. -/
def vacancy (s : Store) (name : String) (target : CommitId) :
    Except Failure (Option (String × Id)) := do
  let id ← parseId target
  match (RefName.normal? name).filter RefName.fits with
  | none => throw (.store ("looking up " ++ name))
  | some normal =>
    match s.lookUp normal with
    | .error .broken => throw (.store ("looking up " ++ name))
    | .error .missing =>
      let _ ← s.findCommit id target
      return some (normal, id)
    | .ok existing =>
      match s.pointsAt? existing with
      | none => throw (.store ("resolving " ++ name))
      | some current =>
        if current = id then return none
        else throw (.refConflict name current.hex target)

/-- Points a ref at a commit. A ref that is there is not moved. -/
def writeRef (s : Store) (name : String) (target : CommitId) : Except Failure RefUpdate × Store :=
  match s.vacancy name target with
  | .error e => (.error e, s)
  | .ok none => (.ok .unchanged, s)
  | .ok (some (normal, id)) => s.addRef normal id (.store ("creating " ++ name))

/-! ### What stays -/

/-- A name is vacant only if no ref has it. -/
theorem get?_refs_of_vacancy {s : Store} {name target normal : String} {id : Id}
    (h : s.vacancy name target = .ok (some (normal, id))) : s.refs.get? normal = none := by
  have hthrow {e : Failure} {o : Option (String × Id)} :
      (throw e : Except Failure (Option (String × Id))) ≠ .ok o := by
    simp [throw, throwThe, MonadExceptOf.throw]
  cases hid : parseId target with
  | error e => simp [vacancy, hid, bind, Except.bind] at h
  | ok given =>
    simp only [vacancy, hid, bind, Except.bind] at h
    split at h
    · exact absurd h hthrow
    · rename_i found _
      split at h
      · exact absurd h hthrow
      · rename_i hmissing
        cases hc : s.findCommit given target with
        | error e => simp [hc] at h
        | ok c =>
          simp only [hc, pure, Except.pure, Except.ok.injEq, Option.some.injEq,
            Prod.mk.injEq] at h
          rw [← h.1]
          cases hget : s.refs.get? found with
          | none => rfl
          | some t => rw [lookUp_eq_ok_iff.2 hget] at hmissing; simp at hmissing
      · split at h
        · exact absurd h hthrow
        · split at h
          · simp [pure, Except.pure] at h
          · exact absurd h hthrow

/-- Every other ref stays where it is when one is added. -/
theorem get?_refs_addRef (s : Store) (name : String) (target : Id) (failure : Failure)
    {key : String} (hne : key ≠ name) :
    (s.addRef name target failure).2.refs.get? key = s.refs.get? key := by
  unfold addRef
  split
  · rfl
  dsimp only
  split
  · rfl
  split
  · rfl
  split
  · rename_i noted h
    have hrefs := refs_noteChange (s.opened name) name
    rw [h] at hrefs
    exact congrArg (SortedMap.get? · key) hrefs
  · exact (SortedMap.get?_insert _ _ _ _).trans (if_neg hne)

/-- A ref that is there stays where it is, whatever is written. -/
theorem get?_refs_writeRef {s : Store} {key : String} {old : RefTarget}
    (hold : s.refs.get? key = some old) (name : String) (target : CommitId) :
    (s.writeRef name target).2.refs.get? key = some old := by
  unfold writeRef
  split
  · exact hold
  · exact hold
  · rename_i normal id h
    have hne : key ≠ normal := fun e => by
      rw [e, get?_refs_of_vacancy h] at hold
      exact absurd hold (by simp)
    rw [get?_refs_addRef s normal id _ hne, hold]

end ReleaseRecovery.Git.Store
