import ReleaseRecovery.Failure
import ReleaseRecovery.Install

/-!
# Repositories

What the rest of the library needs from a version store: whether it can be opened, four questions
about what it holds, and three ways to add to it. Nothing that is there is ever changed.

## Main Definitions

* `Commit`, `Entry`, `NewCommit` — what a store holds and is given
* `Action` — one request to a store, one saving of the index, or one look at the request to stop
* `Repository` — a store
* `Interrupt` — when a run is asked to stop
* `Reading` — a calculation that asks questions

## Design Notes

A question has the same answer whenever it is answered, so an answer is a function of the store.
What was asked, and in which order, is written down as a list of actions, the last one first: a run
can be asked to stop at any moment, and a store can be out of reach at any moment, and moments are
told apart by what has been done so far. To look whether the run is asked to stop is an action, too,
so the request can come between two looks with nothing else in between.
-/

namespace ReleaseRecovery

/-- Who made a commit, and when, in seconds from the start of 1970. -/
structure Person where
  name : String
  email : String
  time : Int
deriving DecidableEq

/-- Name, address and time, as in the header of a commit. -/
def Person.text (p : Person) : String :=
  p.name ++ " <" ++ p.email ++ "> " ++ toString p.time

/-- A commit as a store answers it. -/
structure Commit where
  id : CommitId
  tree : TreeId
  parents : List CommitId
  author : Person
  committer : Person
  message : String
deriving DecidableEq

/-- Whether an entry of a directory is a directory. -/
inductive EntryKind
  | tree
  | blob
deriving DecidableEq

/-- One entry of a directory. -/
structure Entry where
  kind : EntryKind
  name : String
  id : String
deriving DecidableEq

/-- Who makes synthesized commits. -/
structure Identity where
  name : String
  email : String
deriving DecidableEq

/-- A commit to be made. Its maker is both author and committer. -/
structure NewCommit where
  tree : TreeId
  parent : Option CommitId
  message : String
  identity : Identity
  time : Int
deriving DecidableEq

/-- What came of pointing a ref at a commit. -/
inductive RefUpdate
  | created
  /-- The ref was there and points at the commit already. -/
  | unchanged
deriving DecidableEq

/-- One request to a store, whether it succeeds or not, one saving of the index, or one look at the
request to stop. -/
inductive Action
  | listRefs (start : String)
  | log (ref : String)
  | commit (id : CommitId)
  | entries (id : TreeId)
  | createCommit (tree : TreeId)
  | createTag (name : String)
  | createBranch (name : String)
  | save
  | poll
deriving DecidableEq

/-- Whether an action reads a directory. -/
def Action.readsTree : Action → Bool
  | .entries _ => true
  | _ => false

/-- The number of times that a directory was read. -/
def treeReads (done : List Action) : Nat := done.countP Action.readsTree

/-- A version store. -/
class Repository (ρ : Type) where
  /-- Whether the store can be opened. -/
  isSound : ρ → Bool
  /-- The names of the refs that begin with a text, ascending. -/
  listRefs : ρ → String → Except Failure (List String)
  /-- The commits of a ref, newest first. -/
  log : ρ → String → Except Failure (List CommitId)
  commit : ρ → CommitId → Except Failure Commit
  /-- The entries of a directory, in their stored order. -/
  entries : ρ → TreeId → Except Failure (List Entry)
  /-- As many directories as can stand inside each other if none contains itself. -/
  depth : ρ → Nat
  /-- Makes a commit. Like the next two, it tells what came of it and what the store is then. -/
  createCommit : ρ → NewCommit → Except Failure CommitId × ρ
  /-- Points a tag at a commit. -/
  createTag : ρ → String → CommitId → Except Failure RefUpdate × ρ
  /-- Points a branch at a commit. -/
  createBranch : ρ → String → CommitId → Except Failure RefUpdate × ρ
  /-- Why a question that is asked after the given actions is not answered, if it is not. -/
  outage : ρ → List Action → Option Failure := fun _ _ => none

/-! ### Interrupts -/

/-- When a run is asked to stop: whether the request stands once the given actions, the last one
first, have been done. A request is never taken back. -/
structure Interrupt where
  raised : List Action → Bool
  stays : ∀ action done, raised done = true → raised (action :: done) = true

namespace Interrupt

/-- The run is never asked to stop. -/
def never : Interrupt := ⟨fun _ => false, fun _ _ h => h⟩

/-- The run is asked to stop before it starts. -/
def always : Interrupt := ⟨fun _ => true, fun _ _ _ => rfl⟩

/-- The run is asked to stop right after the first action that equals the given one. -/
def after (action : Action) : Interrupt :=
  ⟨fun done => done.contains action, fun _ _ h => by
    rw [List.contains_cons, h, Bool.or_true]⟩

/-- The run is asked to stop when the index is saved for the given time, counted from one. -/
def atSave (count : Nat) : Interrupt :=
  ⟨fun done => decide (0 < count ∧ count ≤ done.count .save), fun _ _ h =>
    decide_eq_true ⟨(of_decide_eq_true h).1,
      Nat.le_trans (of_decide_eq_true h).2 List.count_le_count_cons⟩⟩

/-- The run is asked to stop by whichever of two requests comes first. -/
def either (a b : Interrupt) : Interrupt :=
  ⟨fun done => a.raised done || b.raised done, fun action done h => by
    simp only [Bool.or_eq_true] at h ⊢
    exact h.imp (a.stays action done) (b.stays action done)⟩

/-- The last thing that has been done is to look at the request to stop, and it stood. -/
def StopsAt (interrupt : Interrupt) (done : List Action) : Prop :=
  ∃ moment, done = .poll :: moment ∧ interrupt.raised moment = true

end Interrupt

/-! ### Asking -/

/-- A calculation that asks a store questions. -/
abbrev Reading := ExceptT Failure (StateM (List Action))

namespace Reading

variable {ρ α β : Type}

/-- Notes a question and takes its answer, if the store can be reached. -/
def ask [Repository ρ] (repo : ρ) (action : Action) (answer : Except Failure α) : Reading α :=
  ExceptT.mk fun done => ((Repository.outage repo done).elim answer .error, action :: done)

/-- What a calculation comes to after the given actions, and the actions after it. -/
def after (r : Reading α) (done : List Action) : Except Failure α × List Action :=
  Id.run (StateT.run (ExceptT.run r) done)

@[simp] theorem after_pure (a : α) (done : List Action) :
    (pure a : Reading α).after done = (.ok a, done) := rfl

@[simp] theorem after_throw (e : Failure) (done : List Action) :
    (throw e : Reading α).after done = (.error e, done) := rfl

@[simp] theorem after_ask [Repository ρ] (repo : ρ) (action : Action) (answer : Except Failure α)
    (done : List Action) : (ask repo action answer).after done =
      ((Repository.outage repo done).elim answer .error, action :: done) := rfl

/-- A failure ends a calculation; otherwise the rest goes on from the actions so far. -/
theorem after_bind (r : Reading α) (f : α → Reading β) (done : List Action) :
    (r >>= f).after done =
      match r.after done with
      | (.ok a, done) => (f a).after done
      | (.error e, done) => (.error e, done) := by
  simp only [after, ExceptT.run_bind, StateT.run_bind, Id.run_bind]
  generalize Id.run (StateT.run (ExceptT.run r) done) = x
  obtain ⟨(_ | _), _⟩ := x <;> rfl

variable [Repository ρ] (repo : ρ)

/-- The refs that begin with a text. -/
def listRefs (start : String) : Reading (List String) :=
  ask repo (.listRefs start) (Repository.listRefs repo start)

/-- The commits of a ref. -/
def log (ref : String) : Reading (List CommitId) :=
  ask repo (.log ref) (Repository.log repo ref)

/-- A commit. -/
def commit (id : CommitId) : Reading Commit :=
  ask repo (.commit id) (Repository.commit repo id)

/-- The entries of a directory. -/
def entries (id : TreeId) : Reading (List Entry) :=
  ask repo (.entries id) (Repository.entries repo id)

end Reading

end ReleaseRecovery
