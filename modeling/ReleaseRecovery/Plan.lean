import ReleaseRecovery.Subhistory
import ReleaseRecovery.Version

/-!
# Release plans

Which commit or content each release is to be tagged with, and which releases are left for a person
to decide.

## Main Definitions

* `Resolution`, `resolve` — what one copy of a release comes to
* `PlannedRelease`, `UnresolvedRelease`, `ReleasePlan` — the plan
* `Copy`, `copies` — the copied directories that stand for a release
* `ReleasePlan.ofCopies`, `resolveReleases` — planning

## Design Notes

A version is planned as a whole: the copies that resolve have to agree. If they do, the first of
them is planned; if not, they are reported together and nothing is chosen. A copy that does not
resolve is reported in any case.
-/

namespace ReleaseRecovery

/-- Why a release is left for a person to decide. -/
inductive UnresolvedReason
  | emptyHistory
  /-- Several different contents, none of them on the reference line. -/
  | noTrunkMatch (distinct : Nat)
  /-- Copies of one release that come to different results. -/
  | conflictingSources (sources : List String)
deriving DecidableEq

/-- What one copy of a release comes to. -/
inductive Resolution
  /-- The content is that of a commit on the reference line. -/
  | trunk (tree : TreeId) (commit : CommitId)
  /-- The only content there ever was, which is not on the reference line. -/
  | synthesize (tree : TreeId)
  | unresolved (reason : UnresolvedReason)
deriving DecidableEq

/-- Resolves a copy: the newest of its contents that is on the reference line counts. -/
def resolve (history : List TreeId) (trunk : SortedMap CommitId) : Resolution :=
  match history.findSome? fun t => (trunk.get? t).map fun c => (t, c) with
  | some (tree, commit) => .trunk tree commit
  | none =>
    match history with
    | [] => .unresolved .emptyHistory
    | [only] => .synthesize only
    | many => .unresolved (.noTrunkMatch many.eraseDups.length)

/-- A release that can be tagged. Without a commit of the reference line, one is to be made for its
content. -/
structure PlannedRelease where
  version : Version
  source : String
  tree : TreeId
  trunkCommit : Option CommitId
deriving DecidableEq

/-- A release, or a copy of one, that is not tagged. -/
structure UnresolvedRelease where
  version : Version
  source : String
  reason : UnresolvedReason
  history : List TreeId
deriving DecidableEq

/-- The releases to be tagged, by ascending version, and those left to decide. -/
structure ReleasePlan where
  releases : List PlannedRelease
  unresolved : List UnresolvedRelease
deriving DecidableEq

instance : Inhabited ReleasePlan := ⟨⟨[], []⟩⟩

/-! ### Copies of one version -/

/-- A copied directory that stands for a release. -/
structure Copy where
  version : Version
  source : String
  history : List TreeId

/-- The copied directories that stand for a release, ascending by key. -/
def copies (subhistories : SortedMap Subhistory) : List Copy :=
  subhistories.entries.filterMap fun e =>
    (Version.ofSource? e.1).map fun v => ⟨v, e.1, e.2.history⟩

namespace Copy

/-- The release that a copy resolves to, if it does. -/
def planned? (trunk : SortedMap CommitId) (c : Copy) : Option PlannedRelease :=
  match resolve c.history trunk with
  | .trunk tree commit => some ⟨c.version, c.source, tree, some commit⟩
  | .synthesize tree => some ⟨c.version, c.source, tree, none⟩
  | .unresolved _ => none

/-- The report of a copy that does not resolve. -/
def unresolved? (trunk : SortedMap CommitId) (c : Copy) : Option UnresolvedRelease :=
  match resolve c.history trunk with
  | .unresolved reason => some ⟨c.version, c.source, reason, c.history⟩
  | _ => none

end Copy

/-- Whether two copies of a release come to the same result. -/
def PlannedRelease.agrees (a b : PlannedRelease) : Bool :=
  a.tree == b.tree && a.trunkCommit == b.trunkCommit

/-- The release that copies of one version come to, if they agree. -/
def agreed? : List PlannedRelease → Option PlannedRelease
  | [] => none
  | first :: rest => if rest.all first.agrees then some first else none

/-- The report of copies of one version that do not agree. -/
def conflict? : List PlannedRelease → Option UnresolvedRelease
  | [] => none
  | first :: rest =>
    if rest.all first.agrees then none
    else
      let all := first :: rest
      some ⟨first.version, first.source, .conflictingSources (all.map (·.source)),
        all.map (·.tree)⟩

/-! ### Planning -/

/-- The different versions in a list, ascending. -/
def ascendingVersions (vs : List Version) : List Version := Version.sort vs.eraseDups

/-- The order of the report: by version, and copies of one version by key. -/
def UnresolvedRelease.notAfter (a b : UnresolvedRelease) : Bool :=
  decide (a.version < b.version ∨ (a.version = b.version ∧ a.source ≤ b.source))

/-- Plans every version that has a copy. -/
def ReleasePlan.ofCopies (trunk : SortedMap CommitId) (cs : List Copy) : ReleasePlan :=
  let groups := (ascendingVersions (cs.map (·.version))).map fun v =>
    cs.filter fun c => decide (c.version = v)
  { releases := groups.filterMap fun g => agreed? (g.filterMap (Copy.planned? trunk))
    unresolved :=
      (groups.flatMap fun g =>
        g.filterMap (Copy.unresolved? trunk) ++
          (conflict? (g.filterMap (Copy.planned? trunk))).toList).mergeSort
        UnresolvedRelease.notAfter }

/-- Plans every release that a copied directory stands for. -/
def resolveReleases (subhistories : SortedMap Subhistory) (trunk : SortedMap CommitId) :
    ReleasePlan :=
  ReleasePlan.ofCopies trunk (copies subhistories)

end ReleaseRecovery
