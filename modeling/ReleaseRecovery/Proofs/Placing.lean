import ReleaseRecovery.Repository.Memory

/-!
# Placing refs

A ref is placed by adding it, unless it is there already. A ref that points elsewhere is not moved,
so a ref that was placed stays where it is, whatever is placed after it.

## Main Definitions

* `place` — one ref is pointed at a commit
* `KeepsRefs` — no ref is lost or moved
* `PlacesRefs` — a store writes refs by placing them

## Main Statements

* `keepsRefs_place` — a ref that is there stays
* `get?_place` — a ref that could be placed points where it was to point
* `Memory.placesRefs` — a store in memory places its refs
-/

namespace ReleaseRecovery

variable {refs : SortedMap CommitId} {name key : String} {target c : CommitId}

/-- Points a ref at a commit, among the refs that are there. A ref that is there is not moved. -/
def place (refs : SortedMap CommitId) (name : String) (target : CommitId) :
    Except Failure RefUpdate × SortedMap CommitId :=
  match refs.get? name with
  | some existing =>
    (if existing = target then .ok .unchanged else .error (.refConflict name existing target), refs)
  | none => (.ok .created, refs.insert name target)

theorem place_of_some (h : refs.get? name = some target) :
    place refs name target = (.ok .unchanged, refs) := by
  unfold place
  rw [h]
  dsimp only
  rw [if_pos rfl]

theorem place_of_ne {existing : CommitId} (h : refs.get? name = some existing)
    (hne : existing ≠ target) :
    place refs name target = (.error (.refConflict name existing target), refs) := by
  unfold place
  rw [h]
  dsimp only
  rw [if_neg hne]

theorem place_of_none (h : refs.get? name = none) :
    place refs name target = (.ok .created, refs.insert name target) := by
  unfold place
  rw [h]

/-- All refs that were there are still there, and point where they did. -/
def KeepsRefs (old new : SortedMap CommitId) : Prop :=
  ∀ name c, old.get? name = some c → new.get? name = some c

theorem KeepsRefs.refl (refs : SortedMap CommitId) : KeepsRefs refs refs := fun _ _ h => h

theorem KeepsRefs.trans {a b c : SortedMap CommitId} (h : KeepsRefs a b) (h' : KeepsRefs b c) :
    KeepsRefs a c := fun name target ht => h' name target (h name target ht)

/-- A ref that is there stays, whatever is placed. -/
theorem keepsRefs_place (refs : SortedMap CommitId) (name : String) (target : CommitId) :
    KeepsRefs refs (place refs name target).2 := by
  intro key c hc
  unfold place
  cases hget : refs.get? name with
  | some existing => exact hc
  | none =>
    have hne : key ≠ name := by
      rintro rfl
      rw [hget] at hc
      cases hc
    rw [SortedMap.get?_insert, if_neg hne]
    exact hc

/-- Every ref that is there after one has been placed was there before, or is that one. -/
theorem get?_or_eq_of_place (h : (place refs name target).2.get? key = some c) :
    refs.get? key = some c ∨ key = name := by
  cases hget : refs.get? name with
  | some existing =>
    unfold place at h
    rw [hget] at h
    exact .inl h
  | none =>
    rw [place_of_none hget, SortedMap.get?_insert] at h
    split at h
    · rename_i heq
      exact .inr heq
    · exact .inl h

/-- A ref that could be placed points where it was to point. It is new only if it was not there. -/
theorem get?_place {u : RefUpdate} (h : (place refs name target).1 = .ok u) :
    (place refs name target).2.get? name = some target ∧
      (u = .created → refs.get? name = none) := by
  cases hget : refs.get? name with
  | none =>
    rw [place_of_none hget, SortedMap.get?_insert, if_pos rfl]
    exact ⟨rfl, fun _ => rfl⟩
  | some existing =>
    by_cases he : existing = target
    · subst he
      rw [place_of_some hget] at h ⊢
      cases h
      exact ⟨hget, nofun⟩
    · rw [place_of_ne hget he] at h
      cases h

/-- A ref that cannot be placed leaves the refs as they were. -/
theorem place_of_error {e : Failure} (h : (place refs name target).1 = .error e) :
    place refs name target = (.error e, refs) := by
  refine Prod.ext h ?_
  unfold place at h ⊢
  cases hget : refs.get? name with
  | none =>
    rw [hget] at h
    cases h
  | some existing => rfl

/-! ### Stores -/

/-- A store writes a ref by placing it among those that it has, and makes commits without touching
any ref. -/
structure PlacesRefs {ρ : Type} [Repository ρ] (refs : ρ → SortedMap CommitId) : Prop where
  createCommit : ∀ store c, refs (Repository.createCommit store c).2 = refs store
  createTag : ∀ store name target,
    ((Repository.createTag store name target).1, refs (Repository.createTag store name target).2) =
      place (refs store) ("refs/tags/" ++ name) target
  createBranch : ∀ store name target,
    ((Repository.createBranch store name target).1,
        refs (Repository.createBranch store name target).2) =
      place (refs store) ("refs/heads/" ++ name) target

theorem Memory.writeRef_eq_place (m : Memory) (name : String) (target : CommitId) :
    m.writeRef name target =
      ((place m.refs name target).1, { m with refs := (place m.refs name target).2 }) := by
  unfold writeRef place
  cases m.refs.get? name <;> rfl

/-- A store in memory places its refs. -/
theorem Memory.placesRefs : PlacesRefs Memory.refs where
  createCommit _ _ := rfl
  createTag m name target := by
    show ((m.writeRef _ target).1, (m.writeRef _ target).2.refs) = _
    rw [m.writeRef_eq_place]
  createBranch m name target := by
    show ((m.writeRef _ target).1, (m.writeRef _ target).2.refs) = _
    rw [m.writeRef_eq_place]

end ReleaseRecovery
