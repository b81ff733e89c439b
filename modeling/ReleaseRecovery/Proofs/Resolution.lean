import ReleaseRecovery.Plan

/-!
# What a copy comes to

A copy comes to the newest of its contents that is on the reference line; without one, to its only
content; and is left to decide if it had several.

## Main Definitions

* `Resolution.target?` — the content, and the commit if any, that a copy is to be tagged with

## Main Statements

* `resolve_eq_trunk_iff`, `resolve_eq_synthesize_iff`, `resolve_eq_unresolved_iff` — when a copy
  comes to which result
* `exists_resolve_eq_trunk` — a copy with a content of the reference line comes to a commit of it
* `commit_eq_of_target?` — copies that come to one content come to one commit
-/

namespace ReleaseRecovery

/-- The content that a copy is to be tagged with, and the commit of the reference line that has
it. -/
def Resolution.target? : Resolution → Option (TreeId × Option CommitId)
  | .trunk tree commit => some (tree, some commit)
  | .synthesize tree => some (tree, none)
  | .unresolved _ => none

variable {history : List TreeId} {trunk : SortedMap CommitId}

theorem findSome?_trunk_eq_some_iff {tree : TreeId} {c : CommitId} :
    (history.findSome? fun t => (trunk.get? t).map fun c => (t, c)) = some (tree, c) ↔
      ∃ newer older, history = newer ++ tree :: older ∧ trunk.get? tree = some c ∧
        ∀ t ∈ newer, trunk.get? t = none := by
  rw [List.findSome?_eq_some_iff]
  simp only [Option.map_eq_some_iff, Option.map_eq_none_iff, Prod.mk.injEq]
  constructor
  · rintro ⟨newer, t, older, rfl, ⟨_, ht, rfl, rfl⟩, hnewer⟩
    exact ⟨newer, older, rfl, ht, hnewer⟩
  · rintro ⟨newer, older, rfl, ht, hnewer⟩
    exact ⟨newer, tree, older, rfl, ⟨c, ht, rfl, rfl⟩, hnewer⟩

theorem findSome?_trunk_eq_none_iff :
    (history.findSome? fun t => (trunk.get? t).map fun c => (t, c)) = none ↔
      ∀ t ∈ history, trunk.get? t = none := by
  simp only [List.findSome?_eq_none_iff, Option.map_eq_none_iff]

/-- The newest content on the reference line counts. -/
theorem resolve_eq_trunk_iff {tree : TreeId} {c : CommitId} :
    resolve history trunk = .trunk tree c ↔
      ∃ newer older, history = newer ++ tree :: older ∧ trunk.get? tree = some c ∧
        ∀ t ∈ newer, trunk.get? t = none := by
  rw [← findSome?_trunk_eq_some_iff]
  unfold resolve
  split
  · rename_i h
    rw [h]
    simp
  · rename_i h
    rw [h]
    split <;> simp

/-- The only content counts that was ever there, if it is not on the reference line. -/
theorem resolve_eq_synthesize_iff {tree : TreeId} :
    resolve history trunk = .synthesize tree ↔ history = [tree] ∧ trunk.get? tree = none := by
  unfold resolve
  split
  · rename_i t c h
    obtain ⟨newer, older, rfl, ht, -⟩ := findSome?_trunk_eq_some_iff.1 h
    constructor
    · intro e
      cases e
    · rintro ⟨hsingle, hnone⟩
      have hmem : t ∈ [tree] := hsingle ▸ List.mem_append_right newer List.mem_cons_self
      rw [← List.mem_singleton.1 hmem, ht] at hnone
      cases hnone
  · rename_i h
    have hnone := findSome?_trunk_eq_none_iff.1 h
    split
    · simp
    · rename_i only
      simp only [Resolution.synthesize.injEq, List.cons.injEq, and_true]
      exact ⟨fun e => ⟨e, e ▸ hnone only List.mem_cons_self⟩, And.left⟩
    · rename_i hmany
      simp only [reduceCtorEq, false_iff, not_and]
      exact fun e => absurd e (hmany tree)

/-- A copy is left to decide if none of its contents is on the reference line and it had none or
several of them. -/
theorem resolve_eq_unresolved_iff {reason : UnresolvedReason} :
    resolve history trunk = .unresolved reason ↔
      (∀ t ∈ history, trunk.get? t = none) ∧
        (history = [] ∧ reason = .emptyHistory ∨
          2 ≤ history.length ∧ reason = .noTrunkMatch history.eraseDups.length) := by
  unfold resolve
  split
  · rename_i t c h
    obtain ⟨newer, older, rfl, ht, -⟩ := findSome?_trunk_eq_some_iff.1 h
    constructor
    · intro e
      cases e
    · rintro ⟨hall, -⟩
      rw [hall t (List.mem_append_right newer List.mem_cons_self)] at ht
      cases ht
  · rename_i h
    have hnone := findSome?_trunk_eq_none_iff.1 h
    split
    · simp [eq_comm]
    · simp
    · rename_i hempty hsingle
      have hlen : 2 ≤ history.length := by
        match history, hempty, hsingle with
        | [], hempty, _ => exact absurd rfl hempty
        | [t], _, hsingle => exact absurd rfl (hsingle t)
        | _ :: _ :: _, _, _ => simp
      rw [Resolution.unresolved.injEq, eq_comm]
      constructor
      · intro e
        exact ⟨hnone, .inr ⟨hlen, e⟩⟩
      · rintro ⟨-, ⟨hnil, -⟩ | ⟨-, e⟩⟩
        · exact absurd hnil hempty
        · exact e

/-- A copy that ever had a content of the reference line comes to a commit of it. -/
theorem exists_resolve_eq_trunk {tree : TreeId} {c : CommitId} (hmem : tree ∈ history)
    (hc : trunk.get? tree = some c) : ∃ t d, resolve history trunk = .trunk t d := by
  have hnot : ¬∀ t ∈ history, trunk.get? t = none := fun h => by
    rw [h tree hmem] at hc
    cases hc
  cases hres : resolve history trunk with
  | trunk t d => exact ⟨t, d, rfl⟩
  | synthesize t =>
    obtain ⟨rfl, hnone⟩ := resolve_eq_synthesize_iff.1 hres
    rw [List.forall_mem_singleton] at hnot
    exact absurd hnone hnot
  | unresolved reason => exact absurd (resolve_eq_unresolved_iff.1 hres).1 hnot

/-- The commit that a copy comes to is the one of its content. -/
theorem commit_eq_of_target? {tree : TreeId} {commit : Option CommitId}
    (h : (resolve history trunk).target? = some (tree, commit)) : commit = trunk.get? tree := by
  cases hr : resolve history trunk with
  | trunk t c =>
    rw [hr] at h
    cases h
    obtain ⟨_, _, _, ht, _⟩ := resolve_eq_trunk_iff.1 hr
    exact ht.symm
  | synthesize t =>
    rw [hr] at h
    cases h
    exact (resolve_eq_synthesize_iff.1 hr).2.symm
  | unresolved reason =>
    rw [hr] at h
    cases h

end ReleaseRecovery
