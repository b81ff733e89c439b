import Mathlib.Data.Finset.Card
import ReleaseRecovery.Proofs.Collapse
import ReleaseRecovery.Proofs.Planning

/-!
# Resolutions and endpoints

What a copy comes to is decided by its stored history, in which only adjacent repetitions of a
content are missing. The rule is about the different contents that were pushed. Both agree: a stored
history has a single member exactly if all that was pushed is one content. The endpoints, which are
looked up on their own, never contradict the resolution.

## Main Definitions

* `Subhistory.AnswersTo` — resolution and endpoints of a subhistory follow from some contents

## Main Statements

* `two_le_length_collapsed_iff` — several stored contents are several different ones
* `Subhistory.answersTo_pushed` — a subhistory answers to the contents that were pushed
-/

namespace ReleaseRecovery

/-! ### Different contents -/

section Contents

variable {l : List TreeId} {t : TreeId}

theorem toFinset_collapsed (l : List TreeId) : (collapsed l).toFinset = l.toFinset := by
  ext t
  rw [List.mem_toFinset, List.mem_toFinset, mem_collapsed_iff]

/-- What looks for the first content of some kind finds it with and without repetitions. -/
theorem findSome?_collapsed {α : Type} (f : TreeId → Option α) (l : List TreeId) :
    (collapsed l).findSome? f = l.findSome? f := by
  induction l with
  | nil => rfl
  | cons t l ih =>
    rw [collapsed_cons]
    split
    · rename_i h
      obtain ⟨rest, rfl⟩ := List.head?_eq_some_iff.1 h
      simp only [ih, List.findSome?_cons]
      cases f t <;> rfl
    · rw [List.findSome?_cons, List.findSome?_cons, ih]

/-- The first two stored contents differ, so several stored contents are several different ones. -/
theorem two_le_length_collapsed_iff : 2 ≤ (collapsed l).length ↔ 2 ≤ l.toFinset.card := by
  rw [← toFinset_collapsed]
  constructor
  · intro h
    obtain ⟨t, u, rest, hsplit⟩ : ∃ t u rest, collapsed l = t :: u :: rest := by
      match hl : collapsed l with
      | [] => simp [hl] at h
      | [t] => simp [hl] at h
      | t :: u :: rest => exact ⟨t, u, rest, rfl⟩
    have hne : t ≠ u := by
      have hchain : (collapsed l).IsChain (· ≠ ·) := List.isChain_destutter (· ≠ ·) l
      rw [hsplit] at hchain
      exact (List.isChain_cons_cons.1 hchain).1
    rw [hsplit]
    exact Finset.one_lt_card.2 ⟨t, by simp, u, by simp, hne⟩
  · exact fun h => h.trans (List.toFinset_card_le _)

/-- A single content is stored exactly if all contents are that one. -/
theorem collapsed_eq_singleton_iff : collapsed l = [t] ↔ l.toFinset = {t} := by
  constructor
  · intro h
    rw [← toFinset_collapsed, h, List.toFinset_cons, List.toFinset_nil, insert_empty_eq]
  · intro h
    have hlen : ¬2 ≤ (collapsed l).length := by
      rw [two_le_length_collapsed_iff, h, Finset.card_singleton]
      decide
    have hmem : t ∈ collapsed l := by
      rw [mem_collapsed_iff, ← List.mem_toFinset, h, Finset.mem_singleton]
    obtain ⟨u, hu⟩ := List.length_eq_one_iff.1
      (Nat.le_antisymm (Nat.not_lt.1 hlen) (List.length_pos_of_mem hmem))
    rw [hu] at hmem ⊢
    rw [List.mem_singleton.1 hmem]

theorem length_eraseDups_collapsed (l : List TreeId) :
    (collapsed l).eraseDups.length = l.toFinset.card := by
  have hset : l.toFinset = (collapsed l).eraseDups.toFinset := by
    ext t
    rw [List.mem_toFinset, List.mem_toFinset, List.mem_eraseDups, mem_collapsed_iff]
  rw [hset, List.toFinset_card_of_nodup (nodup_eraseDups _)]

end Contents

namespace Subhistory

/-- Resolution and endpoints of a subhistory are those that some contents, newest first, call
for. -/
structure AnswersTo (s : Subhistory) (trunk : SortedMap CommitId) (trees : List TreeId) :
    Prop where
  /-- The newest content on the reference line counts. -/
  trunk_iff : ∀ t c, resolve s.history trunk = .trunk t c ↔
    ∃ newer older, trees = newer ++ t :: older ∧ trunk.get? t = some c ∧
      ∀ u ∈ newer, trunk.get? u = none
  /-- Without one, the only content counts. -/
  synthesize_iff : ∀ t, resolve s.history trunk = .synthesize t ↔
    trees.toFinset = {t} ∧ trunk.get? t = none
  /-- Several different contents are not decided between. -/
  noTrunkMatch_iff : ∀ distinct, resolve s.history trunk = .unresolved (.noTrunkMatch distinct) ↔
    (∀ t ∈ trees, trunk.get? t = none) ∧ trees.toFinset.card = distinct ∧ 2 ≤ distinct
  emptyHistory_iff : resolve s.history trunk = .unresolved .emptyHistory ↔ trees = []
  newest_eq : s.newest = trees.head?
  /-- The newest endpoint is the resolution, if the newest content is on the reference line. -/
  mergedTo_iff : ∀ c, s.mergedTo = some c ↔
    ∃ t, trees.head? = some t ∧ resolve s.history trunk = .trunk t c
  /-- The oldest endpoint may be another commit than the resolution. -/
  resolved_of_branchedFrom : ∀ c, s.branchedFrom = some c →
    ∃ t d, resolve s.history trunk = .trunk t d
  endpoints_eq_none : (∀ t c, resolve s.history trunk ≠ .trunk t c) →
    s.mergedTo = none ∧ s.branchedFrom = none

section Pushed

variable {trees : List TreeId} {trunk : SortedMap CommitId}

theorem resolve_collapsed_eq_trunk_iff {t : TreeId} {c : CommitId} :
    resolve (collapsed trees) trunk = .trunk t c ↔
      ∃ newer older, trees = newer ++ t :: older ∧ trunk.get? t = some c ∧
        ∀ u ∈ newer, trunk.get? u = none := by
  rw [resolve_eq_trunk_iff, ← findSome?_trunk_eq_some_iff, findSome?_collapsed,
    findSome?_trunk_eq_some_iff]

theorem resolve_collapsed_eq_synthesize_iff {t : TreeId} :
    resolve (collapsed trees) trunk = .synthesize t ↔
      trees.toFinset = {t} ∧ trunk.get? t = none := by
  rw [resolve_eq_synthesize_iff, collapsed_eq_singleton_iff]

theorem resolve_collapsed_eq_noTrunkMatch_iff {distinct : Nat} :
    resolve (collapsed trees) trunk = .unresolved (.noTrunkMatch distinct) ↔
      (∀ t ∈ trees, trunk.get? t = none) ∧ trees.toFinset.card = distinct ∧ 2 ≤ distinct := by
  simp only [resolve_eq_unresolved_iff, mem_collapsed_iff, two_le_length_collapsed_iff,
    length_eraseDups_collapsed, reduceCtorEq, and_false, false_or,
    UnresolvedReason.noTrunkMatch.injEq]
  refine and_congr_right fun _ => ?_
  constructor
  · rintro ⟨h, rfl⟩
    exact ⟨rfl, h⟩
  · rintro ⟨rfl, h⟩
    exact ⟨h, rfl⟩

theorem resolve_collapsed_eq_emptyHistory_iff :
    resolve (collapsed trees) trunk = .unresolved .emptyHistory ↔ trees = [] := by
  simp only [resolve_eq_unresolved_iff, reduceCtorEq, and_false, or_false, and_true,
    List.destutter_eq_nil]
  refine and_iff_right_of_imp ?_
  rintro rfl
  exact List.forall_mem_nil _

/-- The newest content, if the reference line has it, is what a copy comes to. -/
theorem bind_head?_eq_some_iff {c : CommitId} :
    trees.head?.bind trunk.get? = some c ↔
      ∃ t, trees.head? = some t ∧ resolve (collapsed trees) trunk = .trunk t c := by
  rw [Option.bind_eq_some_iff]
  refine exists_congr fun t => and_congr_right fun ht => ?_
  obtain ⟨rest, rfl⟩ := List.head?_eq_some_iff.1 ht
  rw [resolve_collapsed_eq_trunk_iff]
  constructor
  · exact fun hc => ⟨[], rest, rfl, hc, List.forall_mem_nil _⟩
  · rintro ⟨-, -, -, hc, -⟩
    exact hc

/-- A subhistory answers to the contents that were pushed one after the other, however they
repeat. -/
theorem answersTo_pushed (trees : List TreeId) (trunk : SortedMap CommitId) :
    ((trees.foldl push empty).locate trunk).AnswersTo trunk trees := by
  have hbranched : ∀ c, trees.getLast?.bind trunk.get? = some c →
      ∃ t d, resolve (collapsed trees) trunk = .trunk t d := by
    intro c hc
    obtain ⟨t, ht, hc⟩ := Option.bind_eq_some_iff.1 hc
    exact exists_resolve_eq_trunk (mem_collapsed_iff.2 (List.mem_of_getLast? ht)) hc
  rw [foldl_push, locate, newest, oldest, head?_collapsed, getLast?_collapsed]
  refine {
    trunk_iff := fun _ _ => resolve_collapsed_eq_trunk_iff
    synthesize_iff := fun _ => resolve_collapsed_eq_synthesize_iff
    noTrunkMatch_iff := fun _ => resolve_collapsed_eq_noTrunkMatch_iff
    emptyHistory_iff := resolve_collapsed_eq_emptyHistory_iff
    newest_eq := head?_collapsed trees
    mergedTo_iff := fun _ => bind_head?_eq_some_iff
    resolved_of_branchedFrom := hbranched
    endpoints_eq_none := fun hnot => ⟨?_, ?_⟩ }
  · refine Option.eq_none_iff_forall_not_mem.2 fun c hc => ?_
    obtain ⟨t, -, hres⟩ := bind_head?_eq_some_iff.1 hc
    exact hnot t c hres
  · refine Option.eq_none_iff_forall_not_mem.2 fun c hc => ?_
    obtain ⟨t, d, hres⟩ := hbranched c hc
    exact hnot t d hres

end Pushed

end Subhistory

end ReleaseRecovery
