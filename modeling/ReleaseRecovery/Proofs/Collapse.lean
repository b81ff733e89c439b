import Mathlib.Data.List.Destutter
import ReleaseRecovery.Subhistory

/-!
# Contents without repetition

A subhistory keeps a content only if it differs from the one before it. Pushing a sequence of
contents therefore leaves the sequence without its adjacent repetitions, whatever it is. What is put
in front of a sequence, or after it, is seen in the result unless it only repeats the end that it
meets.

## Main Definitions

* `collapsed` — a sequence of contents without adjacent repetitions

## Main Statements

* `Subhistory.foldl_push` — pushing contents one after the other collapses them
* `collapsed_between_eq_iff` — when a sequence between two others leaves them no trace
-/

namespace ReleaseRecovery

/-- The contents of a sequence, without those that equal the one before them. -/
abbrev collapsed (trees : List TreeId) : List TreeId := trees.destutter (· ≠ ·)

theorem collapsed_cons (t : TreeId) (l : List TreeId) :
    collapsed (t :: l) = if l.head? = some t then collapsed l else t :: collapsed l := by
  cases l with
  | nil => rfl
  | cons u l =>
    by_cases h : u = t
    · subst h
      rw [List.head?_cons, if_pos rfl, collapsed, List.destutter_cons_cons,
        if_neg fun hne => hne rfl]
      rfl
    · have hne : ¬some u = some t := fun e => h (Option.some.inj e)
      rw [List.head?_cons, if_neg hne, collapsed, List.destutter_cons_cons,
        if_pos (Ne.symm h)]
      rfl

theorem head?_collapsed (l : List TreeId) : (collapsed l).head? = l.head? := by
  induction l with
  | nil => rfl
  | cons t l ih =>
    rw [collapsed_cons]
    split
    · rename_i h
      rw [ih, h, List.head?_cons]
    · rfl

theorem getLast?_collapsed (l : List TreeId) : (collapsed l).getLast? = l.getLast? := by
  induction l with
  | nil => rfl
  | cons t l ih =>
    rw [collapsed_cons]
    split
    · rename_i h
      obtain ⟨rest, rfl⟩ := List.head?_eq_some_iff.1 h
      rw [ih, List.getLast?_cons_cons]
    · rw [List.getLast?_cons, List.getLast?_cons, ih]

@[simp] theorem mem_collapsed_iff {l : List TreeId} {t : TreeId} : t ∈ collapsed l ↔ t ∈ l := by
  induction l with
  | nil => rfl
  | cons u l ih =>
    rw [collapsed_cons, List.mem_cons]
    split
    · rename_i h
      rw [ih]
      exact ⟨.inr, fun h' => h'.elim (fun e => e ▸ List.mem_of_mem_head? h) id⟩
    · rw [List.mem_cons, ih]

/-- One more content at the end is kept unless it repeats the last one. -/
theorem collapsed_concat (l : List TreeId) (t : TreeId) :
    collapsed (l ++ [t]) = if l.getLast? = some t then collapsed l else collapsed l ++ [t] := by
  induction l with
  | nil => rfl
  | cons u l ih =>
    rw [List.cons_append, collapsed_cons, ih, collapsed_cons]
    cases l with
    | nil =>
      by_cases h : t = u
      · subst h
        rfl
      · have hu : ¬u = t := fun e => h e.symm
        simp [h, hu]
    | cons v l =>
      have hhead : (v :: l ++ [t]).head? = (v :: l).head? := rfl
      rw [hhead, List.getLast?_cons_cons]
      split <;> split <;> rfl

theorem collapsed_append_left_isSuffix (a l : List TreeId) :
    collapsed l <:+ collapsed (a ++ l) := by
  induction a with
  | nil => exact List.suffix_rfl
  | cons t a ih =>
    rw [List.cons_append, collapsed_cons]
    split
    · exact ih
    · exact ih.trans (List.suffix_cons t _)

theorem collapsed_append_right_isPrefix (l a : List TreeId) :
    collapsed l <+: collapsed (l ++ a) := by
  induction a using List.reverseRecOn with
  | nil => simp
  | append_singleton a t ih =>
    rw [← List.append_assoc, collapsed_concat]
    split
    · exact ih
    · exact ih.trans (List.prefix_append _ _)

/-- What stands in front leaves no trace exactly if it repeats the first content. -/
theorem collapsed_append_left_eq_iff {a l : List TreeId} :
    collapsed (a ++ l) = collapsed l ↔ ∀ t ∈ a, l.head? = some t := by
  induction a with
  | nil => simp
  | cons t a ih =>
    have hlen := (collapsed_append_left_isSuffix a l).length_le
    rw [List.cons_append, collapsed_cons, List.forall_mem_cons]
    by_cases h : (a ++ l).head? = some t
    · rw [if_pos h, ih]
      refine ⟨fun hall => ⟨?_, hall⟩, And.right⟩
      cases a with
      | nil => exact h
      | cons u a =>
        rw [hall u List.mem_cons_self, ← h]
        rfl
    · rw [if_neg h]
      constructor
      · intro e
        have := congrArg List.length e
        simp only [List.length_cons] at this
        omega
      · rintro ⟨ht, hall⟩
        refine absurd ?_ h
        cases a with
        | nil => exact ht
        | cons u a => rw [← ht, hall u List.mem_cons_self]; rfl

/-- What stands behind leaves no trace exactly if it repeats the last content. -/
theorem collapsed_append_right_eq_iff {l a : List TreeId} :
    collapsed (l ++ a) = collapsed l ↔ ∀ t ∈ a, l.getLast? = some t := by
  induction a using List.reverseRecOn with
  | nil => simp
  | append_singleton a t ih =>
    have hlen := (collapsed_append_right_isPrefix l a).length_le
    have hlast : (∀ u ∈ a, l.getLast? = some u) →
        ((l ++ a).getLast? = some t ↔ l.getLast? = some t) := by
      intro hall
      rw [List.getLast?_append]
      cases h : a.getLast? with
      | none => rfl
      | some u => rw [hall u (List.mem_of_getLast? h)]; rfl
    rw [← List.append_assoc, collapsed_concat, List.forall_mem_append, List.forall_mem_singleton]
    by_cases h : (l ++ a).getLast? = some t
    · rw [if_pos h, ih]
      exact ⟨fun hall => ⟨hall, (hlast hall).1 h⟩, And.left⟩
    · rw [if_neg h]
      constructor
      · intro e
        have := congrArg List.length e
        simp only [List.length_append, List.length_cons, List.length_nil] at this
        omega
      · rintro ⟨hall, ht⟩
        exact absurd ((hlast hall).2 ht) h

/-- Two sequences around a third leave no trace exactly if each of them only repeats the end of it
that it meets. -/
theorem collapsed_between_eq_iff {a l b : List TreeId} (hl : l ≠ []) :
    collapsed (a ++ (l ++ b)) = collapsed l ↔
      (∀ t ∈ a, l.head? = some t) ∧ ∀ t ∈ b, l.getLast? = some t := by
  have hhead : (l ++ b).head? = l.head? := by
    obtain ⟨t, rest, rfl⟩ := List.exists_cons_of_ne_nil hl
    rfl
  rw [← hhead, ← collapsed_append_left_eq_iff, ← collapsed_append_right_eq_iff]
  constructor
  · intro e
    -- Both ends can only lengthen the result, so neither did.
    have hright := collapsed_append_right_isPrefix l b
    have hleft := collapsed_append_left_isSuffix a (l ++ b)
    have hmiddle : collapsed (l ++ b) = collapsed l := by
      rw [e] at hleft
      exact (hright.eq_of_length_le hleft.length_le).symm
    exact ⟨e.trans hmiddle.symm, hmiddle⟩
  · rintro ⟨hleft, hright⟩
    exact hleft.trans hright

namespace Subhistory

/-- Pushing one more content collapses the longer sequence. -/
theorem push_collapsed (trees : List TreeId) (t : TreeId) :
    push ⟨collapsed trees, none, none⟩ t = ⟨collapsed (trees ++ [t]), none, none⟩ := by
  rw [collapsed_concat, ← getLast?_collapsed, push]
  split <;> rfl

/-- Pushing contents one after the other collapses them. -/
theorem foldl_push (trees : List TreeId) :
    trees.foldl push empty = ⟨collapsed trees, none, none⟩ := by
  induction trees using List.reverseRecOn with
  | nil => rfl
  | append_singleton trees t ih => rw [List.foldl_append, ih, ← push_collapsed]; rfl

end Subhistory

end ReleaseRecovery
