import Mathlib.Data.List.Perm.Basic
import ReleaseRecovery.Heap

/-!
# The first member of a heap

A new member rises for as long as it comes before the one above it. It gets to the top exactly if it
comes before the member that is there, so the top is taken over only by members that come before it,
and in the end no member comes before the top.

## Main Definitions

* `Heap.Ranks` — what an order has to keep to
* `Heap.IsTop` — a member stands at the top of a heap, and none comes before it

## Main Statements

* `Heap.isTop_push` — the top of a heap that gets a new member
* `Heap.exists_head?_sorted` — which member leaves first
-/

namespace ReleaseRecovery.Heap

variable {α : Type}

/-- Of two members at most one comes before the other, and any third one comes before the second or
after the first. -/
structure Ranks (before : α → α → Bool) : Prop where
  asymm : ∀ {a b}, before a b = true → before b a = false
  split : ∀ {a b c}, before a c = true → before a b = true ∨ before b c = true

/-- A member stands at the top of a heap, and no member comes before it. -/
structure IsTop (before : α → α → Bool) (top : α) (heap : Array α) : Prop where
  get : heap[0]? = some top
  first : ∀ a ∈ heap, before a top = false

variable {before : α → α → Bool} {heap : Array α}

theorem Ranks.irrefl (ranks : Ranks before) (a : α) : before a a = false := by
  cases h : before a a with
  | false => rfl
  | true => exact h.symm.trans (ranks.asymm h)

theorem isDue_eq {i j : Nat} {a b : α} (hi : heap[i]? = some a) (hj : heap[j]? = some b) :
    isDue before heap i j = before a b := by
  rw [isDue, hi, hj]

theorem perm_swapIfInBounds (heap : Array α) (i j : Nat) :
    (heap.swapIfInBounds i j).Perm heap := by
  rw [Array.swapIfInBounds_def]
  split
  · split
    · exact Array.swap_perm _ _
    · exact .refl _
  · exact .refl _

theorem getElem?_swapIfInBounds {i j : Nat} {a b : α} (hi : heap[i]? = some a)
    (hj : heap[j]? = some b) (k : Nat) :
    (heap.swapIfInBounds i j)[k]? =
      if j = k then some a else if i = k then some b else heap[k]? := by
  obtain ⟨hi', rfl⟩ := Array.getElem?_eq_some_iff.1 hi
  obtain ⟨hj', rfl⟩ := Array.getElem?_eq_some_iff.1 hj
  rw [Array.swapIfInBounds_def, dif_pos hi', dif_pos hj', Array.getElem?_swap]

/-- Whoever rises, the members stay. -/
theorem perm_rise (room i : Nat) (heap : Array α) : (rise before room i heap).Perm heap := by
  induction room generalizing i heap with
  | zero => exact .refl _
  | succ room ih =>
    rw [rise]
    split
    · exact (ih _ _).trans (perm_swapIfInBounds ..)
    · exact .refl _

theorem perm_push (heap : Array α) (a : α) : (push before heap a).Perm (heap.push a) :=
  perm_rise ..

theorem rise_zero (room : Nat) (heap : Array α) : rise before room 0 heap = heap := by
  cases room with
  | zero => rfl
  | succ room =>
    rw [rise, if_neg]
    exact fun h => Nat.lt_irrefl 0 h.1

/-- A member that rises gets to the top exactly if it comes before the one that is there. -/
theorem getElem?_zero_rise (ranks : Ranks before) {room i : Nat} {a top : α} (hi : 0 < i)
    (hroom : i ≤ room) (ha : heap[i]? = some a) (htop : heap[0]? = some top)
    (hfirst : ∀ j b, j ≠ i → heap[j]? = some b → before b top = false) :
    (rise before room i heap)[0]? = some (if before a top then a else top) := by
  induction room generalizing i heap with
  | zero => omega
  | succ room ih =>
    have habove : (i - 1) / 2 < i := by omega
    obtain ⟨b, hb⟩ : ∃ b, heap[(i - 1) / 2]? = some b := by
      obtain ⟨hlt, -⟩ := Array.getElem?_eq_some_iff.1 ha
      exact ⟨heap[(i - 1) / 2], Array.getElem?_eq_getElem (Nat.lt_trans habove hlt)⟩
    have hbtop : before b top = false := hfirst _ b (Nat.ne_of_lt habove) hb
    have hget := getElem?_swapIfInBounds ha hb
    rw [rise, isDue_eq ha hb]
    split
    · rename_i hdue
      by_cases hzero : (i - 1) / 2 = 0
      · -- The member above is the top itself.
        rw [hzero] at hb hget ⊢
        obtain rfl : b = top := Option.some.inj (hb.symm.trans htop)
        rw [rise_zero, hget 0, if_pos rfl, if_pos hdue.2]
      · refine ih (by omega) (by omega) ?_ ?_ fun j c hj hc => ?_
        · rw [hget, if_pos rfl]
        · rw [hget, if_neg hzero, if_neg (by omega), htop]
        · rw [hget, if_neg (Ne.symm hj)] at hc
          split at hc
          · exact Option.some.inj hc ▸ hbtop
          · rename_i hne
            exact hfirst j c (Ne.symm hne) hc
    · rename_i hdue
      have hab : before a b ≠ true := fun h => hdue ⟨hi, h⟩
      have hatop : before a top ≠ true := fun h =>
        (ranks.split h).elim hab (Bool.eq_false_iff.1 hbtop)
      rw [if_neg hatop, htop]

/-- The top of a heap gives way to a new member exactly if that comes before it. -/
theorem isTop_push (ranks : Ranks before) {top : α} (isTop : IsTop before top heap) (a : α) :
    IsTop before (if before a top then a else top) (push before heap a) := by
  have hsize : 0 < heap.size := (Array.getElem?_eq_some_iff.1 isTop.get).1
  have hmem {b : α} : b ∈ push before heap a ↔ b ∈ heap ∨ b = a :=
    (perm_push heap a).mem_iff.trans Array.mem_push
  constructor
  · refine getElem?_zero_rise ranks hsize (Nat.le_refl _) ?_ ?_ fun j b hj hb => ?_
    · exact Array.getElem?_push_size
    · rw [Array.getElem?_push_lt hsize, ← Array.getElem?_eq_getElem hsize, isTop.get]
    · rw [Array.getElem?_push, if_neg hj] at hb
      exact isTop.first b (Array.mem_of_getElem? hb)
  · intro b hb
    split
    · rename_i ha
      rcases hmem.1 hb with hold | rfl
      · -- A member before the new one would come before the old top as well.
        refine Bool.eq_false_iff.2 fun hba => ?_
        rcases ranks.split (b := top) hba with h | h
        · exact Bool.eq_false_iff.1 (isTop.first b hold) h
        · exact Bool.eq_false_iff.1 (ranks.asymm ha) h
      · exact ranks.irrefl b
    · rename_i ha
      rcases hmem.1 hb with hold | rfl
      · exact isTop.first b hold
      · exact Bool.eq_false_iff.2 ha

/-- The top of a heap after several new members: one of them, or the old top, which stays if none of
them comes before it. -/
theorem exists_isTop_foldl (ranks : Ranks before) {top : α} (isTop : IsTop before top heap)
    (l : List α) :
    ∃ top', IsTop before top' (l.foldl (push before) heap) ∧ (top' = top ∨ top' ∈ l) ∧
      ((∀ a ∈ l, before a top = false) → top' = top) := by
  induction l generalizing heap top with
  | nil => exact ⟨top, isTop, .inl rfl, fun _ => rfl⟩
  | cons a l ih =>
    obtain ⟨top', isTop', hmem, hstays⟩ := ih (isTop_push ranks isTop a)
    refine ⟨top', isTop', ?_, fun hnone => ?_⟩
    · rcases hmem with rfl | hmem
      · split
        · exact .inr List.mem_cons_self
        · exact .inl rfl
      · exact .inr (List.mem_cons_of_mem a hmem)
    · rw [List.forall_mem_cons] at hnone
      rw [hnone.1, if_neg Bool.false_ne_true] at hstays
      exact hstays hnone.2

theorem perm_foldl_push (l : List α) (heap : Array α) :
    (l.foldl (push before) heap).toList.Perm (heap.toList ++ l) := by
  induction l generalizing heap with
  | nil => rw [List.append_nil]; exact .refl _
  | cons a l ih =>
    refine (ih (push before heap a)).trans ?_
    have h : (push before heap a).toList.Perm (heap.toList ++ [a]) := by
      rw [← Array.toList_push]
      exact (perm_push heap a).toList
    rw [List.append_cons]
    exact h.append_right l

theorem head?_drain {top : α} (htop : heap[0]? = some top) (count : Nat) :
    (drain before (count + 1) heap).head? = some top := by
  have hsize : 0 < heap.size := (Array.getElem?_eq_some_iff.1 htop).1
  have hlast : heap.back? = some heap[heap.size - 1] :=
    Array.back?_eq_getElem?.trans (Array.getElem?_eq_getElem _)
  rw [drain, pop?, htop, hlast]
  rfl

/-- No member comes before the one that leaves a heap first, and that is the one that entered first
if none comes before that. -/
theorem exists_head?_sorted (ranks : Ranks before) (a : α) (l : List α) :
    ∃ first, (sorted before (a :: l)).head? = some first ∧ first ∈ a :: l ∧
      (∀ b ∈ a :: l, before b first = false) ∧
      ((∀ b ∈ l, before b a = false) → first = a) := by
  have isTop : IsTop before a (push before #[] a) := by
    have h : push before #[] a = #[a] := rfl
    rw [h]
    exact ⟨rfl, fun b hb => (Array.mem_singleton.1 hb) ▸ ranks.irrefl a⟩
  obtain ⟨first, isTop', hmem, hstays⟩ := exists_isTop_foldl ranks isTop l
  refine ⟨first, head?_drain isTop'.get l.length, List.mem_cons.2 hmem, fun b hb => ?_, hstays⟩
  refine isTop'.first b (Array.mem_toList_iff.1 ((perm_foldl_push l _).mem_iff.2 ?_))
  exact hb

end ReleaseRecovery.Heap
