import Mathlib.Data.List.Nodup
import ReleaseRecovery.Version

/-!
# The order and the names of versions

Versions are ordered by their numbers, and this order is linear. The name of a version says all of
it: versions with the same name are the same version, no matter how a name was spelled when it was
read.

## Main Statements

* `Version.le_total`, `Version.le_trans`, `Version.lt_of_le_of_ne` — the order is linear
* `Version.pairwise_mergeSort` — sorting leaves nothing out of order
* `Version.isStableSort_mergeSort`, `Version.IsStableSort.unique` — what sorting does is determined
* `Version.mergeSort_eq_of_perm` — how a list stands does not matter if no version is in it twice
* `Version.ofText?_text` — a version is read back from its name
* `Version.text_inj` — a version is told by its name
-/

namespace ReleaseRecovery.Version

/-! ### Order -/

section Order

variable {a b c : Version}

theorem le_total (a b : Version) : a ≤ b ∨ b ≤ a :=
  List.le_total a.components b.components

theorem le_trans (h : a ≤ b) (h' : b ≤ c) : a ≤ c :=
  List.le_trans (show a.components ≤ b.components from h) h'

theorem le_antisymm (h : a ≤ b) (h' : b ≤ a) : a = b := by
  have hcomponents : a.components = b.components := List.le_antisymm h h'
  cases a
  cases b
  exact congrArg mk hcomponents

theorem lt_of_le_of_ne (h : a ≤ b) (hne : a ≠ b) : a < b := by
  have hcomponents : a.components ≠ b.components := by
    intro e
    exact hne (by cases a; cases b; cases e; rfl)
  have hle : a.components ≤ b.components := h
  have hlt : a.components < b.components := Std.lt_of_le_of_ne hle hcomponents
  exact hlt

theorem le_of_lt (h : a < b) : a ≤ b :=
  List.le_of_lt (show a.components < b.components from h)

theorem lt_trans (h : a < b) (h' : b < c) : a < c :=
  List.lt_trans (show a.components < b.components from h) h'

theorem ne_of_lt (h : a < b) : a ≠ b := by
  rintro rfl
  exact List.lt_irrefl a.components h

end Order

/-! ### Sorting -/

section Sorting

variable {α : Type} (version : α → Version)

theorem decide_le_trans (x y z : α) (h : decide (version x ≤ version y) = true)
    (h' : decide (version y ≤ version z) = true) : decide (version x ≤ version z) = true :=
  decide_eq_true (le_trans (of_decide_eq_true h) (of_decide_eq_true h'))

theorem decide_le_total (x y : α) :
    (decide (version x ≤ version y) || decide (version y ≤ version x)) = true := by
  rw [Bool.or_eq_true, decide_eq_true_eq, decide_eq_true_eq]
  exact le_total (version x) (version y)

/-- Sorting by version leaves nothing out of order. -/
theorem pairwise_mergeSort (l : List α) :
    (l.mergeSort fun a b => decide (version a ≤ version b)).Pairwise
      fun a b => version a ≤ version b :=
  (List.pairwise_mergeSort (decide_le_trans version) (decide_le_total version) l).imp
    of_decide_eq_true

/-- A list is another one in ascending order of the versions, and what has the same version stands
in the order in which it stood. -/
structure IsStableSort (l sorted : List α) : Prop where
  perm : sorted.Perm l
  ascending : sorted.Pairwise fun a b => version a ≤ version b
  stable : ∀ a ∈ l, sorted.filter (fun b => decide (version b = version a)) =
    l.filter fun b => decide (version b = version a)

theorem isStableSort_mergeSort (l : List α) :
    IsStableSort version l (l.mergeSort fun a b => decide (version a ≤ version b)) := by
  have hperm := List.mergeSort_perm l fun a b => decide (version a ≤ version b)
  refine ⟨hperm, pairwise_mergeSort version l, fun member _ => ?_⟩
  generalize version member = v
  -- What has one version is in order, so sorting leaves it as it stands.
  have hsame : (l.filter fun a => decide (version a = v)).Pairwise
      fun a b => decide (version a ≤ version b) = true := by
    refine List.pairwise_of_forall_mem_list fun a ha b hb => decide_eq_true ?_
    rw [of_decide_eq_true (List.mem_filter.1 ha).2, of_decide_eq_true (List.mem_filter.1 hb).2]
    exact (le_total v v).elim id id
  have hsub := List.sublist_mergeSort (decide_le_trans version) (decide_le_total version) hsame
    List.filter_sublist
  have hfilter := hsub.filter fun a => decide (version a = v)
  rw [List.filter_filter] at hfilter
  simp only [Bool.and_self] at hfilter
  exact (hfilter.eq_of_length (hperm.filter _).length_eq.symm).symm

/-- A list is sorted in one way. -/
theorem IsStableSort.unique {version : α → Version} {l sorted sorted' : List α}
    (h : IsStableSort version l sorted) (h' : IsStableSort version l sorted') :
    sorted = sorted' := by
  have hperm := h.perm.trans h'.perm.symm
  have hsame : ∀ a ∈ sorted, sorted.filter (fun b => decide (version b = version a)) =
      sorted'.filter fun b => decide (version b = version a) := by
    intro a ha
    rw [h.stable a (h.perm.subset ha), h'.stable a (h.perm.subset ha)]
  have hsorted := h.ascending
  have hsorted' := h'.ascending
  clear h h'
  induction sorted generalizing sorted' with
  | nil => exact hperm.nil_eq
  | cons x rest ih =>
    cases sorted' with
    | nil => exact hperm.eq_nil
    | cons y rest' =>
      rw [List.pairwise_cons] at hsorted hsorted'
      -- Both lists begin with the least version, so they begin with the same member.
      have hxy : version x = version y := by
        refine le_antisymm ?_ ?_
        · rcases List.mem_cons.1 (hperm.symm.subset List.mem_cons_self) with rfl | hy
          · exact (le_total _ _).elim id id
          · exact hsorted.1 y hy
        · rcases List.mem_cons.1 (hperm.subset List.mem_cons_self) with rfl | hx
          · exact (le_total _ _).elim id id
          · exact hsorted'.1 x hx
      have hfirst := hsame x List.mem_cons_self
      simp only [hxy, List.filter_cons, decide_true, if_true] at hfirst
      obtain rfl := (List.cons.inj hfirst).1
      refine congrArg _ (ih hperm.cons_inv ?_ hsorted.2 hsorted'.2)
      intro a ha
      have hall := hsame a (List.mem_cons_of_mem x ha)
      rw [List.filter_cons, List.filter_cons] at hall
      split at hall
      · exact (List.cons.inj hall).2
      · exact hall

/-- A list without two members of one version is sorted in one way, in whatever order it stands. -/
theorem mergeSort_eq_of_perm {l l' : List α}
    (hdistinct : l.Pairwise fun a b => version a ≠ version b) (hperm : l'.Perm l) :
    l'.mergeSort (fun a b => decide (version a ≤ version b)) =
      l.mergeSort fun a b => decide (version a ≤ version b) := by
  have hsorted := List.mergeSort_perm l fun a b => decide (version a ≤ version b)
  have hsorted' := List.mergeSort_perm l' fun a b => decide (version a ≤ version b)
  refine List.Perm.eq_of_pairwise ?_ (pairwise_mergeSort version l') (pairwise_mergeSort version l)
    (hsorted'.trans (hperm.trans hsorted.symm))
  intro a b ha hb hab hba
  have ha := hperm.subset (hsorted'.subset ha)
  have hnodup : (l.map version).Nodup := List.pairwise_map.2 hdistinct
  exact List.inj_on_of_nodup_map hnodup ha (hsorted.subset hb) (le_antisymm hab hba)

end Sorting

/-! ### Names -/

section Names

theorem dot_notMem_toDigits (n : Nat) : '.' ∉ Nat.toDigits 10 n := by
  intro h
  have := Nat.isDigit_of_mem_toDigits (by decide) (by decide) h
  exact absurd this (by decide)

/-- The characters of a name. -/
theorem toList_text (v : Version) :
    v.text.toList =
      'v' :: ['.'].intercalate (v.components.map fun c => Nat.toDigits 10 c.toNat) := by
  have hdigits : (fun c : UInt32 => (Nat.repr c.toNat).toList) =
      fun c : UInt32 => Nat.toDigits 10 c.toNat := by
    funext c
    rw [Nat.repr_eq_ofList_toDigits, String.toList_ofList]
  rw [text, String.toList_append, String.toList_intercalate, List.map_map]
  show 'v' :: ['.'].intercalate (v.components.map fun c => (Nat.repr c.toNat).toList) = _
  rw [hdigits]

/-- The numbers of a version are read back from its name. -/
theorem components?_intercalate {cs : List UInt32} (h : cs ≠ []) :
    components? (['.'].intercalate (cs.map fun c => Nat.toDigits 10 c.toNat)) = some cs := by
  have hsplit : (['.'].intercalate (cs.map fun c => Nat.toDigits 10 c.toNat)).splitOn '.' =
      cs.map fun c => Nat.toDigits 10 c.toNat := by
    refine List.splitOn_intercalate '.' ?_ (by simpa using h)
    intro digits hdigits
    obtain ⟨c, -, rfl⟩ := List.mem_map.1 hdigits
    exact dot_notMem_toDigits c.toNat
  rw [components?, hsplit]
  clear h hsplit
  induction cs with
  | nil => rfl
  | cons c cs ih => simp [ih]

/-- A version is read back from its name. -/
theorem ofText?_text {v : Version} (h : v.components ≠ []) : ofText? v.text = some v := by
  rw [ofText?, toList_text]
  show (components? (['.'].intercalate _)).map mk = some v
  rw [components?_intercalate h]
  rfl

/-- A version is told by its name. -/
theorem text_inj {v w : Version} : v.text = w.text ↔ v = w := by
  refine ⟨fun h => ?_, fun h => h ▸ rfl⟩
  by_cases hv : v.components = []
  · by_cases hw : w.components = []
    · cases v; cases w; cases hv; cases hw; rfl
    · -- A version without numbers is named by the letter alone, which is no release name.
      have hread := ofText?_text hw
      rw [← h, ofText?, toList_text, hv] at hread
      cases hread
  · have hread := ofText?_text hv
    by_cases hw : w.components = []
    · rw [h, ofText?, toList_text, hw] at hread
      cases hread
    · rw [h, ofText?_text hw] at hread
      exact (Option.some.inj hread).symm

/-- A release name holds a number. -/
theorem components_ne_nil_of_ofText? {name : String} {v : Version} (h : ofText? name = some v) :
    v.components ≠ [] := by
  unfold ofText? at h
  split at h
  · rename_i numbers _
    obtain ⟨cs, hcs, rfl⟩ := Option.map_eq_some_iff.1 h
    rintro rfl
    rw [components?] at hcs
    cases hsplit : numbers.splitOn '.' with
    | nil => exact List.splitOn_ne_nil '.' numbers hsplit
    | cons part parts =>
      rw [hsplit, List.mapM_cons] at hcs
      cases hpart : component? part <;> cases hparts : parts.mapM component? <;>
        simp [hpart, hparts] at hcs
  · cases h

/-- A copy stands for no release without a number. -/
theorem components_ne_nil_of_ofSource? {key : String} {v : Version} (h : ofSource? key = some v) :
    v.components ≠ [] := by
  unfold ofSource? at h
  split at h
  · rename_i w hlookup
    obtain rfl := Option.some.inj h
    rw [misnamed, List.lookup_cons] at hlookup
    split at hlookup
    · obtain rfl := Option.some.inj hlookup
      exact List.cons_ne_nil _ _
    · cases hlookup
  · exact components_ne_nil_of_ofText? h

end Names

end ReleaseRecovery.Version
