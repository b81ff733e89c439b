import ReleaseRecovery.Proofs.Collapse
import ReleaseRecovery.Proofs.Records

/-!
# What a subhistory holds

The subhistory under a key holds what all refs but the reference line show under that key, ref by
ref, without repetition of a content by the next one.

## Main Definitions

* `contentsAt` — what was observed under a key
* `ContentIndex.contentsAlong` — the contents of a directory along the history of its ref
* `ContentIndex.observedBeside` — all that is observed

## Main Statements

* `get?_gather` — what is gathered under a key
* `subhistories_eq_ok_iff`, `get?_subhistories` — when subhistories can be told, and what they are
* `exists_installs_of_get?_subhistories` — every subhistory is that of an install
-/

namespace ReleaseRecovery

/-! ### Gathering -/

/-- The contents that were observed under a key, in their order. -/
def contentsAt (key : String) (observed : List (String × TreeId)) : List TreeId :=
  observed.filterMap fun o => if o.1 = key then some o.2 else none

theorem mem_contentsAt_iff {key : String} {observed : List (String × TreeId)} {t : TreeId} :
    t ∈ contentsAt key observed ↔ (key, t) ∈ observed := by
  simp only [contentsAt, List.mem_filterMap, Option.ite_none_right_eq_some, Option.some.injEq]
  constructor
  · rintro ⟨o, ho, rfl, rfl⟩
    exact ho
  · intro h
    exact ⟨_, h, rfl, rfl⟩

theorem contentsAt_flatMap {α : Type} (key : String) (l : List α)
    (f : α → List (String × TreeId)) :
    contentsAt key (l.flatMap f) = l.flatMap fun a => contentsAt key (f a) :=
  List.filterMap_flatMap

/-- What is gathered under a key are the contents observed under it, collapsed. -/
theorem get?_gather (observed : List (String × TreeId)) (key : String) :
    (Subhistory.gather observed).get? key =
      if contentsAt key observed = [] then none
      else some ⟨collapsed (contentsAt key observed), none, none⟩ := by
  induction observed using List.reverseRecOn with
  | nil => rfl
  | append_singleton observed o ih =>
    rw [Subhistory.gather, List.foldl_append, ← Subhistory.gather, List.foldl_cons,
      List.foldl_nil, SortedMap.get?_insert, contentsAt, List.filterMap_append, ← contentsAt]
    by_cases h : key = o.1
    · have hprev : ((Subhistory.gather observed).get? o.1).getD .empty =
          ⟨collapsed (contentsAt key observed), none, none⟩ := by
        rw [← h, ih]
        split
        · rename_i hnil
          rw [hnil]
          rfl
        · rfl
      rw [if_pos h, hprev, Subhistory.push_collapsed]
      simp [h]
    · simp [h, ih, Ne.symm h]

/-! ### Observations -/

namespace SortedMap

variable {α : Type}

theorem filterMap_lookup {l : List (String × α)} (h : l.Pairwise fun a b => a.1 ≠ b.1)
    (key : String) :
    (l.filterMap fun e => if e.1 = key then some e.2 else none) = (l.lookup key).toList := by
  induction l with
  | nil => rfl
  | cons e l ih =>
    obtain ⟨hfirst, hrest⟩ := List.pairwise_cons.1 h
    rw [List.filterMap_cons, lookup_cons_eq_ite]
    by_cases he : key = e.1
    · have hnone : l.lookup key = none := by
        rw [List.lookup_eq_none_iff]
        exact fun p hp => bne_iff_ne.2 fun e' => hfirst p hp (he ▸ e')
      rw [if_pos he.symm, if_pos he, ih hrest, hnone]
      rfl
    · rw [if_neg (Ne.symm he), if_neg he, ih hrest]

/-- The entries of a map under one key. -/
theorem filterMap_entries (m : SortedMap α) (key : String) :
    (m.entries.filterMap fun e => if e.1 = key then some e.2 else none) = (m.get? key).toList :=
  filterMap_lookup m.distinct_entries key

section Ascending

variable {l before after : List (String × α)} {e b : String × α}

/-- What stands before an entry of an ascending list are the entries with smaller keys. -/
theorem mem_before_iff (h : l.Pairwise fun a b => a.1 < b.1) (hsplit : l = before ++ e :: after) :
    b ∈ before ↔ b ∈ l ∧ b.1 < e.1 := by
  subst hsplit
  obtain ⟨-, hfrom, hbefore⟩ := List.pairwise_append.1 h
  rw [List.mem_append, List.mem_cons]
  constructor
  · intro hb
    exact ⟨.inl hb, hbefore b hb e List.mem_cons_self⟩
  · rintro ⟨hb | rfl | hb, hlt⟩
    · exact hb
    · exact absurd hlt (String.lt_irrefl _)
    · exact absurd hlt (String.lt_asymm ((List.pairwise_cons.1 hfrom).1 b hb))

/-- What stands after an entry of an ascending list are the entries with greater keys. -/
theorem mem_after_iff (h : l.Pairwise fun a b => a.1 < b.1) (hsplit : l = before ++ e :: after) :
    b ∈ after ↔ b ∈ l ∧ e.1 < b.1 := by
  subst hsplit
  obtain ⟨-, hfrom, hbefore⟩ := List.pairwise_append.1 h
  rw [List.mem_append, List.mem_cons]
  constructor
  · intro hb
    exact ⟨.inr (.inr hb), (List.pairwise_cons.1 hfrom).1 b hb⟩
  · rintro ⟨hb | rfl | hb, hlt⟩
    · exact absurd hlt (String.lt_asymm (hbefore b hb e List.mem_cons_self))
    · exact absurd hlt (String.lt_irrefl _)
    · exact hb

end Ascending

end SortedMap

namespace ContentIndex

variable {index : ContentIndex}

/-- The contents of the full install at a path of some commits. -/
def contentsOf (index : ContentIndex) (commits : List CommitId) (path : String) : List TreeId :=
  commits.filterMap fun c => (index.records.get? c).bind fun r => r.full.get? path

/-- The contents of the full install at a path along the history of a ref, newest first. -/
def contentsAlong (index : ContentIndex) (ref path : String) : List TreeId :=
  index.contentsOf ((index.histories.get? ref).getD []) path

theorem contentsAlong_ne_nil_iff {ref path : String} :
    index.contentsAlong ref path ≠ [] ↔ index.Installs ref path := by
  have hmem : index.contentsAlong ref path ≠ [] ↔ ∃ t, t ∈ index.contentsAlong ref path :=
    ⟨List.exists_mem_of_ne_nil _, fun ⟨_, ht⟩ => List.ne_nil_of_mem ht⟩
  rw [hmem]
  simp only [contentsAlong, contentsOf, List.mem_filterMap, Option.bind_eq_some_iff, Installs,
    SortedMap.mem_keys_iff]
  cases index.histories.get? ref with
  | none => simp
  | some commits =>
    constructor
    · rintro ⟨t, c, hc, r, hr, ht⟩
      exact ⟨commits, rfl, c, hc, r, hr, t, ht⟩
    · rintro ⟨_, hget, c, hc, r, hr, t, ht⟩
      cases hget
      exact ⟨t, c, hc, r, hr, ht⟩

instance (ref path : String) : Decidable (index.Installs ref path) :=
  decidable_of_iff _ contentsAlong_ne_nil_iff

/-- The full installs of some commits of a ref, by key. -/
def observed (index : ContentIndex) (ref : String) (commits : List CommitId) :
    List (String × TreeId) :=
  commits.flatMap fun c => (index.recordOf c).full.entries.map fun e => (ref ++ e.1, e.2)

/-- The full installs of all refs but the reference line, ref by ref. -/
def observedBeside (index : ContentIndex) (reference : String) : List (String × TreeId) :=
  (index.histories.entries.filter fun e => e.1 != reference).flatMap fun e =>
    index.observed e.1 e.2

theorem mem_beside_iff {reference : String} {e : String × List CommitId} :
    e ∈ index.histories.entries.filter (fun e => e.1 != reference) ↔
      index.histories.get? e.1 = some e.2 ∧ e.1 ≠ reference := by
  rw [List.mem_filter, SortedMap.get?_eq_some_iff, bne_iff_ne]

/-- Every commit of every ref but the reference line has a record. -/
def IsCompleteBeside (index : ContentIndex) (reference : String) : Prop :=
  ∀ ref commits, index.histories.get? ref = some commits → ref ≠ reference →
    ∀ c ∈ commits, ∃ r, index.records.get? c = some r

theorem IsComplete.beside (h : index.IsComplete) (reference : String) :
    index.IsCompleteBeside reference :=
  fun ref commits hget _ c hc => h c (mem_mentioned_iff.2 ⟨ref, commits, hget, hc⟩)

theorem refObservations_eq_ok_iff {ref : String} {commits : List CommitId}
    {o : List (String × TreeId)} :
    refObservations index ref commits = .ok o ↔
      (∀ c ∈ commits, ∃ r, index.records.get? c = some r) ∧ o = index.observed ref commits := by
  unfold refObservations
  rw [bind_eq_ok_iff]
  constructor
  · rintro ⟨installs, hinstalls, ho⟩
    obtain ⟨h, rfl⟩ := mapM_record_eq_ok_iff.1 hinstalls
    exact ⟨h, (Except.ok.inj ho).symm⟩
  · rintro ⟨h, rfl⟩
    exact ⟨_, mapM_record_eq_ok_iff.2 ⟨h, rfl⟩, rfl⟩

/-- Observing succeeds exactly if no record is missing. -/
theorem observations_eq_ok_iff {reference : String} {o : List (String × TreeId)} :
    observations index reference = .ok o ↔
      index.IsCompleteBeside reference ∧ o = index.observedBeside reference := by
  simp only [observations, bind_eq_ok_iff, mapM_eq_ok_iff fun e b => refObservations_eq_ok_iff,
    pure, Except.pure, Except.ok.injEq, mem_beside_iff]
  constructor
  · rintro ⟨-, ⟨h, rfl⟩, rfl⟩
    exact ⟨fun ref commits hget hne => h (ref, commits) ⟨hget, hne⟩, rfl⟩
  · rintro ⟨h, rfl⟩
    exact ⟨_, ⟨fun e he => h e.1 e.2 he.1 he.2, rfl⟩, rfl⟩

/-- What a ref shows under the key of one of its own directories. -/
theorem contentsAt_observed (ref path : String) (commits : List CommitId) :
    contentsAt (ref ++ path) (index.observed ref commits) = index.contentsOf commits path := by
  rw [observed, contentsAt_flatMap]
  induction commits with
  | nil => rfl
  | cons c commits ih =>
    have hc : contentsAt (ref ++ path)
        ((index.recordOf c).full.entries.map fun e => (ref ++ e.1, e.2)) =
          ((index.records.get? c).bind fun r => r.full.get? path).toList := by
      rw [contentsAt, List.filterMap_map]
      simp only [Function.comp_def, String.append_right_inj, SortedMap.filterMap_entries, recordOf]
      cases index.records.get? c <;> rfl
    rw [List.flatMap_cons, ih, hc, contentsOf, contentsOf, List.filterMap_cons]
    cases (index.records.get? c).bind fun r => r.full.get? path <;> rfl

/-- A ref shows something under a key only if the key is that of one of its directories. -/
theorem mem_contentsAt_observed_iff {key ref : String} {commits : List CommitId} {t : TreeId} :
    t ∈ contentsAt key (index.observed ref commits) ↔
      ∃ path, ref ++ path = key ∧ t ∈ index.contentsOf commits path := by
  constructor
  · -- A path can be told from the key once the ref is known, so there is just one.
    intro h
    have hobs := mem_contentsAt_iff.1 h
    simp only [observed, List.mem_flatMap, List.mem_map, Prod.mk.injEq] at hobs
    obtain ⟨-, -, e, -, rfl, -⟩ := hobs
    exact ⟨e.1, rfl, by rwa [contentsAt_observed] at h⟩
  · rintro ⟨path, rfl, h⟩
    rwa [contentsAt_observed]

end ContentIndex

/-! ### Subhistories -/

section Subhistories

variable {index : ContentIndex} {reference : String} {trunk : SortedMap CommitId}

/-- Subhistories can be told exactly if no record of another ref than the reference line is
missing. -/
theorem subhistories_eq_ok_iff {subs : SortedMap Subhistory} :
    subhistories index reference trunk = .ok subs ↔
      index.IsCompleteBeside reference ∧
        subs = (Subhistory.gather (index.observedBeside reference)).mapValues (·.locate trunk) := by
  rw [subhistories, map_eq_ok_iff]
  simp only [ContentIndex.observations_eq_ok_iff]
  constructor
  · rintro ⟨-, ⟨h, rfl⟩, rfl⟩
    exact ⟨h, rfl⟩
  · rintro ⟨h, rfl⟩
    exact ⟨_, ⟨h, rfl⟩, rfl⟩

/-- The subhistory under a key, if something was observed there. -/
theorem get?_subhistories {subs : SortedMap Subhistory}
    (h : subhistories index reference trunk = .ok subs) (key : String) :
    subs.get? key =
      let trees := contentsAt key (index.observedBeside reference)
      if trees = [] then none
      else some (Subhistory.locate trunk ⟨collapsed trees, none, none⟩) := by
  rw [(subhistories_eq_ok_iff.1 h).2, SortedMap.get?_mapValues, get?_gather]
  dsimp only
  split <;> rfl

/-- A key with a subhistory is made up of a ref and the path of one of its installs. -/
theorem exists_installs_of_get?_subhistories {subs : SortedMap Subhistory}
    (h : subhistories index reference trunk = .ok subs) {key : String} {s : Subhistory}
    (hs : subs.get? key = some s) :
    ∃ ref path, ref ≠ reference ∧ key = ref ++ path ∧ index.Installs ref path := by
  rw [get?_subhistories h] at hs
  dsimp only at hs
  split at hs
  · cases hs
  · rename_i hne
    obtain ⟨t, ht⟩ := List.exists_mem_of_ne_nil _ hne
    rw [ContentIndex.observedBeside, contentsAt_flatMap, List.mem_flatMap] at ht
    obtain ⟨e, he, ht⟩ := ht
    obtain ⟨hget, hbeside⟩ := ContentIndex.mem_beside_iff.1 he
    obtain ⟨path, rfl, hpath⟩ := ContentIndex.mem_contentsAt_observed_iff.1 ht
    refine ⟨e.1, path, hbeside, rfl, ContentIndex.contentsAlong_ne_nil_iff.1 ?_⟩
    rw [ContentIndex.contentsAlong, hget]
    exact List.ne_nil_of_mem hpath

end Subhistories

end ReleaseRecovery
