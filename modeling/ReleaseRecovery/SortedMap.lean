/-!
# Sorted maps

Finite maps from strings whose entries stand in ascending order of their keys, by code point.
Everything that is reported or saved is in this order, and two maps with the same look-ups are
equal.

## Main Definitions

* `SortedMap` — entries in strictly ascending key order
* `SortedMap.get?` — the value under a key: the view that the other operations are stated by
* `SortedMap.insert`, `SortedMap.ofList` — a later value replaces an earlier one
* `SortedMap.filterKeys`, `SortedMap.mapValues` — keep some keys, change every value

## Main Statements

* `SortedMap.get?_insert` — what one insertion does to every look-up
* `SortedMap.get?_ofList` — of several entries with one key the last one counts
* `SortedMap.ext_get?` — a map is determined by its look-ups
-/

namespace ReleaseRecovery

/-- A finite map from strings, with its entries in strictly ascending order of their keys. -/
structure SortedMap (α : Type) where
  entries : List (String × α)
  ascending : entries.Pairwise fun a b => a.1 < b.1

namespace SortedMap

variable {α β : Type}

@[ext] theorem ext {m n : SortedMap α} (h : m.entries = n.entries) : m = n := by
  cases m; cases n; cases h; rfl

instance [DecidableEq α] : DecidableEq (SortedMap α) := fun m n =>
  if h : m.entries = n.entries then isTrue (ext h) else isFalse fun e => h (congrArg _ e)

/-- The map without entries. -/
def empty : SortedMap α := ⟨[], List.Pairwise.nil⟩

instance : Inhabited (SortedMap α) := ⟨empty⟩

/-- The keys, ascending. -/
def keys (m : SortedMap α) : List String := m.entries.map Prod.fst

/-- The values, in the order of their keys. -/
def values (m : SortedMap α) : List α := m.entries.map Prod.snd

/-- The number of entries. -/
def size (m : SortedMap α) : Nat := m.entries.length

/-- The value under a key. -/
def get? (m : SortedMap α) (key : String) : Option α := m.entries.lookup key

/-- Whether a key has a value. -/
def contains (m : SortedMap α) (key : String) : Bool := (m.get? key).isSome

/-! ### Insertion -/

/-- Puts an entry at its place in an ascending list, in place of one with the same key. -/
def insertEntry (key : String) (value : α) : List (String × α) → List (String × α)
  | [] => [(key, value)]
  | (k, v) :: rest =>
    if key < k then (key, value) :: (k, v) :: rest
    else if key = k then (key, value) :: rest
    else (k, v) :: insertEntry key value rest

theorem mem_insertEntry {key : String} {value : α} {e : String × α} {l : List (String × α)} :
    e ∈ insertEntry key value l → e = (key, value) ∨ e ∈ l := by
  induction l with
  | nil => simp [insertEntry]
  | cons a rest ih =>
    obtain ⟨k, v⟩ := a
    simp only [insertEntry]
    split
    · simp
    · split
      · intro h
        rcases List.mem_cons.1 h with h | h
        · exact .inl h
        · exact .inr (List.mem_cons_of_mem _ h)
      · intro h
        rcases List.mem_cons.1 h with h | h
        · exact .inr (h ▸ List.mem_cons_self)
        · rcases ih h with h | h
          · exact .inl h
          · exact .inr (List.mem_cons_of_mem _ h)

theorem ascending_insertEntry (key : String) (value : α) {l : List (String × α)}
    (h : l.Pairwise fun a b => a.1 < b.1) :
    (insertEntry key value l).Pairwise fun a b => a.1 < b.1 := by
  induction l with
  | nil => simp [insertEntry]
  | cons a rest ih =>
    obtain ⟨k, v⟩ := a
    have hrest := (List.pairwise_cons.1 h).2
    have hfirst := (List.pairwise_cons.1 h).1
    simp only [insertEntry]
    split
    · rename_i hlt
      refine List.pairwise_cons.2 ⟨fun e he => ?_, h⟩
      rcases List.mem_cons.1 he with rfl | he
      · exact hlt
      · exact String.lt_trans hlt (hfirst e he)
    · split
      · rename_i heq
        subst heq
        exact List.pairwise_cons.2 ⟨hfirst, hrest⟩
      · rename_i hge hne
        refine List.pairwise_cons.2 ⟨fun e he => ?_, ih hrest⟩
        rcases mem_insertEntry he with rfl | he
        · exact String.not_le.1 fun hle => hne (String.le_antisymm hle (String.not_lt.1 hge))
        · exact hfirst e he

/-- The map with one key set to a value. -/
def insert (m : SortedMap α) (key : String) (value : α) : SortedMap α :=
  ⟨insertEntry key value m.entries, ascending_insertEntry key value m.ascending⟩

/-- The map of a list of entries; the last of several entries with one key counts. -/
def ofList (l : List (String × α)) : SortedMap α :=
  l.foldl (fun m e => m.insert e.1 e.2) empty

/-! ### Selection and change of values -/

/-- The entries whose key passes a test. -/
def filterKeys (m : SortedMap α) (p : String → Bool) : SortedMap α :=
  ⟨m.entries.filter fun e => p e.1, m.ascending.filter _⟩

/-- The map with every value changed. -/
def mapValues (f : α → β) (m : SortedMap α) : SortedMap β :=
  ⟨m.entries.map fun e => (e.1, f e.2), List.pairwise_map.2 m.ascending⟩

/-! ### Look-ups -/

@[simp] theorem get?_empty (key : String) : (empty : SortedMap α).get? key = none := rfl

theorem lookup_cons_eq_ite (k : String) (e : String × α) (l : List (String × α)) :
    (e :: l).lookup k = if k = e.1 then some e.2 else l.lookup k := by
  obtain ⟨k', v⟩ := e
  by_cases h : k = k'
  · simp [h]
  · simp [List.lookup_cons, h, beq_eq_false_iff_ne.2 h]

theorem lookup_insertEntry (key : String) (value : α) (l : List (String × α)) (k : String) :
    (insertEntry key value l).lookup k = if k = key then some value else l.lookup k := by
  induction l with
  | nil => simp only [insertEntry, lookup_cons_eq_ite, List.lookup_nil]
  | cons a rest ih =>
    simp only [insertEntry]
    split
    · simp only [lookup_cons_eq_ite]
    · split
      · rename_i heq
        simp only [lookup_cons_eq_ite, heq]
        by_cases h : k = a.1 <;> simp [h]
      · rename_i hne
        simp only [lookup_cons_eq_ite, ih]
        by_cases h : k = a.1
        · simp [h, show a.1 ≠ key from fun e => hne e.symm]
        · simp [h]

/-- An insertion sets its own key and leaves every other look-up as it was. -/
@[simp] theorem get?_insert (m : SortedMap α) (key : String) (value : α) (k : String) :
    (m.insert key value).get? k = if k = key then some value else m.get? k :=
  lookup_insertEntry key value m.entries k

theorem lookup_eq_some_iff {l : List (String × α)} (h : l.Pairwise fun a b => a.1 ≠ b.1)
    {key : String} {value : α} : l.lookup key = some value ↔ (key, value) ∈ l := by
  induction l with
  | nil => simp
  | cons a rest ih =>
    obtain ⟨hfirst, hrest⟩ := List.pairwise_cons.1 h
    rw [lookup_cons_eq_ite, List.mem_cons]
    by_cases hk : key = a.1
    · subst hk
      constructor
      · intro e
        rw [if_pos rfl] at e
        exact .inl (by rw [← Option.some.inj e])
      · rintro (e | e)
        · rw [if_pos rfl, ← e]
        · exact absurd rfl (hfirst (a.1, value) e)
    · have : (key, value) ≠ a := fun e => hk (e ▸ rfl)
      simp [hk, this, ih hrest]

/-- No two entries have the same key. -/
theorem distinct_entries (m : SortedMap α) : m.entries.Pairwise fun a b => a.1 ≠ b.1 :=
  m.ascending.imp fun {a b} (h : a.1 < b.1) (e : a.1 = b.1) => String.lt_irrefl b.1 (e ▸ h)

/-- A look-up finds exactly the entries of the map. -/
theorem get?_eq_some_iff {m : SortedMap α} {key : String} {value : α} :
    m.get? key = some value ↔ (key, value) ∈ m.entries :=
  lookup_eq_some_iff m.distinct_entries

theorem entries_ext {l r : List (String × α)} (hl : l.Pairwise fun a b => a.1 < b.1)
    (hr : r.Pairwise fun a b => a.1 < b.1) (h : ∀ e, e ∈ l ↔ e ∈ r) : l = r := by
  induction l generalizing r with
  | nil =>
    cases r with
    | nil => rfl
    | cons b r => exact absurd ((h b).2 List.mem_cons_self) (by simp)
  | cons a l ih =>
    cases r with
    | nil => exact absurd ((h a).1 List.mem_cons_self) (by simp)
    | cons b r =>
      have hl' := List.pairwise_cons.1 hl
      have hr' := List.pairwise_cons.1 hr
      have hab : a = b := by
        rcases List.mem_cons.1 ((h a).1 List.mem_cons_self) with e | ha
        · exact e
        · rcases List.mem_cons.1 ((h b).2 List.mem_cons_self) with e | hb
          · exact e.symm
          · exact absurd (hl'.1 b hb) (String.lt_asymm (hr'.1 a ha))
      subst hab
      rw [ih hl'.2 hr'.2 fun e => ?_]
      constructor
      · intro he
        rcases List.mem_cons.1 ((h e).1 (List.mem_cons_of_mem _ he)) with rfl | h'
        · exact absurd (hl'.1 _ he) (String.lt_irrefl _)
        · exact h'
      · intro he
        rcases List.mem_cons.1 ((h e).2 (List.mem_cons_of_mem _ he)) with rfl | h'
        · exact absurd (hr'.1 _ he) (String.lt_irrefl _)
        · exact h'

/-- A map is determined by its look-ups. -/
theorem ext_get? {m n : SortedMap α} (h : ∀ key, m.get? key = n.get? key) : m = n :=
  ext (entries_ext m.ascending n.ascending fun e => by
    rw [← get?_eq_some_iff (m := m), ← get?_eq_some_iff (m := n), h])

/-- A key has a value exactly if it is listed. -/
theorem mem_keys_iff {m : SortedMap α} {key : String} :
    key ∈ m.keys ↔ ∃ value, m.get? key = some value := by
  simp [keys, get?_eq_some_iff]

/-- The keys are strictly ascending. -/
theorem ascending_keys (m : SortedMap α) : m.keys.Pairwise (· < ·) :=
  List.pairwise_map.2 m.ascending

theorem nodup_keys (m : SortedMap α) : m.keys.Nodup := List.pairwise_map.2 m.distinct_entries

theorem length_keys (m : SortedMap α) : m.keys.length = m.size := List.length_map _

theorem get?_foldl_insert (l : List (String × α)) (m : SortedMap α) (key : String) :
    (l.foldl (fun m e => m.insert e.1 e.2) m).get? key =
      (l.reverse.lookup key).or (m.get? key) := by
  induction l generalizing m with
  | nil => simp
  | cons e rest ih =>
    rw [List.foldl_cons, ih, get?_insert, List.reverse_cons, List.lookup_append,
      lookup_cons_eq_ite, List.lookup_nil, Option.or_assoc]
    by_cases h : key = e.1 <;> simp [h]

/-- Of several entries with one key the last one counts. -/
@[simp] theorem get?_ofList (l : List (String × α)) (key : String) :
    (ofList l).get? key = l.reverse.lookup key := by
  rw [ofList, get?_foldl_insert, get?_empty, Option.or_none]

/-- Of entries with different keys all count. -/
theorem get?_ofList_eq_some_iff {l : List (String × α)} (h : l.Pairwise fun a b => a.1 ≠ b.1)
    {key : String} {value : α} : (ofList l).get? key = some value ↔ (key, value) ∈ l := by
  rw [get?_ofList, lookup_eq_some_iff (List.pairwise_reverse.2 (h.imp Ne.symm)), List.mem_reverse]

/-- A map is the map of its entries. -/
@[simp] theorem ofList_entries (m : SortedMap α) : ofList m.entries = m :=
  ext_get? fun key => by
    apply Option.ext
    intro value
    rw [get?_ofList_eq_some_iff m.distinct_entries, get?_eq_some_iff]

@[simp] theorem get?_filterKeys (m : SortedMap α) (p : String → Bool) (key : String) :
    (m.filterKeys p).get? key = if p key then m.get? key else none := by
  apply Option.ext
  intro value
  rw [get?_eq_some_iff]
  by_cases h : p key <;> simp [filterKeys, h, get?_eq_some_iff]

@[simp] theorem get?_mapValues (f : α → β) (m : SortedMap α) (key : String) :
    (m.mapValues f).get? key = (m.get? key).map f := by
  apply Option.ext
  intro value
  rw [get?_eq_some_iff, Option.map_eq_some_iff]
  simp only [mapValues, List.mem_map, get?_eq_some_iff, Prod.mk.injEq]
  constructor
  · rintro ⟨⟨k, v⟩, hm, rfl, rfl⟩
    exact ⟨v, hm, rfl⟩
  · rintro ⟨v, hm, rfl⟩
    exact ⟨(key, v), hm, rfl, rfl⟩

end SortedMap

end ReleaseRecovery
