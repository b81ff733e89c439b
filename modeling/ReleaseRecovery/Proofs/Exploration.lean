import Mathlib.Data.List.Basic
import ReleaseRecovery.Proofs.Search

/-!
# What a search finds

A search visits the directories that it gets to without passing one that carries a marker, and it
records every full install among them. Two of them may have the same path; then the record has one
of the two.

## Main Definitions

* `Markers.IsScaffolding` — a directory that the search goes through
* `Visits` — a search from one directory gets to another one
* `Searchable` — a search from a directory gets to an end with a given room
* `Explores` — what a search adds to a record

## Main Statements

* `explores_searchTree` — a search records every install that it visits, and nothing else
* `exists_searchTree` — a directory that is searchable can be searched
-/

namespace ReleaseRecovery

variable {ρ : Type} [Repository ρ]

/-- The entries of a directory that carries no marker. -/
def Markers.IsScaffolding (markers : Markers) (entries : List Entry) : Prop :=
  ∀ e ∈ entries, markers.isDirectory e = false ∧ markers.isFile e = false

/-- A search that has got to a directory at a path gets to another one at another path. -/
inductive Visits (store : ρ) (markers : Markers) :
    String → TreeId → String → TreeId → Prop
  | here {path : String} {tree : TreeId} : Visits store markers path tree path tree
  | through {path last : String} {tree found : TreeId} {entries : List Entry} {e : Entry} :
    Repository.entries store tree = .ok entries → markers.IsScaffolding entries →
      e ∈ entries → e.kind = .tree →
      Visits store markers (InstallRecord.subpath path e.name) e.id last found →
      Visits store markers path tree last found

/-- All directories that a search visits can be read, and there is room for as many of them as stand
inside each other. -/
inductive Searchable (store : ρ) (markers : Markers) : Nat → TreeId → Prop
  | intro {room : Nat} {tree : TreeId} {entries : List Entry} :
    Repository.entries store tree = .ok entries →
      (markers.IsScaffolding entries →
        ∀ e ∈ entries, e.kind = .tree → Searchable store markers room e.id) →
      Searchable store markers (room + 1) tree

/-- What a search adds to a record: some value for every path of an install that it visits. -/
structure Explores (store : ρ) (markers : Markers) (path : String) (tree : TreeId)
    (record record' : InstallRecord) : Prop where
  keys : ∀ last, last ∈ record'.full.keys ↔ last ∈ record.full.keys ∨
    ∃ found, Visits store markers path tree last found ∧ IsInstall store markers found
  sound : ∀ last found, record'.full.get? last = some found →
    record.full.get? last = some found ∨
      Visits store markers path tree last found ∧ IsInstall store markers found

/-- A name in a path ends at the slash behind it. -/
theorem takeWhile_append_slash {cs rest : List Char} (h : '/' ∉ cs) :
    (cs ++ '/' :: rest).takeWhile (· != '/') = cs := by
  have hne : ∀ c ∈ cs, (c != '/') = true := fun c hc => bne_iff_ne.2 fun heq => h (heq ▸ hc)
  rw [List.takeWhile_append_of_pos hne, List.takeWhile_cons, if_neg (by decide), List.append_nil]

theorem SortedMap.mem_keys_insert {α : Type} {m : SortedMap α} {key key' : String} {value : α} :
    key' ∈ (m.insert key value).keys ↔ key' = key ∨ key' ∈ m.keys := by
  simp only [mem_keys_iff, get?_insert]
  split
  · rename_i heq
    exact ⟨fun _ => .inl heq, fun _ => ⟨value, rfl⟩⟩
  · rename_i hne
    exact ⟨.inr, fun h => h.resolve_left hne⟩

section Search

variable {store : ρ} {markers : Markers} {path last : String} {tree found : TreeId}
  {entries : List Entry} {record record' : InstallRecord} {done : List Action}

/-- A search gets to a directory itself, and from scaffolding to what it gets to from the
directories inside it. -/
theorem visits_iff (hentries : Repository.entries store tree = .ok entries) :
    Visits store markers path tree last found ↔ (last = path ∧ found = tree) ∨
      markers.IsScaffolding entries ∧ ∃ e ∈ entries, e.kind = .tree ∧
        Visits store markers (InstallRecord.subpath path e.name) e.id last found := by
  constructor
  · intro h
    cases h with
    | here => exact .inl ⟨rfl, rfl⟩
    | through hentries' hscaffolding hmem hkind h =>
      obtain rfl := Except.ok.inj (hentries.symm.trans hentries')
      exact .inr ⟨hscaffolding, _, hmem, hkind, h⟩
  · rintro (⟨rfl, rfl⟩ | ⟨hscaffolding, e, hmem, hkind, h⟩)
    · exact .here
    · exact .through hentries hscaffolding hmem hkind h

theorem isInstall_iff (hentries : Repository.entries store tree = .ok entries) :
    IsInstall store markers tree ↔ ∃ e ∈ entries, markers.isDirectory e = true := by
  simp only [IsInstall, Markers.isDirectory_iff]
  constructor
  · rintro ⟨entries', hentries', e, he⟩
    obtain rfl := Except.ok.inj (hentries.symm.trans hentries')
    exact ⟨e, he⟩
  · rintro ⟨e, he⟩
    exact ⟨entries, hentries, e, he⟩

theorem Markers.isScaffolding_iff : markers.IsScaffolding entries ↔
    entries.find? markers.isDirectory = none ∧ entries.any markers.isFile = false := by
  simp only [IsScaffolding, List.find?_eq_none, List.any_eq_false, Bool.not_eq_true]
  exact forall₂_and

/-- Searching one directory: it carries the marker directory, or only the marker file, or else the
directories inside it are searched. -/
theorem searchTree_eq_ok_iff {room : Nat} :
    ((searchTree store markers (room + 1) tree path record).after done).1 = .ok record' ↔
      ∃ entries, ((Reading.entries store tree).after done).1 = .ok entries ∧
        ((∃ marker, entries.find? markers.isDirectory = some marker ∧
            record.addFull markers path tree marker.id = record') ∨
          entries.find? markers.isDirectory = none ∧
            (entries.any markers.isFile = true ∧ record.addPartial path tree = record' ∨
              entries.any markers.isFile = false ∧
                (((entries.filter (·.kind == .tree)).reverse.foldlM
                  (fun record e => searchTree store markers room e.id
                    (InstallRecord.subpath path e.name) record) record).after
                  (.entries tree :: done)).1 = .ok record')) := by
  rw [searchTree, Reading.after_bind_eq_ok_iff]
  refine exists_congr fun entries => and_congr_right fun _ => ?_
  cases entries.find? markers.isDirectory with
  | some marker => simp
  | none => cases entries.any markers.isFile <;> simp [Reading.entries]

/-- Searching some directories one after the other. -/
theorem explores_foldlM {room : Nat} {l : List Entry}
    (step : ∀ e ∈ l, ∀ record record' done,
      ((searchTree store markers room e.id (InstallRecord.subpath path e.name) record).after
        done).1 = .ok record' →
      Explores store markers (InstallRecord.subpath path e.name) e.id record record')
    (h : ((l.foldlM (fun record e => searchTree store markers room e.id
      (InstallRecord.subpath path e.name) record) record).after done).1 = .ok record') :
    (∀ last, last ∈ record'.full.keys ↔ last ∈ record.full.keys ∨
      ∃ found, ∃ e ∈ l, Visits store markers (InstallRecord.subpath path e.name) e.id last found ∧
        IsInstall store markers found) ∧
    ∀ last found, record'.full.get? last = some found →
      record.full.get? last = some found ∨
        ∃ e ∈ l, Visits store markers (InstallRecord.subpath path e.name) e.id last found ∧
          IsInstall store markers found := by
  induction l generalizing record done with
  | nil =>
    obtain rfl := Except.ok.inj h
    exact ⟨fun last => by simp, fun last found hget => .inl hget⟩
  | cons e l ih =>
    rw [List.foldlM_cons] at h
    obtain ⟨record₁, hfirst, hrest⟩ := Reading.after_bind_eq_ok_iff.1 h
    have first := step e List.mem_cons_self record record₁ done hfirst
    obtain ⟨hkeys, hsound⟩ := ih (fun e he => step e (List.mem_cons_of_mem _ he)) hrest
    refine ⟨fun last => ?_, fun last found hget => ?_⟩
    · simp only [List.exists_mem_cons_iff, exists_or]
      rw [hkeys, first.keys, or_assoc]
    · rw [List.exists_mem_cons_iff, ← or_assoc]
      exact (hsound last found hget).imp_left (first.sound last found)

/-- A search does not get past a directory with a marker. -/
theorem visits_iff_of_marked (hentries : Repository.entries store tree = .ok entries)
    (hmarked : ¬ markers.IsScaffolding entries) :
    Visits store markers path tree last found ↔ last = path ∧ found = tree :=
  (visits_iff hentries).trans (or_iff_left fun h => hmarked h.1)

/-- A directory with the marker directory is an install, and nothing inside it is visited. -/
theorem explores_addFull {marker : Entry}
    (hentries : Repository.entries store tree = .ok entries)
    (hfind : entries.find? markers.isDirectory = some marker) :
    Explores store markers path tree record (record.addFull markers path tree marker.id) := by
  have hmem := List.mem_of_find?_eq_some hfind
  have hmarker := List.find?_some hfind
  have hinstall : IsInstall store markers tree :=
    (isInstall_iff hentries).2 ⟨marker, hmem, hmarker⟩
  have hmarked : ¬ markers.IsScaffolding entries := fun h =>
    Bool.eq_false_iff.1 (h marker hmem).1 hmarker
  constructor
  · intro last
    simp only [InstallRecord.addFull, SortedMap.mem_keys_insert,
      visits_iff_of_marked hentries hmarked]
    constructor
    · rintro (rfl | hold)
      · exact .inr ⟨tree, ⟨rfl, rfl⟩, hinstall⟩
      · exact .inl hold
    · rintro (hold | ⟨found, ⟨rfl, -⟩, -⟩)
      · exact .inr hold
      · exact .inl rfl
  · intro last found hget
    rw [visits_iff_of_marked hentries hmarked]
    rw [InstallRecord.addFull, SortedMap.get?_insert] at hget
    split at hget
    · rename_i heq
      obtain rfl := Option.some.inj hget
      exact .inr ⟨⟨heq, rfl⟩, hinstall⟩
    · exact .inl hget

/-- A directory with the marker file alone is no install, and nothing inside it is visited. -/
theorem explores_addPartial (hentries : Repository.entries store tree = .ok entries)
    (hinstall : ¬ IsInstall store markers tree) (hfile : entries.any markers.isFile = true) :
    Explores store markers path tree record (record.addPartial path tree) := by
  have hmarked : ¬ markers.IsScaffolding entries := fun h =>
    Bool.eq_false_iff.1 (Markers.isScaffolding_iff.1 h).2 hfile
  refine ⟨fun last => ⟨.inl, ?_⟩, fun last found hget => .inl hget⟩
  rintro (hold | ⟨found, hvisits, hfound⟩)
  · exact hold
  · obtain ⟨-, rfl⟩ := (visits_iff_of_marked hentries hmarked).1 hvisits
    exact absurd hfound hinstall

/-- The installs that are visited from a directory without markers are visited from one of the
directories inside it. -/
theorem exists_visits_inside_iff (hentries : Repository.entries store tree = .ok entries)
    (hinstall : ¬ IsInstall store markers tree) (hscaffolding : markers.IsScaffolding entries) :
    (∃ e ∈ (entries.filter (·.kind == .tree)).reverse,
        Visits store markers (InstallRecord.subpath path e.name) e.id last found ∧
          IsInstall store markers found) ↔
      Visits store markers path tree last found ∧ IsInstall store markers found := by
  simp only [List.mem_reverse, List.mem_filter, beq_iff_eq]
  rw [visits_iff hentries]
  constructor
  · rintro ⟨e, ⟨he, hkind⟩, hvisits, hfound⟩
    exact ⟨.inr ⟨hscaffolding, e, he, hkind, hvisits⟩, hfound⟩
  · rintro ⟨⟨-, rfl⟩ | ⟨-, e, he, hkind, hvisits⟩, hfound⟩
    · exact absurd hfound hinstall
    · exact ⟨e, ⟨he, hkind⟩, hvisits, hfound⟩

/-- A search records every install that it visits, and nothing else. -/
theorem explores_searchTree {room : Nat}
    (h : ((searchTree store markers room tree path record).after done).1 = .ok record') :
    Explores store markers path tree record record' := by
  induction room generalizing tree path record record' done with
  | zero => cases h
  | succ room ih =>
    obtain ⟨entries, hanswer, hcases⟩ := searchTree_eq_ok_iff.1 h
    have hentries : Repository.entries store tree = .ok entries :=
      Reading.answer_of_after_ask hanswer
    obtain ⟨marker, hfind, rfl⟩ | ⟨hnone, hrest⟩ := hcases
    · exact explores_addFull hentries hfind
    have hinstall : ¬ IsInstall store markers tree := by
      rw [isInstall_iff hentries]
      rintro ⟨e, he, hmarker⟩
      exact List.find?_eq_none.1 hnone e he hmarker
    obtain ⟨hfile, rfl⟩ | ⟨hfile, hfold⟩ := hrest
    · exact explores_addPartial hentries hinstall hfile
    · obtain ⟨hkeys, hsound⟩ := explores_foldlM (fun e _ record record' done => ih) hfold
      simp only [exists_visits_inside_iff hentries hinstall
        (Markers.isScaffolding_iff.2 ⟨hnone, hfile⟩)] at hkeys hsound
      exact ⟨hkeys, hsound⟩

/-- A calculation over a list comes to something if every step does. -/
theorem Reading.exists_of_foldlM {α β : Type} {f : β → α → Reading β} {l : List α}
    (step : ∀ a ∈ l, ∀ b done, ∃ b', ((f b a).after done).1 = .ok b') (b : β)
    (done : List Action) : ∃ b', ((l.foldlM f b).after done).1 = .ok b' := by
  induction l generalizing b done with
  | nil => exact ⟨b, rfl⟩
  | cons a l ih =>
    obtain ⟨b₁, hfirst⟩ := step a List.mem_cons_self b done
    obtain ⟨b', hrest⟩ := ih (fun a ha => step a (List.mem_cons_of_mem _ ha)) b₁
      ((f b a).after done).2
    rw [List.foldlM_cons]
    exact ⟨b', Reading.after_bind_eq_ok_iff.2 ⟨b₁, hfirst, hrest⟩⟩

/-- A directory that is searchable can be searched. -/
theorem exists_searchTree (reachable : Reachable store) {room : Nat}
    (searchable : Searchable store markers room tree) (path : String) (record : InstallRecord)
    (done : List Action) :
    ∃ record', ((searchTree store markers room tree path record).after done).1 = .ok record' := by
  induction searchable generalizing path record done with
  | @intro room tree entries hentries _ ih =>
    have hanswer : ((Reading.entries store tree).after done).1 = .ok entries := by
      rw [Reading.entries, Reading.after_ask, reachable done]
      exact hentries
    -- One of the three cases of the search applies.
    simp only [searchTree_eq_ok_iff]
    cases hfind : entries.find? markers.isDirectory with
    | some marker => exact ⟨_, entries, hanswer, .inl ⟨marker, hfind, rfl⟩⟩
    | none =>
      cases hfile : entries.any markers.isFile with
      | true => exact ⟨_, entries, hanswer, .inr ⟨hfind, .inl ⟨hfile, rfl⟩⟩⟩
      | false =>
        obtain ⟨record', hrecord'⟩ := Reading.exists_of_foldlM (fun e he record done => by
          obtain ⟨hmem, hkind⟩ := List.mem_filter.1 (List.mem_reverse.1 he)
          exact ih (Markers.isScaffolding_iff.2 ⟨hfind, hfile⟩) e hmem (beq_iff_eq.1 hkind)
            (InstallRecord.subpath path e.name) record done) record (.entries tree :: done)
        exact ⟨record', entries, hanswer, .inr ⟨hfind, .inr ⟨hfile, hrecord'⟩⟩⟩

end Search

end ReleaseRecovery
