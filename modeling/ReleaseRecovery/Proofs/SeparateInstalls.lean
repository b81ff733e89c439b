import ReleaseRecovery.Proofs.Filling
import ReleaseRecovery.Proofs.ShallowestInstalls

/-!
# Installs apart from each other

No install of a record stands inside another one: what is found are directories with a marker, and
nothing below such a directory is searched. This needs names that can be names of directories, but
directories may contain themselves where the search does not get to.

## Main Definitions

* `InstallRecord.IsMatch` — a directory that a record counts on its own

## Main Statements

* `IsFoundBy.eq_of_isPrefix` — nothing that is found is inside of something else that is found
* `scan_separates` — how the installs of a commit stand to each other
-/

namespace ReleaseRecovery

variable {ρ : Type} [Repository ρ]

/-- A directory that a record counts on its own: a full install, or a copy of the marker directory
that is not the one inside a full install. -/
def InstallRecord.IsMatch (record : InstallRecord) (markers : Markers) (path : String) : Prop :=
  path ∈ record.full.keys ∨
    path ∈ record.partly.keys ∧
      ∀ full ∈ record.full.keys, path ≠ subpath full markers.directory

/-! ### Paths of what is found -/

section Found

variable {store : ρ} {markers : Markers} {top tree : TreeId} {path last key : String}
  {record : InstallRecord} {c : CommitId} {done : List Action}

/-- What a record of a search from the top has, by its paths: full installs, the marker directories
in them, and directories with the marker file alone. -/
structure IsFoundBy (store : ρ) (markers : Markers) (top : TreeId) (record : InstallRecord) :
    Prop where
  mem_full_iff : ∀ key, key ∈ record.full.keys ↔
    ∃ found, Visits store markers "/" top key found ∧ IsInstall store markers found
  mem_partly_iff : ∀ key, key ∈ record.partly.keys ↔
    (∃ full ∈ record.full.keys, key = InstallRecord.subpath full markers.directory) ∨
      ∃ found, Visits store markers "/" top key found ∧ ¬ IsInstall store markers found ∧
        HoldsMarkerFile store markers found

theorem isFoundBy_of_searchTree {room : Nat} (named : AreNamed store top)
    (h : ((searchTree store markers room top "/" .empty).after done).1 = .ok record) :
    IsFoundBy store markers top record := by
  have hasRoom := hasRoom_of_searchTree h
  have hfull (key : String) : key ∈ record.full.keys ↔
      ∃ found, Visits store markers "/" top key found ∧ IsInstall store markers found := by
    rw [(explores_searchTree h).keys]
    exact or_iff_right nofun
  refine ⟨hfull, fun key => ?_⟩
  rw [← foldl_noted_of_searchTree h, foldl_noted] at hfull ⊢
  simp only [hfull]
  rw [SortedMap.mem_keys_ofList_iff, List.map_filterMap, List.mem_filterMap]
  constructor
  · rintro ⟨⟨last, found⟩, hvisited, hkey⟩
    obtain ⟨⟨_, value⟩, hpart, rfl⟩ := Option.map_eq_some_iff.1 hkey
    have hvisits := (mem_visited_iff hasRoom).1 hvisited
    have names := named found (reflTransGen_of_visits hvisits)
    obtain ⟨hkey, hholds⟩ | ⟨rfl, -, hfile⟩ := (notedPart_eq_some_iff names).1 hpart
    · have hinstall := isInstall_iff_exists_holdsMarker.2 ⟨value, hholds⟩
      exact .inl ⟨last, ⟨found, hvisits, hinstall⟩, hkey⟩
    · exact .inr ⟨found, hvisits, hfile⟩
  · rintro (⟨last, ⟨found, hvisits, hinstall⟩, rfl⟩ | ⟨found, hvisits, hfile⟩)
    · have names := named found (reflTransGen_of_visits hvisits)
      obtain ⟨value, hholds⟩ := isInstall_iff_exists_holdsMarker.1 hinstall
      refine ⟨(last, found), (mem_visited_iff hasRoom).2 hvisits, ?_⟩
      rw [(notedPart_eq_some_iff names).2 (.inl ⟨rfl, hholds⟩)]
      rfl
    · have names := named found (reflTransGen_of_visits hvisits)
      refine ⟨(key, found), (mem_visited_iff hasRoom).2 hvisits, ?_⟩
      rw [(notedPart_eq_some_iff names).2 (.inr ⟨rfl, rfl, hfile⟩)]
      rfl

/-- What is found on its own is a directory visited with a marker in it. -/
theorem IsFoundBy.exists_visits (h : IsFoundBy store markers top record)
    (hmatch : record.IsMatch markers path) :
    ∃ found, Visits store markers "/" top path found ∧
      (IsInstall store markers found ∨ HoldsMarkerFile store markers found) := by
  obtain hfull | ⟨hpartly, hown⟩ := hmatch
  · obtain ⟨found, hvisits, hinstall⟩ := (h.mem_full_iff path).1 hfull
    exact ⟨found, hvisits, .inl hinstall⟩
  · obtain ⟨full, hfull, hpath⟩ | ⟨found, hvisits, -, hfile⟩ := (h.mem_partly_iff path).1 hpartly
    · exact absurd hpath (hown full hfull)
    · exact ⟨found, hvisits, .inr hfile⟩

/-- Nothing that is found is inside of something else that is found. -/
theorem IsFoundBy.eq_of_isPrefix (h : IsFoundBy store markers top record)
    (named : AreNamed store top) (hpath : record.IsMatch markers path)
    (hlast : record.IsMatch markers last) (hisPrefix : path.toList <+: last.toList) :
    path = last := by
  obtain ⟨found, hvisits, hmarked⟩ := h.exists_visits hpath
  obtain ⟨_, hvisits', -⟩ := h.exists_visits hlast
  obtain ⟨entries, hentries, hmarked⟩ := not_isScaffolding_of_marked hmarked
  exact (named.eq_of_isPrefix_of_marked hvisits hentries hmarked hvisits' hisPrefix).symm

/-- A path begins and ends with a slash. -/
def IsEnclosed (path : String) : Prop :=
  path.toList.head? = some '/' ∧ path.toList.getLast? = some '/'

theorem IsEnclosed.subpath (h : IsEnclosed path) (name : String) :
    IsEnclosed (InstallRecord.subpath path name) := by
  rw [IsEnclosed, toList_subpath, ← List.append_assoc]
  refine ⟨?_, List.getLast?_concat⟩
  rw [List.append_assoc, List.head?_append, h.1, Option.some_or]

theorem IsEnclosed.of_visits {found : TreeId} (h : IsEnclosed path)
    (hvisits : Visits store markers path tree last found) : IsEnclosed last := by
  induction hvisits with
  | here => exact h
  | through _ _ _ _ _ ih => exact ih (h.subpath _)

theorem isEnclosed_slash : IsEnclosed "/" := ⟨rfl, rfl⟩

theorem IsFoundBy.isEnclosed (h : IsFoundBy store markers top record)
    (hkey : key ∈ record.full.keys ∨ key ∈ record.partly.keys) : IsEnclosed key := by
  have hfull : ∀ full ∈ record.full.keys, IsEnclosed full := fun full hfull => by
    obtain ⟨found, hvisits, -⟩ := (h.mem_full_iff full).1 hfull
    exact isEnclosed_slash.of_visits hvisits
  obtain hkey | hkey := hkey
  · exact hfull key hkey
  · obtain ⟨full, hmem, rfl⟩ | ⟨found, hvisits, -⟩ := (h.mem_partly_iff key).1 hkey
    · exact (hfull full hmem).subpath _
    · exact isEnclosed_slash.of_visits hvisits

/-- Nothing but the directory that a search starts from is visited at its path. -/
theorem eq_of_visits_self {found : TreeId} (h : Visits store markers path tree path found) :
    found = tree := by
  cases h with
  | here => rfl
  | through _ _ _ _ hvisits =>
    exact absurd (isPrefix_of_visits hvisits) (not_subpath_isPrefix _ _)

theorem SortedMap.keys_eq_singleton {α : Type} {m : SortedMap α}
    (h : ∀ key', key' ∈ m.keys ↔ key' = key) : m.keys = [key] :=
  List.perm_singleton.1 ((List.perm_ext_iff_of_nodup m.nodup_keys (List.nodup_singleton key)).2
    fun key' => (h key').trans List.mem_singleton.symm)

/-- If the top is an install, it is all that is found. -/
theorem IsFoundBy.keys_of_top (h : IsFoundBy store markers top record)
    (htop : "/" ∈ record.full.keys) :
    record.full.keys = ["/"] ∧
      record.partly.keys = [InstallRecord.subpath "/" markers.directory] := by
  obtain ⟨found, hvisits, hinstall⟩ := (h.mem_full_iff "/").1 htop
  obtain rfl := eq_of_visits_self hvisits
  obtain ⟨entries, hentries, hmarked⟩ := not_isScaffolding_of_marked (.inl hinstall)
  have hfull (key : String) : key ∈ record.full.keys ↔ key = "/" := by
    rw [h.mem_full_iff]
    constructor
    · rintro ⟨found, hvisits, -⟩
      exact ((visits_iff_of_marked hentries hmarked).1 hvisits).1
    · rintro rfl
      exact ⟨_, .here, hinstall⟩
  refine ⟨SortedMap.keys_eq_singleton hfull, SortedMap.keys_eq_singleton fun key => ?_⟩
  rw [h.mem_partly_iff]
  simp only [hfull, exists_eq_left]
  refine or_iff_left ?_
  rintro ⟨found, hvisits, hinstall', -⟩
  obtain ⟨-, rfl⟩ := (visits_iff_of_marked hentries hmarked).1 hvisits
  exact hinstall' hinstall

end Found

/-- How the installs of a commit stand to each other. -/
theorem scan_separates (store : ρ) (markers : Markers) (c : CommitId)
    (names : ∀ tree entries, Repository.entries store tree = .ok entries →
      HasDirectoryNames entries) {record : InstallRecord} {done : List Action}
    (h : ((scan store markers c).after done).1 = .ok record) :
    (∀ path last, record.IsMatch markers path → record.IsMatch markers last →
      path.toList <+: last.toList → path = last) ∧
    (∀ full ∈ record.full.keys,
      InstallRecord.subpath full markers.directory ∈ record.partly.keys) ∧
    (∀ key, key ∈ record.full.keys ∨ key ∈ record.partly.keys → IsEnclosed key) ∧
    ("/" ∈ record.full.keys → record.full.keys = ["/"] ∧
      record.partly.keys = [InstallRecord.subpath "/" markers.directory]) := by
  obtain ⟨commit, hcommit, hsearch⟩ := Reading.after_bind_eq_ok_iff.1 h
  have named : AreNamed store commit.tree := fun tree _ => names tree
  have hfound := isFoundBy_of_searchTree named hsearch
  exact ⟨fun path last hpath hlast => hfound.eq_of_isPrefix named hpath hlast,
    fun full hfull => (hfound.mem_partly_iff _).2 (.inl ⟨full, hfull, rfl⟩),
    fun key hkey => hfound.isEnclosed hkey, hfound.keys_of_top⟩

/-- Two installs with names that begin alike, a third copy that has the marker file alone, and more
copies inside each of them. A directory contains itself. -/
def neighbours : Memory where
  logs := .empty
  commits := .ofList [("C1", "repository")]
  trees := .ofList
    [("repository", [⟨.tree, "a", "line"⟩, ⟨.tree, "ab", "line"⟩, ⟨.tree, "abc", "alone"⟩]),
    ("alone", [⟨.blob, "README", "b1"⟩, ⟨.tree, "a", "line"⟩]),
    ("line", [⟨.tree, "lib", "line"⟩, ⟨.tree, "vice", "v1"⟩]),
    ("v1", [⟨.blob, "README", "b1"⟩])]
  written := []
  refs := .empty

/-- Of the copies inside each other the outermost ones are found. -/
theorem scan_separates_neighbours :
    let markers : Markers := ⟨"vice", "README"⟩
    let record : InstallRecord :=
      ⟨.ofList [("/a/", "line"), ("/ab/", "line")],
        .ofList [("/a/vice/", "v1"), ("/ab/vice/", "v1"), ("/abc/", "alone")]⟩
    (∀ tree entries, Repository.entries neighbours tree = .ok entries →
      HasDirectoryNames entries) ∧
    ((scan neighbours markers "C1").after []).1 = .ok record ∧
    ∀ path last, record.IsMatch markers path → record.IsMatch markers last →
      path.toList <+: last.toList → path = last := by
  intro markers record
  have htrees : ∀ e ∈ neighbours.trees.entries, HasDirectoryNames e.2 := by decide +kernel
  have names (tree : TreeId) (entries : List Entry)
      (hentries : Repository.entries neighbours tree = .ok entries) : HasDirectoryNames entries :=
    htrees (tree, entries) (SortedMap.get?_eq_some_iff.1 (Memory.get?_of_lookUp hentries))
  have hscan : ((scan neighbours markers "C1").after []).1 = .ok record := by decide +kernel
  exact ⟨names, hscan, (scan_separates neighbours markers "C1" names hscan).1⟩

end ReleaseRecovery
