import Mathlib.Data.List.Nodup
import ReleaseRecovery.Proofs.VisitedDirectories

/-!
# Directories that can be told by their paths

Below a directory without cycles, whose names can be names of directories, no two directories that
a search visits are at the same path. So nothing that a search notes is overwritten, and its record
has a full install at the path of every directory visited with the marker directory in it, a copy at
the path of that marker directory, and a copy at the path of every directory visited with the marker
file alone.

## Main Definitions

* `HasDirectoryNames` — directories have names, and no two have the same
* `AreNamed` — so it is for every directory below a directory
* `IsTidy` — no directory contains itself, either
* `HoldsMarker`, `HoldsMarkerFile` — the markers in a directory

## Main Statements

* `nodup_visited` — no two directories visited are at one path
* `AreNamed.eq_of_isPrefix_of_marked` — nothing is visited below a directory with a marker
* `get?_full_noted_iff`, `get?_partly_noted_iff` — what the notes come to
-/

namespace ReleaseRecovery

variable {ρ : Type} [Repository ρ]

/-! ### Names -/

/-- The directories inside a directory have names without a slash, and no two have the same. -/
structure HasDirectoryNames (entries : List Entry) : Prop where
  noSlash : ∀ e ∈ entries, e.kind = .tree → '/' ∉ e.name.toList
  distinct : ((entries.filter (·.kind == .tree)).map (·.name)).Nodup

instance (entries : List Entry) : Decidable (HasDirectoryNames entries) :=
  decidable_of_iff ((∀ e ∈ entries, e.kind = .tree → '/' ∉ e.name.toList) ∧
    ((entries.filter (·.kind == .tree)).map (·.name)).Nodup)
    ⟨fun h => ⟨h.1, h.2⟩, fun h => ⟨h.noSlash, h.distinct⟩⟩

/-- The directories inside each directory below a directory can be told by their names. -/
def AreNamed (store : ρ) (root : TreeId) : Prop :=
  ∀ tree, Relation.ReflTransGen (Contains store) root tree →
    ∀ entries, Repository.entries store tree = .ok entries → HasDirectoryNames entries

/-- No directory below a directory contains itself, and the directories inside each of them can be
told by their names. -/
structure IsTidy (store : ρ) (root : TreeId) : Prop where
  acyclic : IsAcyclic store root
  named : AreNamed store root

section Names

variable {store : ρ} {markers : Markers} {root tree inner : TreeId} {entries : List Entry}

theorem AreNamed.inside (h : AreNamed store tree) (hcontains : Contains store tree inner) :
    AreNamed store inner :=
  fun found hfound => h found (.head hcontains hfound)

theorem IsTidy.inside (h : IsTidy store tree) (hcontains : Contains store tree inner) :
    IsTidy store inner :=
  ⟨fun found hfound => h.acyclic found (.head hcontains hfound), h.named.inside hcontains⟩

/-- Directories that are the smaller the deeper they are do not contain themselves. -/
theorem isTidy_of_rank (rank : TreeId → Nat)
    (h : ∀ tree entries, Repository.entries store tree = .ok entries →
      HasDirectoryNames entries ∧ ∀ e ∈ entries, e.kind = .tree → rank e.id < rank tree) :
    IsTidy store root := by
  have hrank {outer inner : TreeId} (hbelow : Relation.TransGen (Contains store) outer inner) :
      rank inner < rank outer := by
    have hstep {outer inner : TreeId} (hcontains : Contains store outer inner) :
        rank inner < rank outer := by
      obtain ⟨entries, hentries, e, he, hkind, rfl⟩ := hcontains
      exact (h outer entries hentries).2 e he hkind
    induction hbelow with
    | single hcontains => exact hstep hcontains
    | tail _ hcontains ih => exact Nat.lt_trans (hstep hcontains) ih
  exact ⟨fun tree _ hself => Nat.lt_irrefl _ (hrank hself),
    fun tree _ entries hentries => (h tree entries hentries).1⟩

theorem HasDirectoryNames.eq_of_name_eq (names : HasDirectoryNames entries) {e e' : Entry}
    (he : e ∈ entries) (hkind : e.kind = .tree) (he' : e' ∈ entries) (hkind' : e'.kind = .tree)
    (hname : e.name = e'.name) : e = e' :=
  List.inj_on_of_nodup_map names.distinct (List.mem_filter.2 ⟨he, beq_iff_eq.2 hkind⟩)
    (List.mem_filter.2 ⟨he', beq_iff_eq.2 hkind'⟩) hname

theorem HasDirectoryNames.pairwise_inside (names : HasDirectoryNames entries) (markers : Markers) :
    (markers.inside entries).Pairwise fun e e' => e.name ≠ e'.name := by
  unfold Markers.inside
  split
  · exact List.pairwise_reverse.2 ((List.pairwise_map.1 names.distinct).imp Ne.symm)
  · exact .nil

/-- The marker directory is the only directory of its name. -/
theorem HasDirectoryNames.find?_eq_some_iff (names : HasDirectoryNames entries) {marker : Entry} :
    entries.find? markers.isDirectory = some marker ↔
      marker ∈ entries ∧ marker.kind = .tree ∧ marker.name = markers.directory := by
  constructor
  · intro h
    exact ⟨List.mem_of_find?_eq_some h, Markers.isDirectory_iff.1 (List.find?_some h)⟩
  · rintro ⟨hmem, hkind, hname⟩
    cases hfind : entries.find? markers.isDirectory with
    | none =>
      have hno := List.find?_eq_none.1 hfind marker hmem
      exact absurd (Markers.isDirectory_iff.2 ⟨hkind, hname⟩) hno
    | some found =>
      obtain ⟨hkind', hname'⟩ := Markers.isDirectory_iff.1 (List.find?_some hfind)
      rw [names.eq_of_name_eq (List.mem_of_find?_eq_some hfind) hkind' hmem hkind
        (hname'.trans hname.symm)]

end Names

/-! ### Paths -/

theorem toList_subpath (path name : String) :
    (InstallRecord.subpath path name).toList = path.toList ++ (name.toList ++ ['/']) := by
  rw [InstallRecord.subpath, String.toList_append, String.toList_append, List.append_assoc]
  rfl

theorem isPrefix_subpath (path name : String) :
    path.toList <+: (InstallRecord.subpath path name).toList := by
  rw [toList_subpath]
  exact List.prefix_append _ _

/-- A path is longer than that of the directory around it. -/
theorem not_subpath_isPrefix (path name : String) :
    ¬ (InstallRecord.subpath path name).toList <+: path.toList := by
  intro h
  have hlength := h.length_le
  rw [toList_subpath, List.length_append, List.length_append, List.length_singleton] at hlength
  omega

/-- The name behind a path can be told from what follows. -/
theorem name_eq_of_isPrefix {path name name' : String} {l : List Char} (hname : '/' ∉ name.toList)
    (hname' : '/' ∉ name'.toList) (h : (InstallRecord.subpath path name).toList <+: l)
    (h' : (InstallRecord.subpath path name').toList <+: l) : name = name' := by
  rw [toList_subpath] at h h'
  obtain ⟨rest, rfl⟩ := h
  obtain ⟨rest', hrest⟩ := h'
  rw [List.append_assoc, List.append_assoc, List.append_assoc, List.append_assoc,
    List.append_cancel_left_eq] at hrest
  have htake := congrArg (List.takeWhile (· != '/')) hrest
  rw [List.singleton_append, List.singleton_append, takeWhile_append_slash hname',
    takeWhile_append_slash hname] at htake
  exact (String.toList_inj.1 htake).symm

section Paths

variable {store : ρ} {markers : Markers} {path last last' : String} {tree found found' : TreeId}
  {room : Nat} {entries : List Entry}

/-- What is visited from a directory is below it. -/
theorem isPrefix_of_visits (h : Visits store markers path tree last found) :
    path.toList <+: last.toList := by
  induction h with
  | here => exact List.prefix_refl _
  | through _ _ _ _ _ ih => exact (isPrefix_subpath _ _).trans ih

/-- No two directories visited are at one path. -/
theorem nodup_visited (hasRoom : HasRoom store markers room tree) (tidy : IsTidy store tree) :
    ((visited store markers room path tree).map Prod.fst).Nodup := by
  induction hasRoom generalizing path with
  | @intro room tree hinside ih =>
    cases hentries : Repository.entries store tree with
    | error e =>
      rw [visited_of_error hentries]
      exact List.nodup_singleton path
    | ok entries =>
      have names := tidy.named tree .refl entries hentries
      -- What is visited below a directory inside is visited at a path with its name.
      have hbelow {e : Entry} (he : e ∈ markers.inside entries) {last : String}
          (hlast : last ∈ (visited store markers room (InstallRecord.subpath path e.name)
            e.id).map Prod.fst) :
          (InstallRecord.subpath path e.name).toList <+: last.toList := by
        obtain ⟨hscaffolding, hmem, hkind⟩ := Markers.mem_inside_iff.1 he
        obtain ⟨⟨_, found⟩, hvisited, rfl⟩ := List.mem_map.1 hlast
        exact isPrefix_of_visits
          ((mem_visited_iff (hinside entries hentries hscaffolding e hmem hkind)).1 hvisited)
      rw [visited_of_ok hentries, List.map_cons, List.map_flatMap, List.nodup_cons,
        List.nodup_flatMap]
      refine ⟨fun hpath => ?_, fun e he => ?_, ?_⟩
      · obtain ⟨e, he, hpath⟩ := List.mem_flatMap.1 hpath
        exact not_subpath_isPrefix path e.name (hbelow he hpath)
      · obtain ⟨hscaffolding, hmem, hkind⟩ := Markers.mem_inside_iff.1 he
        exact ih entries hentries hscaffolding e hmem hkind
          (tidy.inside ⟨entries, hentries, e, hmem, hkind, rfl⟩)
      · refine (names.pairwise_inside markers).imp_of_mem fun he he' hne last hlast hlast' => ?_
        obtain ⟨-, hmem, hkind⟩ := Markers.mem_inside_iff.1 he
        obtain ⟨-, hmem', hkind'⟩ := Markers.mem_inside_iff.1 he'
        exact hne (name_eq_of_isPrefix (names.noSlash _ hmem hkind) (names.noSlash _ hmem' hkind')
          (hbelow he hlast) (hbelow he' hlast'))

/-- Nothing is visited below a directory with a marker. -/
theorem AreNamed.eq_of_isPrefix_of_marked (named : AreNamed store tree)
    (hvisits : Visits store markers path tree last found)
    (hentries : Repository.entries store found = .ok entries)
    (hmarked : ¬ markers.IsScaffolding entries)
    (hvisits' : Visits store markers path tree last' found')
    (hisPrefix : last.toList <+: last'.toList) : last' = last := by
  induction hvisits with
  | here => exact ((visits_iff_of_marked hentries hmarked).1 hvisits').1
  | @through path last tree found outer e houter hscaffolding hmem hkind hvisits ih =>
    have hlast := isPrefix_of_visits hvisits
    obtain ⟨rfl, rfl⟩ | ⟨-, e', hmem', hkind', hvisits'⟩ := (visits_iff houter).1 hvisits'
    · exact absurd (hlast.trans hisPrefix) (not_subpath_isPrefix _ e.name)
    · have names := named tree .refl outer houter
      have hname : e.name = e'.name := name_eq_of_isPrefix (names.noSlash e hmem hkind)
        (names.noSlash e' hmem' hkind') (hlast.trans hisPrefix) (isPrefix_of_visits hvisits')
      obtain rfl := names.eq_of_name_eq hmem hkind hmem' hkind' hname
      exact ih (named.inside ⟨outer, houter, e, hmem, hkind, rfl⟩) hentries hvisits' hisPrefix

end Paths

/-! ### Notes -/

/-- A directory directly contains the marker directory, with some contents. -/
def HoldsMarker (store : ρ) (markers : Markers) (tree marker : TreeId) : Prop :=
  ∃ entries, Repository.entries store tree = .ok entries ∧
    ⟨.tree, markers.directory, marker⟩ ∈ entries

/-- A directory directly contains the marker file. -/
def HoldsMarkerFile (store : ρ) (markers : Markers) (tree : TreeId) : Prop :=
  ∃ entries, Repository.entries store tree = .ok entries ∧
    ∃ e ∈ entries, e.kind = .blob ∧ e.name = markers.file

/-- The full install that is noted of a directory at a path. -/
def notedFull (store : ρ) (markers : Markers) (v : String × TreeId) : Option (String × TreeId) :=
  match Repository.entries store v.2 with
  | .error _ => none
  | .ok entries => (entries.find? markers.isDirectory).map fun _ => v

/-- The marker directory that is noted of a directory at a path: the one inside it, or itself. -/
def notedPart (store : ρ) (markers : Markers) (v : String × TreeId) : Option (String × TreeId) :=
  match Repository.entries store v.2 with
  | .error _ => none
  | .ok entries =>
    match entries.find? markers.isDirectory with
    | some marker => some (InstallRecord.subpath v.1 markers.directory, marker.id)
    | none => if entries.any markers.isFile then some v else none

section Notes

variable {store : ρ} {markers : Markers} {root tree : TreeId} {path : String}

theorem isInstall_iff_exists_holdsMarker :
    IsInstall store markers tree ↔ ∃ marker, HoldsMarker store markers tree marker := by
  constructor
  · rintro ⟨entries, hentries, ⟨kind, name, marker⟩, hmem, rfl, rfl⟩
    exact ⟨marker, entries, hentries, hmem⟩
  · rintro ⟨marker, entries, hentries, hmem⟩
    exact ⟨entries, hentries, _, hmem, rfl, rfl⟩

theorem holdsMarker_iff {entries : List Entry} {marker : TreeId}
    (hentries : Repository.entries store tree = .ok entries) (names : HasDirectoryNames entries) :
    HoldsMarker store markers tree marker ↔
      ∃ e, entries.find? markers.isDirectory = some e ∧ e.id = marker := by
  simp only [names.find?_eq_some_iff]
  constructor
  · rintro ⟨entries', hentries', hmem⟩
    obtain rfl := Except.ok.inj (hentries.symm.trans hentries')
    exact ⟨_, ⟨hmem, rfl, rfl⟩, rfl⟩
  · rintro ⟨⟨kind, name, id⟩, ⟨hmem, rfl, rfl⟩, rfl⟩
    exact ⟨entries, hentries, hmem⟩

theorem holdsMarkerFile_iff {entries : List Entry}
    (hentries : Repository.entries store tree = .ok entries) :
    HoldsMarkerFile store markers tree ↔ entries.any markers.isFile = true := by
  simp only [List.any_eq_true, Markers.isFile, Bool.and_eq_true, beq_iff_eq]
  constructor
  · rintro ⟨entries', hentries', hfile⟩
    obtain rfl := Except.ok.inj (hentries.symm.trans hentries')
    exact hfile
  · intro hfile
    exact ⟨entries, hentries, hfile⟩

/-- A search does not go on below a directory with a marker. -/
theorem not_isScaffolding_of_marked
    (h : IsInstall store markers tree ∨ HoldsMarkerFile store markers tree) :
    ∃ entries, Repository.entries store tree = .ok entries ∧ ¬ markers.IsScaffolding entries := by
  obtain ⟨entries, hentries, e, he, hkind, hname⟩ | ⟨entries, hentries, e, he, hkind, hname⟩ := h
  · refine ⟨entries, hentries, fun hscaffolding => ?_⟩
    exact Bool.eq_false_iff.1 (hscaffolding e he).1 (Markers.isDirectory_iff.2 ⟨hkind, hname⟩)
  · refine ⟨entries, hentries, fun hscaffolding => ?_⟩
    have hfile := (hscaffolding e he).2
    rw [Markers.isFile, hkind, hname, beq_self_eq_true, beq_self_eq_true] at hfile
    cases hfile

theorem notedFull_eq_some_iff {v w : String × TreeId} :
    notedFull store markers v = some w ↔ w = v ∧ IsInstall store markers v.2 := by
  unfold notedFull
  cases hentries : Repository.entries store v.2 with
  | error e =>
    refine iff_of_false (by simp) ?_
    rintro ⟨-, entries, hentries', -⟩
    rw [hentries] at hentries'
    cases hentries'
  | ok entries =>
    rw [isInstall_iff hentries, ← List.find?_isSome, Option.isSome_iff_exists]
    dsimp only
    rw [Option.map_eq_some_iff]
    constructor
    · rintro ⟨marker, hfind, rfl⟩
      exact ⟨rfl, marker, hfind⟩
    · rintro ⟨rfl, marker, hfind⟩
      exact ⟨marker, hfind, rfl⟩

theorem notedPart_eq_some_iff (names : ∀ entries, Repository.entries store tree = .ok entries →
    HasDirectoryNames entries) {key : String} {value : TreeId} :
    notedPart store markers (path, tree) = some (key, value) ↔
      (key = InstallRecord.subpath path markers.directory ∧
        HoldsMarker store markers tree value) ∨
      (key = path ∧ value = tree ∧ ¬ IsInstall store markers tree ∧
        HoldsMarkerFile store markers tree) := by
  unfold notedPart
  cases hentries : Repository.entries store tree with
  | error e =>
    refine iff_of_false (by simp) ?_
    rintro (⟨-, entries, hentries', -⟩ | ⟨-, -, -, entries, hentries', -⟩) <;>
    · rw [hentries] at hentries'
      cases hentries'
  | ok entries =>
    rw [isInstall_iff_exists_holdsMarker]
    simp only [holdsMarker_iff hentries (names entries hentries), holdsMarkerFile_iff hentries]
    cases hfind : entries.find? markers.isDirectory with
    | some marker =>
      simp only [Option.some.injEq, Prod.mk.injEq, exists_eq_left', not_exists]
      constructor
      · rintro ⟨rfl, rfl⟩
        exact .inl ⟨rfl, rfl⟩
      · rintro (⟨rfl, rfl⟩ | ⟨-, -, hnone, -⟩)
        · exact ⟨rfl, rfl⟩
        · exact absurd rfl (hnone marker.id)
    | none =>
      simp only [reduceCtorEq, false_and, exists_false, and_false, false_or, not_false_eq_true,
        true_and, Option.ite_none_right_eq_some, Option.some.injEq, Prod.mk.injEq]
      constructor
      · rintro ⟨hfile, rfl, rfl⟩
        exact ⟨rfl, rfl, hfile⟩
      · rintro ⟨rfl, rfl, hfile⟩
        exact ⟨hfile, rfl, rfl⟩

/-- The notes on some directories, one after the other, are the entries of two maps. -/
theorem foldl_noted (l : List (String × TreeId)) :
    l.foldl (noted store markers) .empty =
      ⟨.ofList (l.filterMap (notedFull store markers)),
        .ofList (l.filterMap (notedPart store markers))⟩ := by
  have hfold (record : InstallRecord) : l.foldl (noted store markers) record =
      ⟨(l.filterMap (notedFull store markers)).foldl (fun m e => m.insert e.1 e.2) record.full,
        (l.filterMap (notedPart store markers)).foldl (fun m e => m.insert e.1 e.2)
          record.partly⟩ := by
    induction l generalizing record with
    | nil => rfl
    | cons v l ih =>
      rw [List.foldl_cons, ih, List.filterMap_cons, List.filterMap_cons]
      unfold noted notedFull notedPart
      cases Repository.entries store v.2 with
      | error e => rfl
      | ok entries =>
        dsimp only
        cases entries.find? markers.isDirectory with
        | some marker => rfl
        | none => cases entries.any markers.isFile <;> rfl
  exact hfold .empty

end Notes

/-! ### Records -/

section Records

variable {store : ρ} {markers : Markers} {path last last' key : String}
  {tree found found' value : TreeId} {room : Nat}

theorem reflTransGen_of_visits (h : Visits store markers path tree last found) :
    Relation.ReflTransGen (Contains store) tree found := by
  induction h with
  | here => exact .refl
  | through hentries _ hmem hkind _ ih => exact .head ⟨_, hentries, _, hmem, hkind, rfl⟩ ih

/-- The full installs noted are those visited. -/
theorem get?_full_noted_iff (hasRoom : HasRoom store markers room tree)
    (tidy : IsTidy store tree) :
    ((visited store markers room path tree).foldl (noted store markers) .empty).full.get? key =
        some value ↔
      Visits store markers path tree key value ∧ IsInstall store markers value := by
  have hfull (v w : String × TreeId) : w ∈ notedFull store markers v →
      w = v := fun hw => (notedFull_eq_some_iff.1 hw).1
  have distinct : ((visited store markers room path tree).filterMap
      (notedFull store markers)).Pairwise fun v w => v.1 ≠ w.1 := by
    rw [List.pairwise_filterMap]
    refine (List.pairwise_map.1 (nodup_visited hasRoom tidy)).imp fun hne w hw w' hw' => ?_
    rwa [hfull _ w hw, hfull _ w' hw']
  rw [foldl_noted, SortedMap.get?_ofList_eq_some_iff distinct, List.mem_filterMap]
  simp only [notedFull_eq_some_iff]
  constructor
  · rintro ⟨v, hv, rfl, hinstall⟩
    exact ⟨(mem_visited_iff hasRoom).1 hv, hinstall⟩
  · rintro ⟨hvisits, hinstall⟩
    exact ⟨(key, value), (mem_visited_iff hasRoom).2 hvisits, rfl, hinstall⟩

/-- The path of a marker directory inside an install is that of no directory visited. -/
theorem subpath_ne_of_visits (tidy : IsTidy store tree)
    (hvisits : Visits store markers path tree last found)
    (hholds : HoldsMarker store markers found value)
    (hvisits' : Visits store markers path tree last' found') :
    InstallRecord.subpath last markers.directory ≠ last' := by
  rintro rfl
  obtain ⟨entries, hentries, hmarked⟩ :=
    not_isScaffolding_of_marked (.inl (isInstall_iff_exists_holdsMarker.2 ⟨_, hholds⟩))
  have heq := tidy.named.eq_of_isPrefix_of_marked hvisits hentries hmarked hvisits'
    (isPrefix_subpath _ _)
  exact not_subpath_isPrefix last markers.directory (heq.symm ▸ List.prefix_refl last.toList)

theorem subpath_injective {last last' name : String}
    (h : InstallRecord.subpath last name = InstallRecord.subpath last' name) : last = last' := by
  have hlist := congrArg String.toList h
  rw [toList_subpath, toList_subpath, List.append_cancel_right_eq] at hlist
  exact String.toList_inj.1 hlist

/-- The markers noted have paths of their own. -/
theorem distinct_notedPart (hasRoom : HasRoom store markers room tree)
    (tidy : IsTidy store tree) :
    ((visited store markers room path tree).filterMap
      (notedPart store markers)).Pairwise fun v w => v.1 ≠ w.1 := by
  rw [List.pairwise_filterMap]
  refine (List.pairwise_map.1 (nodup_visited hasRoom tidy)).imp_of_mem ?_
  rintro ⟨last, found⟩ ⟨last', found'⟩ hmem hmem' hne ⟨key, value⟩ hnoted ⟨key', value'⟩ hnoted'
  have hvisits := (mem_visited_iff hasRoom).1 hmem
  have hvisits' := (mem_visited_iff hasRoom).1 hmem'
  have hnoted := (notedPart_eq_some_iff (tidy.named _ (reflTransGen_of_visits hvisits))).1 hnoted
  have hnoted' :=
    (notedPart_eq_some_iff (tidy.named _ (reflTransGen_of_visits hvisits'))).1 hnoted'
  dsimp only at hne ⊢
  obtain ⟨rfl, hholds⟩ | ⟨rfl, -⟩ := hnoted <;> obtain ⟨rfl, hholds'⟩ | ⟨rfl, -⟩ := hnoted'
  · exact fun h => hne (subpath_injective h)
  · exact subpath_ne_of_visits tidy hvisits hholds hvisits'
  · exact (subpath_ne_of_visits tidy hvisits' hholds' hvisits).symm
  · exact hne

/-- The markers noted are those in the installs visited, and the directories visited with the marker
file alone. -/
theorem get?_partly_noted_iff (hasRoom : HasRoom store markers room tree)
    (tidy : IsTidy store tree) :
    ((visited store markers room path tree).foldl (noted store markers) .empty).partly.get? key =
        some value ↔
      (∃ last found, Visits store markers path tree last found ∧
        key = InstallRecord.subpath last markers.directory ∧
          HoldsMarker store markers found value) ∨
      Visits store markers path tree key value ∧ ¬ IsInstall store markers value ∧
        HoldsMarkerFile store markers value := by
  rw [foldl_noted, SortedMap.get?_ofList_eq_some_iff (distinct_notedPart hasRoom tidy),
    List.mem_filterMap]
  have hnoted {last : String} {found : TreeId}
      (hvisits : Visits store markers path tree last found) :
      notedPart store markers (last, found) = some (key, value) ↔ _ :=
    notedPart_eq_some_iff (tidy.named _ (reflTransGen_of_visits hvisits))
  constructor
  · rintro ⟨⟨last, found⟩, hmem, hpart⟩
    have hvisits := (mem_visited_iff hasRoom).1 hmem
    obtain ⟨hkey, hholds⟩ | ⟨rfl, rfl, hfile⟩ := (hnoted hvisits).1 hpart
    · exact .inl ⟨last, found, hvisits, hkey, hholds⟩
    · exact .inr ⟨hvisits, hfile⟩
  · rintro (⟨last, found, hvisits, hkey, hholds⟩ | ⟨hvisits, hfile⟩)
    · exact ⟨(last, found), (mem_visited_iff hasRoom).2 hvisits,
        (hnoted hvisits).2 (.inl ⟨hkey, hholds⟩)⟩
    · exact ⟨(key, value), (mem_visited_iff hasRoom).2 hvisits,
        (hnoted hvisits).2 (.inr ⟨rfl, rfl, hfile⟩)⟩

end Records

end ReleaseRecovery
