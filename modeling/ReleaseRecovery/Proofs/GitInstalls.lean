import Mathlib.Data.List.Dedup
import Mathlib.Logic.Relation
import ReleaseRecovery.Proofs.Exploration
import ReleaseRecovery.Proofs.Rerunning
import ReleaseRecovery.Proofs.Utf8

/-!
# The installs of a commit

In a store of objects the names of files are bytes, and a directory of a commit is told by the names
on the way to it. Its path is made of the same names as they are shown, and there two ways can look
alike. A commit that can be read to its end is scanned, and its record has the path of every install
that no marker above it hides; it has as many installs as the commit exactly if all of them are at
different paths, which they are if all names are texts.

## Main Definitions

* `Git.Store.IsWhole` — a directory can be read to its end
* `Git.Store.Stands` — a directory stands below another one, with no marker above it
* `Git.Store.IsInstallAt` — an install stands below a directory
* `Git.Store.shownPath` — the path at which a directory is recorded

## Main Statements

* `Git.Store.searchable_of_isWhole` — there is room for a directory that can be read to its end
* `Git.Store.scan_installs` — the installs that are recorded for a commit
* `Git.Store.not_forall_scan_installs` — one of two installs can be missing
-/

namespace ReleaseRecovery.Git

/-! ### Directories of bytes -/

namespace TreeEntry

/-- Whether an entry is shown as the marker directory. -/
def isMarkerDirectory (markers : Markers) (e : TreeEntry) : Bool :=
  e.isTree && Utf8.decodeLossy e.name == markers.directory

/-- Whether an entry is shown as the marker file. -/
def isMarkerFile (markers : Markers) (e : TreeEntry) : Bool :=
  !e.isTree && !e.isForeign && Utf8.decodeLossy e.name == markers.file

/-- The names in a directory can be names of files: each has something in it, no slash is part of
one, and no two are the same. -/
structure AreProper (entries : List TreeEntry) : Prop where
  nonempty : ∀ e ∈ entries, e.name ≠ []
  noSlash : ∀ e ∈ entries, Ascii.slash ∉ e.name
  distinct : (entries.map TreeEntry.name).Nodup

variable {markers : Markers} {e : TreeEntry} {entries : List TreeEntry}

/-- The marker directory is told by its bytes, unless its name has a replacement in it. -/
theorem isMarkerDirectory_iff (h : '\uFFFD' ∉ markers.directory.toList) :
    e.isMarkerDirectory markers = true ↔
      e.isTree = true ∧ e.name = Utf8.encode markers.directory := by
  rw [isMarkerDirectory, Bool.and_eq_true, beq_iff_eq, Utf8.decodeLossy_eq_iff h]

theorem isTree_mk (name : Bytes) (inner : Id) : isTree ⟨0o40000, name, inner⟩ = true := by
  simp [isTree]

theorem answer?_of_isTree (h : e.isTree = true) :
    e.answer? = some ⟨.tree, Utf8.decodeLossy e.name, e.id.hex⟩ := by
  have hmode : e.mode / 0o10000 = 0o4 := beq_iff_eq.1 h
  have hforeign : e.isForeign = false := by
    rw [isForeign, hmode]
    rfl
  rw [answer?, hforeign, h]
  rfl

/-- The directories inside a directory, as they are shown. -/
theorem mem_answers_tree_iff {shown : Entry} :
    shown ∈ entries.filterMap answer? ∧ shown.kind = .tree ↔
      ∃ e ∈ entries, e.isTree = true ∧ shown = ⟨.tree, Utf8.decodeLossy e.name, e.id.hex⟩ := by
  rw [List.mem_filterMap]
  constructor
  · rintro ⟨⟨e, he, hshown⟩, hkind⟩
    have htree : e.isTree = true := by
      rw [answer?] at hshown
      split at hshown
      · cases hshown
      · obtain rfl := Option.some.inj hshown
        by_contra hfile
        dsimp only at hkind
        rw [if_neg hfile] at hkind
        cases hkind
    rw [answer?_of_isTree htree] at hshown
    exact ⟨e, he, htree, (Option.some.inj hshown).symm⟩
  · rintro ⟨e, he, htree, rfl⟩
    exact ⟨⟨e, he, answer?_of_isTree htree⟩, rfl⟩

theorem isTree_of_isForeign (h : e.isForeign = true) : e.isTree = false := by
  have hmode : e.mode / 0o10000 = 0o16 := beq_iff_eq.1 h
  rw [isTree, hmode]
  rfl

/-- An entry is a marker exactly if it is shown as one. -/
theorem isMarker_of_answer? (markers : Markers) {shown : Entry} (h : e.answer? = some shown) :
    markers.isDirectory shown = e.isMarkerDirectory markers ∧
      markers.isFile shown = e.isMarkerFile markers := by
  rw [answer?] at h
  split at h
  · cases h
  · rename_i hforeign
    rw [Bool.not_eq_true] at hforeign
    obtain rfl := Option.some.inj h
    rw [Markers.isDirectory, Markers.isFile, isMarkerDirectory, isMarkerFile, hforeign]
    cases e.isTree <;> exact ⟨rfl, rfl⟩

theorem isMarker_of_answer?_eq_none (h : e.answer? = none) :
    e.isMarkerDirectory markers = false ∧ e.isMarkerFile markers = false := by
  rw [answer?] at h
  split at h
  · rename_i hforeign
    rw [isMarkerDirectory, isMarkerFile, isTree_of_isForeign hforeign, hforeign]
    exact ⟨rfl, rfl⟩
  · cases h

/-- The markers among the entries, as they are shown. -/
theorem isScaffolding_answers_iff : markers.IsScaffolding (entries.filterMap answer?) ↔
    ∀ e ∈ entries, e.isMarkerDirectory markers = false ∧ e.isMarkerFile markers = false := by
  simp only [Markers.IsScaffolding, List.mem_filterMap, forall_exists_index, and_imp]
  constructor
  · intro h e he
    cases hshown : e.answer? with
    | none => exact isMarker_of_answer?_eq_none hshown
    | some shown =>
      obtain ⟨hdirectory, hfile⟩ := isMarker_of_answer? markers hshown
      exact hdirectory ▸ hfile ▸ h shown e he hshown
  · intro h shown e he hshown
    obtain ⟨hdirectory, hfile⟩ := isMarker_of_answer? markers hshown
    exact hdirectory ▸ hfile ▸ h e he

end TreeEntry

namespace Store

/-! ### Ways to installs -/

/-- A directory can be read to its end: it and all directories inside it are there, with proper
names. -/
inductive IsWhole (s : Store) : Id → Prop
  | intro {id : Id} {entries : List TreeEntry} : s.findTree id id.hex = .ok entries →
    TreeEntry.AreProper entries → (∀ e ∈ entries, e.isTree = true → IsWhole s e.id) → IsWhole s id

/-- A directory stands below another one at the end of a way of names, and no directory before it on
the way contains a marker. -/
inductive Stands (s : Store) (markers : Markers) : Id → List Bytes → Id → Prop
  | here {id : Id} : Stands s markers id [] id
  | inside {id found : Id} {entries : List TreeEntry} {e : TreeEntry} {way : List Bytes} :
    s.findTree id id.hex = .ok entries →
      (∀ e ∈ entries, e.isMarkerDirectory markers = false ∧ e.isMarkerFile markers = false) →
      e ∈ entries → e.isTree = true → Stands s markers e.id way found →
      Stands s markers id (e.name :: way) found

/-- A directory that directly contains the marker directory stands at the end of a way of names,
and no directory before it on the way contains a marker. -/
structure IsInstallAt (s : Store) (markers : Markers) (top : Id) (way : List Bytes) (id : Id) :
    Prop where
  stands : s.Stands markers top way id
  marked : ∃ entries, s.findTree id id.hex = .ok entries ∧
    ∃ e ∈ entries, e.isMarkerDirectory markers = true

/-- The path that follows another one at the end of a way of names. -/
def shownPath (path : String) (way : List Bytes) : String :=
  way.foldl (fun path name => InstallRecord.subpath path (Utf8.decodeLossy name)) path

variable {s : Store} {markers : Markers} {id found : Id} {entries : List TreeEntry}

theorem entries_hex (h : s.findTree id id.hex = .ok entries) :
    Repository.entries s id.hex = .ok (entries.filterMap TreeEntry.answer?) := by
  have hid : parseId id.hex = .ok id := by rw [parseId, Id.ofText?_hex]
  refine bind_eq_ok_iff.2 ⟨id, hid, bind_eq_ok_iff.2 ⟨entries, h, rfl⟩⟩

theorem exists_findTree_of_entries {shown : List Entry}
    (h : Repository.entries s id.hex = .ok shown) :
    ∃ entries, s.findTree id id.hex = .ok entries ∧
      shown = entries.filterMap TreeEntry.answer? := by
  obtain ⟨id', hid', h⟩ := bind_eq_ok_iff.1 h
  rw [parseId, Id.ofText?_hex] at hid'
  obtain rfl := Except.ok.inj hid'
  obtain ⟨entries, hentries, h⟩ := bind_eq_ok_iff.1 h
  exact ⟨entries, hentries, (Except.ok.inj h).symm⟩

theorem isInstall_hex_iff : IsInstall s markers id.hex ↔
    ∃ entries, s.findTree id id.hex = .ok entries ∧
      ∃ e ∈ entries, e.isMarkerDirectory markers = true := by
  constructor
  · rintro ⟨shown, hshown, e, he, hmarker⟩
    obtain ⟨entries, hentries, rfl⟩ := exists_findTree_of_entries hshown
    obtain ⟨e', he', hanswer⟩ := List.mem_filterMap.1 he
    refine ⟨entries, hentries, e', he', ?_⟩
    rw [← (TreeEntry.isMarker_of_answer? markers hanswer).1]
    exact Markers.isDirectory_iff.2 hmarker
  · rintro ⟨entries, hentries, e, he, hmarker⟩
    cases hanswer : e.answer? with
    | none =>
      rw [(TreeEntry.isMarker_of_answer?_eq_none hanswer).1] at hmarker
      cases hmarker
    | some shown =>
      refine ⟨_, entries_hex hentries, shown, List.mem_filterMap.2 ⟨e, he, hanswer⟩, ?_⟩
      rw [← Markers.isDirectory_iff, (TreeEntry.isMarker_of_answer? markers hanswer).1, hmarker]

/-- What a search visits stands at the end of some way, and is visited at the path of that way. -/
theorem visits_hex_iff {path last : String} {tree : TreeId} :
    Visits s markers path id.hex last tree ↔
      ∃ way found, s.Stands markers id way found ∧ last = shownPath path way ∧
        tree = found.hex := by
  constructor
  · intro h
    generalize htop : id.hex = top at h
    induction h generalizing id with
    | here => exact ⟨[], id, .here, rfl, htop.symm⟩
    | @through path last top tree shown e hshown hscaffolding hmem hkind _ ih =>
      subst htop
      obtain ⟨entries, hentries, rfl⟩ := exists_findTree_of_entries hshown
      obtain ⟨e', he', htree, rfl⟩ := TreeEntry.mem_answers_tree_iff.1 ⟨hmem, hkind⟩
      obtain ⟨way, found, hstands, hlast, hfound⟩ := ih rfl
      exact ⟨e'.name :: way, found,
        .inside hentries (TreeEntry.isScaffolding_answers_iff.1 hscaffolding) he' htree hstands,
        hlast, hfound⟩
  · rintro ⟨way, found, hstands, rfl, rfl⟩
    induction hstands generalizing path with
    | here => exact .here
    | @inside id found entries e way hentries hunmarked he htree _ ih =>
      obtain ⟨hmem, hkind⟩ := TreeEntry.mem_answers_tree_iff.2 ⟨e, he, htree, rfl⟩
      exact .through (entries_hex hentries) (TreeEntry.isScaffolding_answers_iff.2 hunmarked) hmem
        hkind ih

/-! ### Room enough -/

/-- A directory stands directly inside another one. -/
def Holds (s : Store) (outer inner : Id) : Prop :=
  ∃ entries, s.findTree outer outer.hex = .ok entries ∧
    ∃ e ∈ entries, e.isTree = true ∧ e.id = inner

/-- A directory is one of the objects, or the one that is always there. -/
def IsThere (s : Store) (id : Id) : Prop :=
  id = emptyTree ∨ ∃ o, s.objects.get? id.hex = some o

theorem findTree_emptyTree (s : Store) (given : String) : s.findTree emptyTree given = .ok [] := by
  rw [findTree, find, object?, if_pos rfl]
  dsimp only
  rw [if_neg (by decide), TreeEntry.decodeAll?, if_pos rfl]

theorem isThere_of_findTree (h : s.findTree id id.hex = .ok entries) : s.IsThere id := by
  by_cases hempty : id = emptyTree
  · exact .inl hempty
  · refine .inr ?_
    rw [findTree, find, object?, if_neg hempty] at h
    cases hget : s.objects.get? id.hex with
    | some o => exact ⟨o, rfl⟩
    | none =>
      rw [hget] at h
      dsimp only at h
      split at h <;> cases h

/-- A directory that can be read to its end does not stand inside itself. -/
theorem not_transGen_holds_self (whole : s.IsWhole id) : ¬ Relation.TransGen s.Holds id id := by
  induction whole with
  | @intro id entries hentries _ _ ih =>
    intro h
    obtain ⟨inner, ⟨entries', hentries', e, he, htree, rfl⟩, hback⟩ :=
      Relation.TransGen.head'_iff.1 h
    obtain rfl := Except.ok.inj (hentries.symm.trans hentries')
    -- Going round from the directory inside comes to the same.
    exact ih e he htree (Relation.TransGen.tail' hback ⟨entries, hentries, e, he, htree, rfl⟩)

/-- There are not more directories than objects, but for the one that is always there. -/
theorem length_le_of_isThere {ids : List Id} (nodup : ids.Nodup)
    (there : ∀ id ∈ ids, s.IsThere id) :
    ids.length ≤ s.objects.size + 1 := by
  have hstored : ((ids.erase emptyTree).map Id.hex).length ≤ s.objects.size := by
    refine SortedMap.length_le_size ?_ fun hex hhex => ?_
    · exact List.pairwise_map.2 ((nodup.erase emptyTree).imp fun hne heq => hne (Id.hex_inj.1 heq))
    · obtain ⟨id, hid, rfl⟩ := List.mem_map.1 hhex
      obtain ⟨hne, hmem⟩ := nodup.mem_erase_iff.1 hid
      exact (there id hmem).resolve_left hne
  rw [List.length_map] at hstored
  have herase : ids.length - 1 ≤ (ids.erase emptyTree).length := List.le_length_erase
  omega

/-- A directory that can be read to its end can be searched below other ones, if there is room for
as many more as there are objects. -/
theorem searchable_below {above : List Id} {room : Nat} (whole : s.IsWhole id)
    (nodup : above.Nodup) (habove : ∀ a ∈ above, s.IsThere a ∧ Relation.TransGen s.Holds a id)
    (hroom : s.objects.size + 2 ≤ room + above.length) :
    Searchable s markers room id.hex := by
  induction whole generalizing above room with
  | @intro id entries hentries proper hinside ih =>
    have whole : s.IsWhole id := .intro hentries proper hinside
    have hlength := length_le_of_isThere nodup fun a ha => (habove a ha).1
    obtain ⟨room, rfl⟩ : ∃ n, room = n + 1 := ⟨room - 1, by omega⟩
    refine .intro (entries_hex hentries) fun _ shown hmem hkind => ?_
    obtain ⟨e, he, htree, rfl⟩ := TreeEntry.mem_answers_tree_iff.1 ⟨hmem, hkind⟩
    have hholds : s.Holds id e.id := ⟨entries, hentries, e, he, htree, rfl⟩
    have nodup' : (id :: above).Nodup :=
      List.nodup_cons.2 ⟨fun hid => not_transGen_holds_self whole (habove id hid).2, nodup⟩
    refine ih e he htree nodup' ?_ ?_
    · exact List.forall_mem_cons.2 ⟨⟨isThere_of_findTree hentries, .single hholds⟩,
        fun a ha => ⟨(habove a ha).1, (habove a ha).2.tail hholds⟩⟩
    · rw [List.length_cons]
      omega

/-- There is room for a directory that can be read to its end. -/
theorem searchable_of_isWhole (whole : s.IsWhole id) :
    Searchable s markers (Repository.depth s) id.hex :=
  searchable_below whole List.nodup_nil nofun (Nat.le_refl _)

/-! ### Counting installs -/

theorem isInstallAt_iff {way : List Bytes} (hentries : s.findTree id id.hex = .ok entries) :
    s.IsInstallAt markers id way found ↔
      (way = [] ∧ found = id ∧ ∃ e ∈ entries, e.isMarkerDirectory markers = true) ∨
      (∀ e ∈ entries, e.isMarkerDirectory markers = false ∧ e.isMarkerFile markers = false) ∧
        ∃ e ∈ entries, ∃ way', way = e.name :: way' ∧
          e.isTree = true ∧ s.IsInstallAt markers e.id way' found := by
  constructor
  · rintro ⟨hstands, hmarked⟩
    cases hstands with
    | here =>
      obtain ⟨entries', hentries', hmarker⟩ := hmarked
      obtain rfl := Except.ok.inj (hentries.symm.trans hentries')
      exact .inl ⟨rfl, rfl, hmarker⟩
    | @inside _ _ _ e way hentries' hunmarked he htree hstands =>
      obtain rfl := Except.ok.inj (hentries.symm.trans hentries')
      exact .inr ⟨hunmarked, e, he, way, rfl, htree, hstands, hmarked⟩
  · rintro (⟨rfl, rfl, hmarker⟩ | ⟨hunmarked, e, he, way, rfl, htree, hinstall⟩)
    · exact ⟨.here, entries, hentries, hmarker⟩
    · exact ⟨.inside hentries hunmarked he htree hinstall.stands, hinstall.marked⟩

/-- What can be listed for every entry of a directory can be listed for all of them, one name
deeper, since no two of them have the same name. -/
theorem exists_list_inside {P : TreeEntry → List Bytes → Id → Prop}
    (distinct : (entries.map TreeEntry.name).Nodup)
    (h : ∀ e ∈ entries, ∃ l : List (List Bytes × Id), (l.map Prod.fst).Nodup ∧
      ∀ way found, (way, found) ∈ l ↔ P e way found) :
    ∃ l : List (List Bytes × Id), (l.map Prod.fst).Nodup ∧ ∀ way found, (way, found) ∈ l ↔
      ∃ e ∈ entries, ∃ way', way = e.name :: way' ∧ P e way' found := by
  induction entries with
  | nil => exact ⟨[], List.nodup_nil, by simp⟩
  | cons e rest ih =>
    rw [List.map_cons, List.nodup_cons] at distinct
    rw [List.forall_mem_cons] at h
    obtain ⟨hnew, distinct⟩ := distinct
    obtain ⟨⟨first, hfirst, hmemFirst⟩, h⟩ := h
    obtain ⟨others, hothers, hmemOthers⟩ := ih distinct h
    have hdeeper (way : List Bytes) (found : Id) :
        (way, found) ∈ first.map (fun p => (e.name :: p.1, p.2)) ↔
          ∃ way', way = e.name :: way' ∧ P e way' found := by
      rw [List.mem_map]
      constructor
      · rintro ⟨⟨way', found'⟩, hmem, heq⟩
        obtain ⟨rfl, rfl⟩ := Prod.mk.inj heq
        exact ⟨way', rfl, (hmemFirst way' found').1 hmem⟩
      · rintro ⟨way', rfl, hP⟩
        exact ⟨(way', found), (hmemFirst way' found).2 hP, rfl⟩
    refine ⟨first.map (fun p => (e.name :: p.1, p.2)) ++ others, ?_, fun way found => ?_⟩
    · have hways : (first.map fun p => (e.name :: p.1, p.2)).map Prod.fst =
          (first.map Prod.fst).map (e.name :: ·) := by
        rw [List.map_map, List.map_map]
        rfl
      rw [List.map_append, hways]
      refine List.nodup_append'.2 ⟨hfirst.map fun _ _ heq => (List.cons.inj heq).2, hothers, ?_⟩
      intro way hmem hmem'
      obtain ⟨way', -, rfl⟩ := List.mem_map.1 hmem
      obtain ⟨⟨_, found⟩, hother, rfl⟩ := List.mem_map.1 hmem'
      obtain ⟨e', he', way'', hway, -⟩ := (hmemOthers _ found).1 hother
      exact hnew (List.mem_map.2 ⟨e', he', (List.cons.inj hway).1.symm⟩)
    · rw [List.mem_append, hdeeper, hmemOthers, List.exists_mem_cons_iff]

/-- The installs below a directory that can be read to its end, each once. -/
theorem exists_installs (whole : s.IsWhole id) (markers : Markers) :
    ∃ installs : List (List Bytes × Id), (installs.map Prod.fst).Nodup ∧
      ∀ way found, (way, found) ∈ installs ↔ s.IsInstallAt markers id way found := by
  induction whole with
  | @intro id entries hentries proper _ ih =>
    by_cases hmarker : ∃ e ∈ entries, e.isMarkerDirectory markers = true
    · refine ⟨[([], id)], List.nodup_singleton _, fun way found => ?_⟩
      rw [isInstallAt_iff hentries, List.mem_singleton, Prod.mk.injEq, or_iff_left]
      · exact and_congr_right fun _ => (and_iff_left hmarker).symm
      · rintro ⟨hunmarked, -⟩
        obtain ⟨e, he, hmarker⟩ := hmarker
        exact Bool.eq_false_iff.1 (hunmarked e he).1 hmarker
    by_cases hunmarked : ∀ e ∈ entries,
        e.isMarkerDirectory markers = false ∧ e.isMarkerFile markers = false
    · obtain ⟨inside, hinside, hmem⟩ := exists_list_inside
        (P := fun e way found => e.isTree = true ∧ s.IsInstallAt markers e.id way found)
        proper.distinct fun e he => by
          by_cases htree : e.isTree = true
          · obtain ⟨l, hl, hmem⟩ := ih e he htree
            exact ⟨l, hl, fun way found => (hmem way found).trans (and_iff_right htree).symm⟩
          · exact ⟨[], List.nodup_nil, by simp [htree]⟩
      refine ⟨inside, hinside, fun way found => ?_⟩
      rw [hmem, isInstallAt_iff hentries, or_iff_right fun h => hmarker h.2.2,
        and_iff_right hunmarked]
    · refine ⟨[], List.nodup_nil, fun way found => ?_⟩
      rw [isInstallAt_iff hentries]
      exact iff_of_false List.not_mem_nil fun h => h.elim (fun h => hmarker h.2.2) fun h =>
        hunmarked h.1

/-! ### Paths as they are shown -/

theorem toList_shownPath (path : String) (way : List Bytes) :
    (shownPath path way).toList =
      path.toList ++ (way.map Utf8.decodeCharsLossy).flatMap (· ++ ['/']) := by
  induction way generalizing path with
  | nil => exact (List.append_nil _).symm
  | cons name way ih =>
    have hcons : shownPath path (name :: way) =
        shownPath (InstallRecord.subpath path (Utf8.decodeLossy name)) way := rfl
    rw [hcons, ih, InstallRecord.subpath, Utf8.decodeLossy, String.toList_append,
      String.toList_append, String.toList_ofList, List.map_cons, List.flatMap_cons,
      List.append_assoc, List.append_assoc, List.append_assoc]
    rfl

theorem flatMap_slash_inj {l l' : List (List Char)} (hl : ∀ cs ∈ l, '/' ∉ cs)
    (hl' : ∀ cs ∈ l', '/' ∉ cs) (h : l.flatMap (· ++ ['/']) = l'.flatMap (· ++ ['/'])) :
    l = l' := by
  induction l generalizing l' with
  | nil =>
    cases l' with
    | nil => rfl
    | cons cs' l' => simp at h
  | cons cs l ih =>
    cases l' with
    | nil => simp at h
    | cons cs' l' =>
      rw [List.forall_mem_cons] at hl hl'
      rw [List.flatMap_cons, List.flatMap_cons, List.append_assoc, List.append_assoc,
        List.singleton_append, List.singleton_append] at h
      -- The first slash ends the first name on either side.
      obtain rfl : cs = cs' := by
        rw [← takeWhile_append_slash hl.1, h, takeWhile_append_slash hl'.1]
      rw [ih hl.2 hl'.2 (List.cons.inj (List.append_cancel_left h)).2]

/-- Two ways have the same path exactly if they are shown alike, name by name. -/
theorem shownPath_inj {path : String} {way way' : List Bytes}
    (hway : ∀ name ∈ way, Ascii.slash ∉ name) (hway' : ∀ name ∈ way', Ascii.slash ∉ name) :
    shownPath path way = shownPath path way' ↔
      way.map Utf8.decodeLossy = way'.map Utf8.decodeLossy := by
  have hslash {way : List Bytes} (hway : ∀ name ∈ way, Ascii.slash ∉ name) :
      ∀ cs ∈ way.map Utf8.decodeCharsLossy, '/' ∉ cs := by
    intro cs hcs hmem
    obtain ⟨name, hname, rfl⟩ := List.mem_map.1 hcs
    exact hway name hname (Utf8.mem_of_mem_decodeCharsLossy hmem (by decide) (by decide))
  have hshown (way : List Bytes) : way.map Utf8.decodeLossy =
      (way.map Utf8.decodeCharsLossy).map String.ofList := by
    rw [List.map_map]
    rfl
  rw [← String.toList_inj, toList_shownPath, toList_shownPath, List.append_cancel_left_eq, hshown,
    hshown, List.map_inj_right fun _ _ => String.ofList_inj.1]
  exact ⟨flatMap_slash_inj (hslash hway) (hslash hway'), congrArg _⟩

theorem noSlash_of_stands {way : List Bytes} (whole : s.IsWhole id)
    (h : s.Stands markers id way found) : ∀ name ∈ way, Ascii.slash ∉ name := by
  induction h with
  | here => nofun
  | inside hentries _ he htree _ ih =>
    cases whole with
    | intro hentries' proper hinside =>
      obtain rfl := Except.ok.inj (hentries.symm.trans hentries')
      exact List.forall_mem_cons.2 ⟨proper.noSlash _ he, ih (hinside _ he htree)⟩

/-! ### Commits -/

/-- No two of some installs are shown alike, name by name. -/
def AreShownApart (installs : List (List Bytes × Id)) : Prop :=
  (installs.map fun p => p.1.map Utf8.decodeLossy).Nodup

/-- Installs at different ways are shown apart if the names on the ways are texts. -/
theorem areShownApart_of_texts {installs : List (List Bytes × Id)}
    (nodup : (installs.map Prod.fst).Nodup)
    (texts : ∀ p ∈ installs, ∀ name ∈ p.1, ∃ text, name = Utf8.encode text) :
    AreShownApart installs := by
  have hback {p : List Bytes × Id} (hp : p ∈ installs) :
      (p.1.map Utf8.decodeLossy).map Utf8.encode = p.1 := by
    rw [List.map_map]
    refine (List.map_congr_left fun name hname => ?_).trans (List.map_id _)
    obtain ⟨text, rfl⟩ := texts p hp name hname
    exact congrArg Utf8.encode (Utf8.decodeLossy_encode text)
  refine List.pairwise_map.2 ((List.pairwise_map.1 nodup).imp_of_mem fun hp hq hne heq => hne ?_)
  rw [← hback hp, heq, hback hq]

/-- Installs are at different paths exactly if they are shown apart. -/
theorem nodup_shownPath_iff {installs : List (List Bytes × Id)} {path : String}
    (hslash : ∀ p ∈ installs, ∀ name ∈ p.1, Ascii.slash ∉ name) :
    (installs.map fun p => shownPath path p.1).Nodup ↔ AreShownApart installs := by
  rw [AreShownApart, List.Nodup, List.Nodup, List.pairwise_map, List.pairwise_map]
  constructor
  · exact List.Pairwise.imp_of_mem fun hp hq hne heq =>
      hne ((shownPath_inj (hslash _ hp) (hslash _ hq)).2 heq)
  · exact List.Pairwise.imp_of_mem fun hp hq hne heq =>
      hne ((shownPath_inj (hslash _ hp) (hslash _ hq)).1 heq)

/-- A map whose keys are the members of a list has as many as the list exactly if no two members of
that are the same. -/
theorem size_eq_length_iff {m : SortedMap TreeId} {paths : List String}
    (hkeys : ∀ path, path ∈ m.keys ↔ path ∈ paths) : m.size = paths.length ↔ paths.Nodup := by
  have hperm : m.keys.Perm paths.dedup :=
    (List.perm_ext_iff_of_nodup m.nodup_keys paths.nodup_dedup).2 fun path =>
      (hkeys path).trans List.mem_dedup.symm
  rw [← SortedMap.length_keys, hperm.length_eq]
  constructor
  · intro hlength
    exact List.dedup_eq_self.1 (paths.dedup_sublist.eq_of_length hlength)
  · intro nodup
    rw [nodup.dedup]

/-- The installs that a search visits are those that stand below its top. -/
theorem visits_install_iff {installs : List (List Bytes × Id)} {path last : String} {tree : TreeId}
    (hinstalls : ∀ way found, (way, found) ∈ installs ↔ s.IsInstallAt markers id way found) :
    Visits s markers path id.hex last tree ∧ IsInstall s markers tree ↔
      ∃ p ∈ installs, last = shownPath path p.1 ∧ tree = p.2.hex := by
  rw [visits_hex_iff]
  constructor
  · rintro ⟨⟨way, found, hstands, rfl, rfl⟩, hmarked⟩
    exact ⟨(way, found), (hinstalls way found).2 ⟨hstands, isInstall_hex_iff.1 hmarked⟩, rfl, rfl⟩
  · rintro ⟨⟨way, found⟩, hmem, rfl, rfl⟩
    obtain ⟨hstands, hmarked⟩ := (hinstalls way found).1 hmem
    exact ⟨⟨way, found, hstands, rfl, rfl⟩, isInstall_hex_iff.2 hmarked⟩

/-- A commit that can be read to its end is scanned. Its record has the path of every install that
stands in the commit with no marker above it, with the contents of an install at that path. It has
as many of them as the commit exactly if no two are shown alike, and then each has its own contents.
None are shown alike if all names are texts. -/
theorem scan_installs {given : CommitId} {c : Commit} {done : List Action}
    (hid : parseId given = .ok id) (hcommit : s.findCommit id given = .ok c)
    (whole : s.IsWhole c.tree) (markers : Markers) :
    ∃ record, ∃ installs : List (List Bytes × Id),
      ((scan s markers given).after done).1 = .ok record ∧
      (installs.map Prod.fst).Nodup ∧
      (∀ way found, (way, found) ∈ installs ↔ s.IsInstallAt markers c.tree way found) ∧
      (∀ path, path ∈ record.full.keys ↔ ∃ p ∈ installs, path = shownPath "/" p.1) ∧
      (∀ path tree, record.full.get? path = some tree →
        ∃ p ∈ installs, path = shownPath "/" p.1 ∧ tree = p.2.hex) ∧
      (record.full.size = installs.length ↔ AreShownApart installs) ∧
      (AreShownApart installs →
        ∀ p ∈ installs, record.full.get? (shownPath "/" p.1) = some p.2.hex) ∧
      ((∀ p ∈ installs, ∀ name ∈ p.1, ∃ text, name = Utf8.encode text) →
        AreShownApart installs) := by
  obtain ⟨installs, nodup, hinstalls⟩ := exists_installs whole markers
  have hanswer : ((Reading.commit s given).after done).1 =
      .ok ⟨given, c.tree.hex, c.parents.map Id.hex, person c.author, person c.committer,
        Utf8.decodeLossy c.message⟩ :=
    bind_eq_ok_iff.2 ⟨id, hid, bind_eq_ok_iff.2 ⟨c, hcommit, rfl⟩⟩
  have searchable : Searchable s markers (Repository.depth s) c.tree.hex :=
    searchable_of_isWhole whole
  obtain ⟨record, hrecord⟩ :=
    exists_searchTree (fun _ => rfl) searchable "/" .empty (.commit given :: done)
  have explores := explores_searchTree hrecord
  have hkeys (path : String) :
      path ∈ record.full.keys ↔ ∃ p ∈ installs, path = shownPath "/" p.1 := by
    have hnone : path ∉ InstallRecord.empty.full.keys := List.not_mem_nil
    rw [explores.keys, or_iff_right hnone]
    simp only [visits_install_iff hinstalls]
    exact ⟨fun ⟨_, p, hp, hpath, _⟩ => ⟨p, hp, hpath⟩, fun ⟨p, hp, hpath⟩ => ⟨_, p, hp, hpath, rfl⟩⟩
  have hsound (path : String) (tree : TreeId) (hget : record.full.get? path = some tree) :
      ∃ p ∈ installs, path = shownPath "/" p.1 ∧ tree = p.2.hex := by
    rcases explores.sound path tree hget with hempty | hfound
    · cases hempty
    · exact (visits_install_iff hinstalls).1 hfound
  have hslash : ∀ p ∈ installs, ∀ name ∈ p.1, Ascii.slash ∉ name :=
    fun p hp => noSlash_of_stands whole ((hinstalls p.1 p.2).1 hp).stands
  have hpaths : record.full.size = (installs.map fun p => shownPath "/" p.1).length ↔
      (installs.map fun p => shownPath "/" p.1).Nodup :=
    size_eq_length_iff fun path => (hkeys path).trans (by simp [eq_comm])
  rw [List.length_map, nodup_shownPath_iff hslash] at hpaths
  refine ⟨record, installs, Reading.after_bind_eq_ok_iff.2 ⟨_, hanswer, hrecord⟩, nodup, hinstalls,
    hkeys, hsound, hpaths, fun apart p hp => ?_, areShownApart_of_texts nodup⟩
  obtain ⟨tree, hget⟩ := SortedMap.mem_keys_iff.1 ((hkeys _).2 ⟨p, hp, rfl⟩)
  obtain ⟨q, hq, hpath, rfl⟩ := hsound _ tree hget
  rw [hget, List.inj_on_of_nodup_map ((nodup_shownPath_iff hslash).2 apart) hp hq hpath]

/-- A commit is found if its directory is. -/
theorem exists_findCommit_of_tree {given : CommitId} {tree : Id}
    (h : (s.findCommit id given).toOption.map Commit.tree = some tree) :
    ∃ c, s.findCommit id given = .ok c ∧ c.tree = tree := by
  obtain ⟨c, hc, htree⟩ := Option.map_eq_some_iff.1 h
  exact ⟨c, toOption_eq_some_iff.1 hc, htree⟩

theorem isWhole_emptyTree (s : Store) : s.IsWhole emptyTree :=
  .intro (findTree_emptyTree s emptyTree.hex) ⟨nofun, nofun, List.nodup_nil⟩ nofun

/-- A directory that holds nothing but another one can be read to its end if that can. -/
theorem isWhole_holding {name : Bytes} {inner : Id}
    (hentries : s.findTree id id.hex = .ok [⟨0o40000, name, inner⟩]) (hname : name ≠ [])
    (hslash : Ascii.slash ∉ name) (whole : s.IsWhole inner) : s.IsWhole id := by
  refine .intro hentries ⟨?_, ?_, List.nodup_singleton _⟩ ?_
  · exact fun e he => List.mem_singleton.1 he ▸ hname
  · exact fun e he => List.mem_singleton.1 he ▸ hslash
  · exact fun e he _ => List.mem_singleton.1 he ▸ whole

theorem Within.isWhole {t : Store} (h : Within s t) (whole : s.IsWhole id) : t.IsWhole id := by
  induction whole with
  | intro hentries proper _ ih => exact .intro (h.find _ _ _ _ _ hentries) proper ih

/-- The trees of the imported line are there, and so is the commit of the release. -/
theorem stored_release :
    imported.findTree (idOf importedTree) (idOf importedTree).hex =
        .ok [⟨0o40000, Ascii.bytes "vice", emptyTree⟩] ∧
      imported.findTree (idOf releaseTree) (idOf releaseTree).hex =
        .ok [⟨0o40000, Ascii.bytes "vice", idOf importedTree⟩] ∧
      (idOf releaseTree).hex = releaseTree ∧
      parseId releaseCommit = .ok (idOf releaseCommit) ∧
      (imported.findCommit (idOf releaseCommit) releaseCommit).toOption.map Commit.tree =
        some (idOf releaseTree) := by
  decide +kernel

theorem isWhole_imported :
    imported.IsWhole (idOf importedTree) ∧ imported.IsWhole (idOf releaseTree) := by
  obtain ⟨hline, hrelease, -⟩ := stored_release
  have whole : imported.IsWhole (idOf importedTree) :=
    isWhole_holding hline (by decide) (by decide) (isWhole_emptyTree imported)
  exact ⟨whole, isWhole_holding hrelease (by decide) (by decide) whole⟩

/-- The markers of an imported line. -/
def importedMarkers : Markers := ⟨"vice", "README"⟩

theorem isMarkerDirectory_vice (inner : Id) :
    TreeEntry.isMarkerDirectory importedMarkers ⟨0o40000, Ascii.bytes "vice", inner⟩ = true :=
  (TreeEntry.isMarkerDirectory_iff (by decide)).2 ⟨TreeEntry.isTree_mk .., rfl⟩

/-- The release of the imported line is an install at the top. -/
theorem scan_installs_imported :
    ∃ record, ((scan imported importedMarkers releaseCommit).after []).1 = .ok record ∧
      record.full.get? "/" = some releaseTree := by
  obtain ⟨-, hentries, hhex, hid, hfound⟩ := stored_release
  obtain ⟨c, hcommit, htree⟩ := exists_findCommit_of_tree hfound
  have whole : imported.IsWhole c.tree := by
    rw [htree]
    exact isWhole_imported.2
  obtain ⟨record, installs, hrecord, -, hinstalls, -, -, -, hown, htexts⟩ :=
    scan_installs hid hcommit whole importedMarkers
  rw [← htree] at hentries
  -- The search does not get past the top, where the marker is.
  have htop (way : List Bytes) (found : Id) :
      (way, found) ∈ installs ↔ way = [] ∧ found = c.tree := by
    have hmarker := isMarkerDirectory_vice (idOf importedTree)
    rw [hinstalls, isInstallAt_iff hentries]
    constructor
    · rintro (⟨hway, hfound, -⟩ | ⟨hunmarked, -⟩)
      · exact ⟨hway, hfound⟩
      · rw [(hunmarked _ (List.mem_singleton_self _)).1] at hmarker
        cases hmarker
    · rintro ⟨hway, hfound⟩
      exact .inl ⟨hway, hfound, _, List.mem_singleton_self _, hmarker⟩
  have apart : AreShownApart installs := htexts fun p hp name hname => by
    rw [((htop p.1 p.2).1 hp).1] at hname
    cases hname
  refine ⟨record, hrecord, ?_⟩
  have hget := hown apart ([], c.tree) ((htop _ _).2 ⟨rfl, rfl⟩)
  rw [htree, hhex] at hget
  exact hget

/-- The tree of the commit with two copies. -/
def copiesTree : TreeId := "a3e386d7c35477270605bebbc0dc8c391baf7a08"

/-- The commit with two copies. -/
def copiesCommit : CommitId := "7f10cc4d2f217e4ad79998a3579e4009a30cab18"

/-- The entries of the tree with two copies. -/
def copiesEntries : List TreeEntry :=
  [⟨0o40000, [0xFE], idOf importedTree⟩, ⟨0o40000, [0xFF], idOf releaseTree⟩]

/-- The objects of both. -/
def copiesObjects : Object × Object :=
  (⟨.tree, copiesEntries.flatMap TreeEntry.encode⟩,
    firstCommit (idOf copiesTree) "Importer" "importer@example.com" 1000000000 "copies")

/-- The imported line with a commit that has two copies, in directories whose names are no texts. -/
def lookalikes : Store :=
  { imported with
    objects := (imported.objects.insert copiesTree copiesObjects.1).insert copiesCommit
      copiesObjects.2 }

/-- The record of the commit with two copies. -/
def copiesRecord : InstallRecord :=
  ⟨.ofList [("/\uFFFD/", importedTree)],
    .ofList [("/\uFFFD/vice/", "4b825dc642cb6eb9a060e54bf8d69288fbee4904")]⟩

/-- The tree and the commit are new, are kept under their own ids and can be read. -/
theorem stored_copies :
    imported.objects.get? copiesTree = none ∧
      (imported.objects.insert copiesTree copiesObjects.1).get? copiesCommit = none ∧
      copiesObjects.1.id.hex = copiesTree ∧ copiesObjects.2.id.hex = copiesCommit ∧
      lookalikes.findTree (idOf copiesTree) (idOf copiesTree).hex = .ok copiesEntries ∧
      parseId copiesCommit = .ok (idOf copiesCommit) ∧
      (lookalikes.findCommit (idOf copiesCommit) copiesCommit).toOption.map Commit.tree =
        some (idOf copiesTree) := by
  decide +kernel

theorem within_lookalikes : Within imported lookalikes := by
  obtain ⟨htree, hcommit, -⟩ := stored_copies
  refine ⟨fun _ _ h => ?_, fun _ _ h => h⟩
  exact SortedMap.get?_insert_of_free hcommit (SortedMap.get?_insert_of_free htree h)

theorem isWhole_lookalikes : lookalikes.IsWhole (idOf copiesTree) := by
  obtain ⟨-, -, -, -, hentries, -⟩ := stored_copies
  refine .intro hentries ⟨by decide, by decide, by decide⟩ fun e he _ => ?_
  rcases List.mem_pair.1 he with rfl | rfl
  · exact within_lookalikes.isWhole isWhole_imported.1
  · exact within_lookalikes.isWhole isWhole_imported.2

/-- Both copies are installs with no marker above them. -/
theorem isInstallAt_lookalikes :
    lookalikes.IsInstallAt importedMarkers (idOf copiesTree) [[0xFE]] (idOf importedTree) ∧
      lookalikes.IsInstallAt importedMarkers (idOf copiesTree) [[0xFF]] (idOf releaseTree) := by
  have hunmarked : ∀ e ∈ copiesEntries, e.isMarkerDirectory importedMarkers = false ∧
      e.isMarkerFile importedMarkers = false := by
    decide +kernel
  obtain ⟨hline, hrelease, -⟩ := stored_release
  obtain ⟨-, -, -, -, hentries, -⟩ := stored_copies
  constructor
  · exact ⟨.inside hentries hunmarked List.mem_cons_self rfl .here,
      _, within_lookalikes.find _ _ _ _ _ hline, _, List.mem_singleton_self _,
      isMarkerDirectory_vice _⟩
  · have hmem := List.mem_cons_of_mem (⟨0o40000, [0xFE], idOf importedTree⟩ : TreeEntry)
      (List.mem_singleton_self (⟨0o40000, [0xFF], idOf releaseTree⟩ : TreeEntry))
    exact ⟨.inside hentries hunmarked hmem rfl .here,
      _, within_lookalikes.find _ _ _ _ _ hrelease, _, List.mem_singleton_self _,
      isMarkerDirectory_vice _⟩

theorem hex_id_lookalikes : ∀ e ∈ lookalikes.objects.entries, e.2.id.hex = e.1 := by
  obtain ⟨-, -, htree, hcommit, -⟩ := stored_copies
  intro e he
  rcases SortedMap.mem_insertEntry he with rfl | he
  · exact hcommit
  rcases SortedMap.mem_insertEntry he with rfl | he
  · exact htree
  · exact hex_id_imported e he

theorem scanned_lookalikes :
    scanned lookalikes importedMarkers copiesCommit = .ok copiesRecord := by
  decide +kernel

/-- One of two installs can be missing in the record: two names that are no texts can be shown
alike, and then both installs are at one path. -/
theorem not_forall_scan_installs :
    ¬ ∀ (s : Store) (markers : Markers) (given : CommitId) (id : Id) (c : Commit)
        (installs : List (List Bytes × Id)),
      (∀ e ∈ s.objects.entries, e.2.id.hex = e.1) → parseId given = .ok id →
      s.findCommit id given = .ok c → s.IsWhole c.tree → (installs.map Prod.fst).Nodup →
      (∀ way found, (way, found) ∈ installs ↔ s.IsInstallAt markers c.tree way found) →
      ∃ record, scanned s markers given = .ok record ∧ record.full.size = installs.length := by
  intro hclaim
  obtain ⟨-, -, -, -, -, hid, hfound⟩ := stored_copies
  obtain ⟨c, hcommit, htree⟩ := exists_findCommit_of_tree hfound
  have whole : lookalikes.IsWhole c.tree := by
    rw [htree]
    exact isWhole_lookalikes
  obtain ⟨installs, nodup, hinstalls⟩ := exists_installs whole importedMarkers
  obtain ⟨record, hrecord, hsize⟩ := hclaim lookalikes importedMarkers copiesCommit _ c installs
    hex_id_lookalikes hid hcommit whole nodup hinstalls
  obtain rfl := Except.ok.inj (scanned_lookalikes.symm.trans hrecord)
  have hboth : [([[0xFE]], idOf importedTree), ([[0xFF]], idOf releaseTree)] ⊆ installs := by
    rw [htree] at hinstalls
    refine List.cons_subset.2 ⟨(hinstalls _ _).2 isInstallAt_lookalikes.1, ?_⟩
    exact List.cons_subset.2 ⟨(hinstalls _ _).2 isInstallAt_lookalikes.2, List.nil_subset _⟩
  have hlength := (List.subperm_of_subset (by decide) hboth).length_le
  have hone : copiesRecord.full.size = 1 := rfl
  rw [← hsize, hone] at hlength
  exact absurd hlength (by decide)

end Store

end ReleaseRecovery.Git
