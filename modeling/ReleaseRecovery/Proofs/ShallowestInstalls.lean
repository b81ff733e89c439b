import ReleaseRecovery.Proofs.GitInstalls
import ReleaseRecovery.Proofs.TidyDirectories

/-!
# What scanning a commit finds

Where no directory contains itself and the directories inside each other can be told by their names,
scanning a commit comes to an end. It succeeds if everything that it visits can be read, it reads
each directory visited once, and it finds the installs that are nearest to the top, all of them and
nothing else. In which order a directory has its entries does not matter.

## Main Definitions

* `Reordered` — two stores tell the same, but for the order of entries
* `FindsShallowest` — a record has the installs that are nearest to the top

## Main Statements

* `boundsDepth_memory`, `Git.Store.boundsDepth` — the room of a search is as much as can be needed
* `after_scan` — what scanning comes to, and what it has read
* `Reordered.findsShallowest` — the order of entries does not matter
* `scan_shallowest` — what scanning a commit finds
-/

namespace ReleaseRecovery

variable {ρ ρ' : Type} [Repository ρ] [Repository ρ']

/-! ### The depth of stores -/

theorem exists_of_forall₂ {α β : Type} {R : α → β → Prop} {l : List α} {l' : List β}
    (h : List.Forall₂ R l l') : ∀ b ∈ l', ∃ a, R a b := by
  induction h with
  | nil => exact List.forall_mem_nil _
  | cons hab _ ih => exact List.forall_mem_cons.2 ⟨⟨_, hab⟩, ih⟩

theorem Memory.get?_of_lookUp {α : Type} {missing : String → Failure} {m : SortedMap α}
    {key : String} {a : α} (h : lookUp missing m key = .ok a) : m.get? key = some a := by
  unfold lookUp at h
  split at h
  · rename_i found hget
    rw [hget, Except.ok.inj h]
  · cases h

/-- A directory with a directory inside it is one of those in memory. -/
theorem boundsDepth_memory (m : Memory) : BoundsDepth m := by
  intro chain nodup hchain
  have hkeys : ∀ key ∈ chain.tail, ∃ entries, m.trees.get? key = some entries := by
    intro key hkey
    obtain ⟨inner, entries, hentries, -⟩ :=
      exists_of_forall₂ (List.isChain_iff_forall₂.1 hchain) key hkey
    exact ⟨entries, Memory.get?_of_lookUp hentries⟩
  have hlength := SortedMap.length_le_size (nodup.sublist (List.tail_sublist chain)) hkeys
  rw [List.length_tail] at hlength
  have hdepth : Repository.depth m = m.trees.size + 1 := rfl
  omega

namespace Git.Store

variable {s : Store} {outer inner : TreeId}

/-- What stands in a directory is named by its digits. -/
theorem exists_hex_of_contains (h : Contains s outer inner) : ∃ id : Id, inner = id.hex := by
  obtain ⟨shown, hshown, e, he, hkind, rfl⟩ := h
  obtain ⟨_, _, h⟩ := bind_eq_ok_iff.1 hshown
  obtain ⟨entries, -, h⟩ := bind_eq_ok_iff.1 h
  obtain rfl := Except.ok.inj h
  obtain ⟨e', -, -, rfl⟩ := TreeEntry.mem_answers_tree_iff.1 ⟨he, hkind⟩
  exact ⟨e'.id, rfl⟩

/-- A directory with a directory inside it is one of the objects. -/
theorem exists_object_of_contains {id : Id} (h : Contains s id.hex inner) :
    ∃ o, s.objects.get? id.hex = some o := by
  obtain ⟨shown, hshown, e, he, hkind, -⟩ := h
  obtain ⟨entries, hentries, rfl⟩ := exists_findTree_of_entries hshown
  refine (isThere_of_findTree hentries).resolve_left fun hempty => ?_
  rw [hempty, findTree_emptyTree] at hentries
  obtain rfl := Except.ok.inj hentries
  cases he

/-- All directories between the innermost and the outermost one are named by the digits of
objects. -/
theorem boundsDepth (s : Store) : BoundsDepth s := by
  intro chain nodup hchain
  have hchain := List.isChain_iff_forall₂.1 hchain
  have hkeys : ∀ key ∈ chain.tail.dropLast, ∃ o, s.objects.get? key = some o := by
    intro key hkey
    obtain ⟨_, hcontains⟩ := exists_of_forall₂ hchain key (List.dropLast_subset _ hkey)
    rw [← List.tail_dropLast] at hkey
    obtain ⟨_, hcontained⟩ := exists_of_forall₂ hchain.flip key (List.mem_of_mem_tail hkey)
    obtain ⟨id, rfl⟩ := exists_hex_of_contains hcontained
    exact exists_object_of_contains hcontains
  have hbetween := (List.dropLast_sublist chain.tail).trans (List.tail_sublist chain)
  have hlength := SortedMap.length_le_size (nodup.sublist hbetween) hkeys
  rw [List.length_dropLast, List.length_tail] at hlength
  have hdepth : Repository.depth s = s.objects.size + 2 := rfl
  omega

end Git.Store

/-! ### Shallowest installs -/

/-- A record has the installs that are nearest to the top. Full installs are the directories visited
with the marker directory in them; copies are those marker directories, and the directories visited
with the marker file alone. -/
structure FindsShallowest (store : ρ) (markers : Markers) (top : TreeId)
    (record : InstallRecord) : Prop where
  full : ∀ path tree, record.full.get? path = some tree ↔
    Visits store markers "/" top path tree ∧ IsInstall store markers tree
  partly : ∀ path tree, record.partly.get? path = some tree ↔
    (∃ last found, Visits store markers "/" top last found ∧
      path = InstallRecord.subpath last markers.directory ∧
        HoldsMarker store markers found tree) ∨
    Visits store markers "/" top path tree ∧ ¬ IsInstall store markers tree ∧
      HoldsMarkerFile store markers tree

section Finding

variable {store : ρ} {markers : Markers} {top : TreeId} {record record' : InstallRecord}
  {c : CommitId} {commit : Commit} {room : Nat}

theorem SortedMap.ext_get?_eq_some {α : Type} {m n : SortedMap α}
    (h : ∀ key value, m.get? key = some value ↔ n.get? key = some value) : m = n :=
  ext_get? fun key => Option.ext fun value => h key value

theorem FindsShallowest.unique (h : FindsShallowest store markers top record)
    (h' : FindsShallowest store markers top record') : record = record' := by
  have hfull : record.full = record'.full := SortedMap.ext_get?_eq_some fun path tree =>
    (h.full path tree).trans (h'.full path tree).symm
  have hpartly : record.partly = record'.partly := SortedMap.ext_get?_eq_some fun path tree =>
    (h.partly path tree).trans (h'.partly path tree).symm
  cases record
  cases record'
  congr

theorem findsShallowest_foldl_noted (hasRoom : HasRoom store markers room top)
    (tidy : IsTidy store top) : FindsShallowest store markers top
      ((visited store markers room "/" top).foldl (noted store markers) .empty) :=
  ⟨fun _ _ => get?_full_noted_iff hasRoom tidy, fun _ _ => get?_partly_noted_iff hasRoom tidy⟩

/-- A commit is scanned by searching the directory of the commit from the top. -/
theorem after_scan_of_commit (reachable : Reachable store)
    (hcommit : Repository.commit store c = .ok commit) (done : List Action) :
    (scan store markers c).after done =
      (searchTree store markers (Repository.depth store) commit.tree "/" .empty).after
        (.commit c :: done) := by
  rw [scan, Reading.commit, Reading.after_bind, Reading.after_ask, reachable done, hcommit]
  rfl

theorem scanned_of_error (reachable : Reachable store) {e : Failure}
    (hcommit : Repository.commit store c = .error e) : scanned store markers c = .error e := by
  rw [scanned, scan, Reading.commit, Reading.after_bind, Reading.after_ask, reachable [], hcommit]
  rfl

end Finding

/-! ### The order of entries -/

/-- Two stores tell the same of commits and directories, but for the order of entries. -/
structure Reordered (store : ρ) (store' : ρ') : Prop where
  commit : ∀ id c, Repository.commit store id = .ok c ↔ Repository.commit store' id = .ok c
  entries : ∀ tree entries, Repository.entries store tree = .ok entries →
    ∃ entries', Repository.entries store' tree = .ok entries' ∧ entries.Perm entries'
  entries_back : ∀ tree entries', Repository.entries store' tree = .ok entries' →
    ∃ entries, Repository.entries store tree = .ok entries ∧ entries'.Perm entries

theorem Markers.IsScaffolding.perm {markers : Markers} {entries entries' : List Entry}
    (h : markers.IsScaffolding entries) (hperm : entries.Perm entries') :
    markers.IsScaffolding entries' :=
  fun e he => h e (hperm.mem_iff.2 he)

theorem HasDirectoryNames.perm {entries entries' : List Entry} (h : HasDirectoryNames entries)
    (hperm : entries.Perm entries') : HasDirectoryNames entries' :=
  ⟨fun e he => h.noSlash e (hperm.mem_iff.2 he),
    ((hperm.filter _).map _).nodup_iff.1 h.distinct⟩

namespace Reordered

variable {store : ρ} {store' : ρ'} {markers : Markers} {path last : String}
  {root outer inner tree found : TreeId} {record : InstallRecord}

theorem symm (h : Reordered store store') : Reordered store' store :=
  ⟨fun id c => (h.commit id c).symm, h.entries_back, h.entries⟩

theorem contains (h : Reordered store store') (hcontains : Contains store outer inner) :
    Contains store' outer inner := by
  obtain ⟨entries, hentries, e, he, hkind, rfl⟩ := hcontains
  obtain ⟨entries', hentries', hperm⟩ := h.entries outer entries hentries
  exact ⟨entries', hentries', e, hperm.mem_iff.1 he, hkind, rfl⟩

theorem contains_eq (h : Reordered store store') : Contains store' = Contains store := by
  funext outer inner
  exact propext ⟨h.symm.contains, h.contains⟩

theorem isTidy (h : Reordered store store') (tidy : IsTidy store root) : IsTidy store' root := by
  refine ⟨?_, fun tree htree entries' hentries' => ?_⟩
  · rw [IsAcyclic, h.contains_eq]
    exact tidy.acyclic
  · rw [h.contains_eq] at htree
    obtain ⟨entries, hentries, hperm⟩ := h.entries_back tree entries' hentries'
    exact (tidy.named tree htree entries hentries).perm hperm.symm

theorem visits (h : Reordered store store') (hvisits : Visits store markers path tree last found) :
    Visits store' markers path tree last found := by
  induction hvisits with
  | here => exact .here
  | through hentries hscaffolding hmem hkind _ ih =>
    obtain ⟨entries', hentries', hperm⟩ := h.entries _ _ hentries
    exact .through hentries' (hscaffolding.perm hperm) (hperm.mem_iff.1 hmem) hkind ih

theorem holdsMarker (h : Reordered store store') (hholds : HoldsMarker store markers tree inner) :
    HoldsMarker store' markers tree inner := by
  obtain ⟨entries, hentries, hmem⟩ := hholds
  obtain ⟨entries', hentries', hperm⟩ := h.entries tree entries hentries
  exact ⟨entries', hentries', hperm.mem_iff.1 hmem⟩

theorem holdsMarkerFile (h : Reordered store store')
    (hholds : HoldsMarkerFile store markers tree) : HoldsMarkerFile store' markers tree := by
  obtain ⟨entries, hentries, e, he, hfile⟩ := hholds
  obtain ⟨entries', hentries', hperm⟩ := h.entries tree entries hentries
  exact ⟨entries', hentries', e, hperm.mem_iff.1 he, hfile⟩

theorem isInstall_iff (h : Reordered store store') :
    IsInstall store' markers tree ↔ IsInstall store markers tree := by
  rw [isInstall_iff_exists_holdsMarker, isInstall_iff_exists_holdsMarker]
  exact exists_congr fun _ => ⟨h.symm.holdsMarker, h.holdsMarker⟩

/-- The order of entries does not matter. -/
theorem findsShallowest (h : Reordered store store')
    (hfinds : FindsShallowest store markers root record) :
    FindsShallowest store' markers root record := by
  have hvisits (path : String) (tree : TreeId) : Visits store markers "/" root path tree ↔
      Visits store' markers "/" root path tree := ⟨h.visits, h.symm.visits⟩
  have hholds (tree inner : TreeId) : HoldsMarker store markers tree inner ↔
      HoldsMarker store' markers tree inner := ⟨h.holdsMarker, h.symm.holdsMarker⟩
  have hfile (tree : TreeId) : HoldsMarkerFile store markers tree ↔
      HoldsMarkerFile store' markers tree := ⟨h.holdsMarkerFile, h.symm.holdsMarkerFile⟩
  constructor
  · simpa only [hvisits, h.isInstall_iff] using hfinds.full
  · simpa only [hvisits, hholds, hfile, h.isInstall_iff] using hfinds.partly

end Reordered

/-! ### Scanning -/

section Scanning

variable {store : ρ} {markers : Markers} {c : CommitId} {commit : Commit} {top : TreeId}
  {record : InstallRecord}

/-- A commit can be scanned if it is there and everything that is visited can be read. -/
theorem exists_scanned_iff (reachable : Reachable store) (bounded : BoundsDepth store)
    (acyclic : ∀ commit, Repository.commit store c = .ok commit → IsAcyclic store commit.tree) :
    (∃ record, scanned store markers c = .ok record) ↔
      ∃ commit, Repository.commit store c = .ok commit ∧
        ∀ path tree, Visits store markers "/" commit.tree path tree →
          ∃ entries, Repository.entries store tree = .ok entries := by
  cases hcommit : Repository.commit store c with
  | error e =>
    rw [scanned_of_error reachable hcommit]
    exact iff_of_false (fun ⟨_, h⟩ => nomatch h) (fun ⟨_, h, _⟩ => nomatch h)
  | ok commit =>
    rw [scanned, after_scan_of_commit reachable hcommit]
    constructor
    · rintro ⟨record, h⟩
      exact ⟨commit, rfl, fun path tree => exists_entries_of_searchTree h⟩
    · rintro ⟨commit', hcommit', hread⟩
      obtain rfl := Except.ok.inj hcommit'
      have hasRoom := hasRoom_of_acyclic markers bounded (acyclic commit hcommit)
      exact ⟨_, congrArg Prod.fst (after_searchTree reachable hasRoom hread .empty [.commit c])⟩

/-- If a commit cannot be scanned, the store does not tell the commit or something visited. -/
theorem refused_of_scanned_eq_error (reachable : Reachable store) (bounded : BoundsDepth store)
    (acyclic : ∀ commit, Repository.commit store c = .ok commit → IsAcyclic store commit.tree)
    {e : Failure} (h : scanned store markers c = .error e) :
    Repository.commit store c = .error e ∨
      ∃ commit, Repository.commit store c = .ok commit ∧
        ∃ path tree, Visits store markers "/" commit.tree path tree ∧
          Repository.entries store tree = .error e := by
  cases hcommit : Repository.commit store c with
  | error e' =>
    rw [scanned_of_error reachable hcommit] at h
    exact .inl (congrArg Except.error (Except.error.inj h))
  | ok commit =>
    rw [scanned, after_scan_of_commit reachable hcommit] at h
    have hasRoom := hasRoom_of_acyclic markers bounded (acyclic commit hcommit)
    exact .inr ⟨commit, rfl, exists_visits_of_searchTree_eq_error reachable hasRoom h⟩

/-- Scanning a commit comes to an end, and letting directories wait comes to the same. -/
theorem exists_worklist_eq_scan (bounded : BoundsDepth store)
    (acyclic : ∀ commit, Repository.commit store c = .ok commit → IsAcyclic store commit.tree) :
    ∃ enough, ∀ steps ≥ enough,
      (Reading.commit store c >>= fun commit =>
        worklist store markers steps [("/", commit.tree)] .empty) = scan store markers c := by
  rw [scan, Reading.commit]
  cases hcommit : Repository.commit store c with
  | error e => exact ⟨0, fun steps _ => Reading.ask_bind_congr fun _ h => nomatch h⟩
  | ok commit =>
    have hasRoom := hasRoom_of_acyclic markers bounded (acyclic commit hcommit)
    refine ⟨(visited store markers (Repository.depth store) "/" commit.tree).length,
      fun steps hsteps => Reading.ask_bind_congr fun commit' h => ?_⟩
    obtain rfl := Except.ok.inj h
    exact worklist_eq_searchTree hasRoom hsteps .empty

/-- What scanning comes to, and what it has read: each directory visited, once. -/
theorem after_scan (reachable : Reachable store) (bounded : BoundsDepth store)
    (hcommit : Repository.commit store c = .ok commit) (acyclic : IsAcyclic store commit.tree)
    (h : scanned store markers c = .ok record) (done : List Action) :
    (scan store markers c).after done =
      (.ok ((visited store markers (Repository.depth store) "/" commit.tree).foldl
          (noted store markers) .empty),
        ((visited store markers (Repository.depth store) "/" commit.tree).map
          fun v => Action.entries v.2).reverse ++ .commit c :: done) := by
  rw [scanned, after_scan_of_commit reachable hcommit] at h
  rw [after_scan_of_commit reachable hcommit]
  exact after_searchTree reachable (hasRoom_of_acyclic markers bounded acyclic)
    (fun path tree => exists_entries_of_searchTree h) .empty _

/-- Scanning a commit finds the installs nearest to the top. -/
theorem findsShallowest_of_scanned (reachable : Reachable store) (bounded : BoundsDepth store)
    (hcommit : Repository.commit store c = .ok commit) (tidy : IsTidy store commit.tree)
    (h : scanned store markers c = .ok record) :
    FindsShallowest store markers commit.tree record := by
  have hscan := congrArg Prod.fst (after_scan reachable bounded hcommit tidy.acyclic h [])
  rw [← scanned, h] at hscan
  rw [Except.ok.inj hscan]
  exact findsShallowest_foldl_noted (hasRoom_of_acyclic markers bounded tidy.acyclic) tidy

/-- Scanning comes to the same record in whatever order the entries of directories are. -/
theorem scanned_of_reordered {store' : ρ'} (reordered : Reordered store store')
    (reachable : Reachable store) (bounded : BoundsDepth store) (reachable' : Reachable store')
    (bounded' : BoundsDepth store') (hcommit : Repository.commit store c = .ok commit)
    (tidy : IsTidy store commit.tree) (h : scanned store markers c = .ok record) :
    scanned store' markers c = .ok record := by
  have hcommit' := (reordered.commit c commit).1 hcommit
  have tidy' := reordered.isTidy tidy
  have acyclic' : ∀ commit', Repository.commit store' c = .ok commit' →
      IsAcyclic store' commit'.tree := fun commit' h' => by
    obtain rfl := Except.ok.inj (hcommit'.symm.trans h')
    exact tidy'.acyclic
  have hread := h
  rw [scanned, after_scan_of_commit reachable hcommit] at hread
  obtain ⟨record', h'⟩ := (exists_scanned_iff reachable' bounded' acyclic').2
    ⟨commit, hcommit', fun path tree hvisits => by
      obtain ⟨entries, hentries⟩ :=
        exists_entries_of_searchTree hread (reordered.symm.visits hvisits)
      obtain ⟨entries', hentries', -⟩ := reordered.entries tree entries hentries
      exact ⟨entries', hentries'⟩⟩
  have hfinds := findsShallowest_of_scanned reachable bounded hcommit tidy h
  have hfinds' := findsShallowest_of_scanned reachable' bounded' hcommit' tidy' h'
  rw [h', (reordered.findsShallowest hfinds).unique hfinds']

end Scanning

/-- What scanning a commit finds, if no directory below the top contains itself and the directories
inside each other can be told by their names. -/
theorem scan_shallowest (store : ρ) (markers : Markers) (c : CommitId)
    (reachable : Reachable store) (bounded : BoundsDepth store)
    (tidy : ∀ commit, Repository.commit store c = .ok commit → IsTidy store commit.tree) :
    -- Scanning succeeds if the commit and all that is visited can be read, and fails with an answer
    -- of the store otherwise.
    ((∃ record, scanned store markers c = .ok record) ↔
      ∃ commit, Repository.commit store c = .ok commit ∧
        ∀ path tree, Visits store markers "/" commit.tree path tree →
          ∃ entries, Repository.entries store tree = .ok entries) ∧
    (∀ e, scanned store markers c = .error e →
      Repository.commit store c = .error e ∨
        ∃ commit, Repository.commit store c = .ok commit ∧
          ∃ path tree, Visits store markers "/" commit.tree path tree ∧
            Repository.entries store tree = .error e) ∧
    -- It comes to an end by itself.
    (∃ enough, ∀ steps ≥ enough,
      (Reading.commit store c >>= fun commit =>
        worklist store markers steps [("/", commit.tree)] .empty) = scan store markers c) ∧
    ∀ commit record, Repository.commit store c = .ok commit →
      scanned store markers c = .ok record →
      FindsShallowest store markers commit.tree record ∧
      -- Each directory visited is read once, and nothing else is read.
      (∃ reads : List (String × TreeId),
        (reads.map Prod.fst).Nodup ∧
        (∀ path tree, (path, tree) ∈ reads ↔ Visits store markers "/" commit.tree path tree) ∧
        ∀ done, (scan store markers c).after done =
          (.ok record, (reads.map fun v => Action.entries v.2).reverse ++ .commit c :: done)) ∧
      (∀ outer tree inner found, Visits store markers "/" commit.tree outer tree →
        IsInstall store markers tree ∨ HoldsMarkerFile store markers tree →
        Visits store markers "/" commit.tree inner found →
        outer.toList <+: inner.toList → inner = outer) ∧
      -- In which order the entries of directories are does not matter.
      ∀ (ρ' : Type) [Repository ρ'] (store' : ρ'), Reordered store store' →
        Reachable store' → BoundsDepth store' → scanned store' markers c = .ok record := by
  have acyclic commit (hcommit : Repository.commit store c = .ok commit) :=
    (tidy commit hcommit).acyclic
  refine ⟨exists_scanned_iff reachable bounded acyclic,
    fun e => refused_of_scanned_eq_error reachable bounded acyclic,
    exists_worklist_eq_scan bounded acyclic, fun commit record hcommit h => ?_⟩
  have tidy := tidy commit hcommit
  have hasRoom := hasRoom_of_acyclic markers bounded tidy.acyclic
  refine ⟨findsShallowest_of_scanned reachable bounded hcommit tidy h,
    ⟨visited store markers (Repository.depth store) "/" commit.tree, nodup_visited hasRoom tidy,
      fun path tree => mem_visited_iff hasRoom, fun done => ?_⟩, ?_, ?_⟩
  · have hafter := after_scan reachable bounded hcommit tidy.acyclic h
    have hrecord := congrArg Prod.fst (hafter [])
    rw [← scanned, h] at hrecord
    rw [hafter done, hrecord]
  · intro outer tree inner found houter hmarked hinner hbelow
    obtain ⟨entries, hentries, hmarked⟩ := not_isScaffolding_of_marked hmarked
    exact tidy.named.eq_of_isPrefix_of_marked houter hentries hmarked hinner hbelow
  · intro ρ' _ store' reordered reachable' bounded'
    exact scanned_of_reordered reordered reachable bounded reachable' bounded' hcommit tidy h

/-- Two directories of a commit share their contents, which have the marker directory and another
one that is not there; a third one has the marker file. -/
def shelves : Memory where
  logs := .empty
  commits := .ofList [("C1", "repository")]
  trees := .ofList
    [("repository", [⟨.tree, "copy", "alone"⟩, ⟨.blob, "notes", "b1"⟩, ⟨.tree, "old", "shelves"⟩,
      ⟨.tree, "trunk", "line"⟩]),
    ("shelves", [⟨.tree, "R1", "line"⟩]),
    ("alone", [⟨.blob, "README", "b2"⟩, ⟨.tree, "src", "s1"⟩]),
    ("line", [⟨.tree, "lib", "no"⟩, ⟨.tree, "vice", "v1"⟩]),
    ("v1", [])]
  written := []
  refs := .empty

theorem isTidy_shelves : IsTidy shelves "repository" := by
  have htrees : ∀ e ∈ shelves.trees.entries, HasDirectoryNames e.2 ∧
      ∀ inner ∈ e.2, inner.kind = .tree → inner.id.length < e.1.length := by decide +kernel
  exact isTidy_of_rank String.length fun tree entries hentries =>
    htrees (tree, entries) (SortedMap.get?_eq_some_iff.1 (Memory.get?_of_lookUp hentries))

/-- The shared contents are read once for each of their paths, and nothing below them is read. -/
theorem scan_shallowest_shelves :
    let markers : Markers := ⟨"vice", "README"⟩
    let record : InstallRecord :=
      ⟨.ofList [("/old/R1/", "line"), ("/trunk/", "line")],
        .ofList [("/copy/", "alone"), ("/old/R1/vice/", "v1"), ("/trunk/vice/", "v1")]⟩
    IsTidy shelves "repository" ∧ FindsShallowest shelves markers "repository" record ∧
      (scan shelves markers "C1").after [] =
        (.ok record, [.entries "alone", .entries "line", .entries "shelves", .entries "line",
          .entries "repository", .commit "C1"]) := by
  intro markers record
  have hscan : (scan shelves markers "C1").after [] =
      (.ok record, [.entries "alone", .entries "line", .entries "shelves", .entries "line",
        .entries "repository", .commit "C1"]) := by
    decide +kernel
  have hcommit : Repository.commit shelves "C1" =
      .ok ⟨"C1", "repository", [], Memory.importer, Memory.importer, ""⟩ := by decide +kernel
  obtain ⟨-, -, -, h⟩ := scan_shallowest shelves markers "C1" (fun _ => rfl)
    (boundsDepth_memory shelves) fun commit h => by
      obtain rfl := Except.ok.inj (hcommit.symm.trans h)
      exact isTidy_shelves
  exact ⟨isTidy_shelves, (h _ record hcommit (congrArg Prod.fst hscan)).1, hscan⟩

end ReleaseRecovery
