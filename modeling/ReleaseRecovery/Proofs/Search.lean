import ReleaseRecovery.Proofs.Readings

/-!
# Where installs are

Scanning a commit finds nothing but what is there: a full install at a path is the directory at that
path, and it directly contains the marker directory. The histories that are collected are parts of
the logs.

## Main Definitions

* `DirectoryAt` — a directory stands at a path below another one
* `IsInstall` — a directory directly contains the marker directory

## Main Statements

* `searchTree_invariant` — searching a directory adds nothing but installs that are there
* `DirectoryAt.eq_top` — nothing but the top directory stands at the path of the top directory
* `exists_commit_of_scanned` — the full installs of a commit that was scanned
* `exists_log_of_collected` — the history of the reference line is taken from its log
-/

namespace ReleaseRecovery

variable {ρ : Type} [Repository ρ]

/-- A directory stands at a path below a top directory, which is at `/` itself. -/
inductive DirectoryAt (store : ρ) (top : TreeId) : String → TreeId → Prop
  | top : DirectoryAt store top "/" top
  | inside {path : String} {tree : TreeId} {entries : List Entry} {e : Entry} :
    DirectoryAt store top path tree → Repository.entries store tree = .ok entries →
      e ∈ entries → e.kind = .tree →
      DirectoryAt store top (InstallRecord.subpath path e.name) e.id

/-- A directory directly contains the marker directory. -/
def IsInstall (store : ρ) (markers : Markers) (tree : TreeId) : Prop :=
  ∃ entries, Repository.entries store tree = .ok entries ∧
    ∃ e ∈ entries, e.kind = .tree ∧ e.name = markers.directory

section Search

variable {store : ρ} {markers : Markers} {top tree : TreeId} {path : String}

theorem DirectoryAt.path_ne_empty (h : DirectoryAt store top path tree) : path ≠ "" := by
  cases h with
  | top => decide
  | inside h =>
    intro hempty
    have hlength := congrArg String.length hempty
    simp [InstallRecord.subpath] at hlength

/-- A path below the top directory is longer than that of the top directory. -/
theorem DirectoryAt.eq_top (h : DirectoryAt store top "/" tree) : tree = top := by
  generalize hpath : "/" = path at h
  cases h with
  | top => rfl
  | @inside parent _ _ e hparent _ _ _ =>
    -- The parent would have no path at all.
    have hlength := congrArg String.length hpath
    have hone : "/".length = 1 := rfl
    have hempty : parent.length = 0 := by
      rw [InstallRecord.subpath, String.length_append, String.length_append] at hlength
      omega
    exact absurd (String.length_eq_zero_iff.1 hempty) hparent.path_ne_empty

/-- All full installs of a record are directories below a top directory. -/
def AreThere (store : ρ) (markers : Markers) (top : TreeId) (record : InstallRecord) : Prop :=
  ∀ path tree, record.full.get? path = some tree →
    DirectoryAt store top path tree ∧ IsInstall store markers tree

theorem areThere_empty (store : ρ) (markers : Markers) (top : TreeId) :
    AreThere store markers top .empty := by
  intro path tree hget
  rw [InstallRecord.empty, SortedMap.get?_empty] at hget
  cases hget

theorem Markers.isDirectory_iff {e : Entry} :
    markers.isDirectory e = true ↔ e.kind = .tree ∧ e.name = markers.directory := by
  simp [isDirectory]

/-- Searching a directory adds nothing but installs that are there. -/
theorem searchTree_invariant {room : Nat} {record record' : InstallRecord} {done : List Action}
    (hdirectory : DirectoryAt store top path tree) (h : AreThere store markers top record)
    (hrun : ((searchTree store markers room tree path record).after done).1 = .ok record') :
    AreThere store markers top record' := by
  -- The room bounds how deep the search goes, and every level has one less of it.
  induction room generalizing tree path record record' done with
  | zero => cases hrun
  | succ room ih =>
    obtain ⟨entries, hanswer, hrest⟩ := Reading.after_bind_eq_ok_iff.1 hrun
    have hentries : Repository.entries store tree = .ok entries :=
      Reading.answer_of_after_ask hanswer
    cases hfind : entries.find? markers.isDirectory with
    | some marker =>
      rw [hfind] at hrest
      obtain rfl := Except.ok.inj hrest
      have hinstall : IsInstall store markers tree :=
        ⟨entries, hentries, marker, List.mem_of_find?_eq_some hfind,
          Markers.isDirectory_iff.1 (List.find?_some hfind)⟩
      intro path' tree' hget
      rw [InstallRecord.addFull, SortedMap.get?_insert] at hget
      split at hget
      · rename_i heq
        obtain rfl := Option.some.inj hget
        exact heq ▸ ⟨hdirectory, hinstall⟩
      · exact h path' tree' hget
    | none =>
      rw [hfind] at hrest
      dsimp only at hrest
      split at hrest
      · obtain rfl := Except.ok.inj hrest
        exact h
      · refine Reading.foldlM_invariant ?_ h hrest
        intro record e he record' done hrecord hstep
        obtain ⟨hmem, hkind⟩ := List.mem_filter.1 (List.mem_reverse.1 he)
        exact ih (hdirectory.inside hentries hmem (by simpa using hkind)) hrecord hstep

/-- The full installs of a commit that was scanned are directories of that commit. -/
theorem exists_commit_of_scanned {c : CommitId} {record : InstallRecord}
    (h : scanned store markers c = .ok record) :
    ∃ commit, Repository.commit store c = .ok commit ∧
      AreThere store markers commit.tree record := by
  obtain ⟨commit, hanswer, hsearch⟩ := Reading.after_bind_eq_ok_iff.1 h
  refine ⟨commit, Reading.answer_of_after_ask hanswer, ?_⟩
  exact searchTree_invariant .top (areThere_empty store markers commit.tree) hsearch

end Search

/-! ### Logs -/

theorem mem_of_mem_truncated {terminators log : List CommitId} {c : CommitId}
    (h : c ∈ truncated terminators log) : c ∈ log :=
  (upTo_isPrefix _ log).subset (List.mem_eraseDups.1 h)

/-- The history of the reference line is taken from its log. -/
theorem exists_log_of_collected {store : ρ} {layout : Layout}
    {histories : SortedMap BranchHistory} (h : collected store layout = .ok histories) :
    ∃ log, Repository.log store layout.reference = .ok log ∧
      ∀ reference, histories.get? layout.reference = some reference →
        ∀ c ∈ reference.commits, c ∈ log := by
  obtain ⟨reference, hreference, hrest⟩ := Reading.after_bind_eq_ok_iff.1 h
  obtain ⟨names, -, hrest⟩ := Reading.after_bind_eq_ok_iff.1 hrest
  obtain ⟨others, -, hhistories⟩ := Reading.after_bind_eq_ok_iff.1 hrest
  obtain ⟨log, hlog, htruncated⟩ := Reading.after_bind_eq_ok_iff.1 hreference
  obtain rfl := Except.ok.inj hhistories
  obtain rfl := Except.ok.inj htruncated
  refine ⟨log, Reading.answer_of_after_ask hlog, fun found hfound c hc => ?_⟩
  rw [SortedMap.get?_insert, if_pos rfl] at hfound
  obtain rfl := Option.some.inj hfound
  exact mem_of_mem_truncated hc

end ReleaseRecovery
