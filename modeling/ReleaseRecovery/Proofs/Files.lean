import ReleaseRecovery.Files
import ReleaseRecovery.Proofs.Calculations

/-!
# Replacing a file

Replacing a file makes and fills a temporary file and renames it. Neither step touches a directory,
so whether a replacement succeeds depends on the directories alone, and once it does it always does.

## Main Definitions

* `Files.SameDirectories` — the same directories stand at the same places
* `Files.content?` — what can be read at a path
* `Files.Replaceable` — the file at a path can be replaced

## Main Statements

* `Files.replace_eq_ok_iff` — when a replacement succeeds
* `Files.read_replace` — the file then has the new contents
* `Files.content?_replace` — otherwise it has the old or the new contents
* `Files.sameDirectories_replace` — the directories stay the same in any case
-/

namespace ReleaseRecovery

theorem SortedMap.insert_insert {α : Type} (m : SortedMap α) (key : String) (a b : α) :
    (m.insert key a).insert key b = m.insert key b := by
  refine SortedMap.ext_get? fun k => ?_
  rw [get?_insert, get?_insert, get?_insert]
  by_cases h : k = key <;> simp [h]

namespace Files

variable {files files' : Files}

/-! ### Directories -/

/-- The same directories stand at the same places, and paths start from the same one. -/
structure SameDirectories (files files' : Files) : Prop where
  start_eq : files'.start = files.start
  directory_iff : ∀ names,
    files'.node? names = some .directory ↔ files.node? names = some .directory

theorem SameDirectories.refl (files : Files) : SameDirectories files files := ⟨rfl, fun _ => .rfl⟩

theorem SameDirectories.symm (h : SameDirectories files files') : SameDirectories files' files :=
  ⟨h.start_eq.symm, fun names => (h.directory_iff names).symm⟩

theorem SameDirectories.trans {files'' : Files} (h : SameDirectories files files')
    (h' : SameDirectories files' files'') : SameDirectories files files'' :=
  ⟨h'.start_eq.trans h.start_eq,
    fun names => (h'.directory_iff names).trans (h.directory_iff names)⟩

theorem enter_of_not_directory {place : List String} (h : files.node? place ≠ some .directory)
    (name : String) (p : List String) : files.enter place name ≠ .ok p := by
  intro he
  unfold enter at he
  split at he
  · cases he
  · cases he
  · rename_i hnode
    exact h hnode

theorem enter_of_directory {place : List String} (h : files.node? place = some .directory)
    (h' : files'.node? place = some .directory) (name : String) :
    files'.enter place name = files.enter place name := by
  unfold enter
  rw [h, h']

/-- Going further depends on the directories alone. -/
theorem SameDirectories.enter_eq_ok_iff (h : SameDirectories files files') {place : List String}
    {name : String} {p : List String} :
    files'.enter place name = .ok p ↔ files.enter place name = .ok p := by
  by_cases hnode : files.node? place = some .directory
  · rw [enter_of_directory hnode ((h.directory_iff place).2 hnode)]
  · have hnode' : files'.node? place ≠ some .directory := fun e =>
      hnode ((h.directory_iff place).1 e)
    exact ⟨fun e => absurd e (enter_of_not_directory hnode' name p),
      fun e => absurd e (enter_of_not_directory hnode name p)⟩

theorem SameDirectories.foldlM_enter_eq_ok_iff (h : SameDirectories files files')
    {names place p : List String} :
    names.foldlM files'.enter place = .ok p ↔ names.foldlM files.enter place = .ok p := by
  induction names generalizing place with
  | nil => exact .rfl
  | cons name names ih =>
    rw [List.foldlM_cons, List.foldlM_cons, bind_eq_ok_iff, bind_eq_ok_iff]
    exact exists_congr fun q => and_congr h.enter_eq_ok_iff ih

/-- Where a path leads depends on the directories alone. -/
theorem SameDirectories.resolve_eq_ok_iff (h : SameDirectories files files') {path : String}
    {p : Place} : files'.resolve path = .ok p ↔ files.resolve path = .ok p := by
  unfold resolve
  split
  · exact .rfl
  split
  · exact .rfl
  unfold trace
  dsimp only
  split
  · exact .rfl
  · rw [bind_eq_ok_iff, bind_eq_ok_iff, h.start_eq]
    exact exists_congr fun q => and_congr_left fun _ => h.foldlM_enter_eq_ok_iff

/-! ### Contents -/

/-- What can be read at a path. -/
def content? (files : Files) (path : String) : Option Bytes := (files.read path).toOption

theorem read_eq_ok_iff {path : String} {content : Bytes} :
    files.read path = .ok content ↔ ∃ p, files.resolve path = .ok p ∧
      files.node? p.names = some (.file content) ∧ p.hasSlash = false := by
  unfold read
  rw [bind_eq_ok_iff]
  refine exists_congr fun p => and_congr_right fun _ => ?_
  cases files.node? p.names with
  | none => simp [throw, throwThe, MonadExceptOf.throw]
  | some node =>
    cases node with
    | directory => simp [throw, throwThe, MonadExceptOf.throw]
    | file c =>
      cases p.hasSlash <;> simp [throw, throwThe, MonadExceptOf.throw, pure, Except.pure]

theorem content?_eq_some_iff {path : String} {content : Bytes} :
    files.content? path = some content ↔ files.read path = .ok content :=
  toOption_eq_some_iff

theorem SameDirectories.read_eq_ok_iff (h : SameDirectories files files') {path : String}
    {content : Bytes} :
    files'.read path = .ok content ↔ ∃ p, files.resolve path = .ok p ∧
      files'.node? p.names = some (.file content) ∧ p.hasSlash = false := by
  rw [Files.read_eq_ok_iff]
  exact exists_congr fun p => and_congr_left fun _ => h.resolve_eq_ok_iff

/-- What can be read stays the same unless it changes at the place that the path leads to. -/
theorem SameDirectories.content?_eq (h : SameDirectories files files') {path : String}
    (hnode : ∀ p, files.resolve path = .ok p → p.hasSlash = false →
      files'.node? p.names = files.node? p.names) :
    files'.content? path = files.content? path := by
  refine Option.ext fun content => ?_
  rw [content?_eq_some_iff, content?_eq_some_iff, h.read_eq_ok_iff, Files.read_eq_ok_iff]
  refine exists_congr fun p => and_congr_right fun hp => and_congr_left fun hslash => ?_
  rw [hnode p hp hslash]

/-! ### Putting a file somewhere -/

theorem node?_put (names : List String) (node : FileNode) (other : List String) :
    (files.put names node).node? other =
      if other = [] then some .directory
      else if key other = key names then some node else files.nodes.get? (key other) := by
  unfold node? put
  rw [SortedMap.get?_insert]

theorem ne_nil_of_not_directory {names : List String} (h : files.node? names ≠ some .directory) :
    names ≠ [] := by
  rintro rfl
  exact h (if_pos rfl)

theorem node?_put_self {names : List String} (h : files.node? names ≠ some .directory)
    (node : FileNode) : (files.put names node).node? names = some node := by
  rw [node?_put, if_neg (ne_nil_of_not_directory h), if_pos rfl]

theorem node?_put_of_key_ne {names other : List String} (h : key other ≠ key names)
    (node : FileNode) : (files.put names node).node? other = files.node? other := by
  rw [node?_put, if_neg h]
  rfl

theorem put_put (names : List String) (a b : FileNode) :
    (files.put names a).put names b = files.put names b := by
  rw [put, put, put, SortedMap.insert_insert]

/-- A file that is put where no directory stands leaves the directories as they are. -/
theorem sameDirectories_put {names : List String} (h : files.node? names ≠ some .directory)
    (content : Bytes) : SameDirectories files (files.put names (.file content)) := by
  refine ⟨rfl, fun other => ?_⟩
  rw [node?_put]
  by_cases hnil : other = []
  · rw [if_pos hnil, hnil]
    exact iff_of_true rfl (if_pos rfl)
  rw [if_neg hnil, node?, if_neg hnil]
  by_cases hkey : key other = key names
  · rw [if_pos hkey, hkey]
    rw [node?, if_neg (ne_nil_of_not_directory h)] at h
    exact iff_of_false (by simp) h
  · rw [if_neg hkey]

theorem sameDirectories_drop {names : List String} (h : files.node? names ≠ some .directory) :
    SameDirectories files (files.drop names) := by
  refine ⟨rfl, fun other => ?_⟩
  unfold node? drop
  by_cases hnil : other = []
  · rw [if_pos hnil, if_pos hnil]
  rw [if_neg hnil, if_neg hnil, SortedMap.get?_filterKeys]
  by_cases hkey : key other = key names
  · rw [node?, if_neg (ne_nil_of_not_directory h)] at h
    rw [hkey, if_neg (by simp)]
    exact iff_of_false (by simp) h
  · rw [if_pos (bne_iff_ne.2 hkey)]

/-! ### Replacing -/

/-- A file can stand at a place. -/
structure IsFree (files : Files) (p : Place) : Prop where
  isNamed : p.isNamed = true
  noSlash : p.hasSlash = false
  notDirectory : files.node? p.names ≠ some .directory

theorem SameDirectories.isFree_iff (h : SameDirectories files files') {p : Place} :
    files'.IsFree p ↔ files.IsFree p :=
  ⟨fun f => ⟨f.isNamed, f.noSlash, fun e => f.notDirectory ((h.directory_iff _).2 e)⟩,
    fun f => ⟨f.isNamed, f.noSlash, fun e => f.notDirectory ((h.directory_iff _).1 e)⟩⟩

/-- The temporary file beside a file. -/
def temporary (path : String) : String := Path.withExtension path "tmp"

/-- Files can stand where a path and its temporary file lead. -/
def Replaceable (files : Files) (path : String) : Prop :=
  ∃ source target, files.resolve (temporary path) = .ok source ∧ files.IsFree source ∧
    files.resolve path = .ok target ∧ files.IsFree target

theorem SameDirectories.replaceable_iff (h : SameDirectories files files') {path : String} :
    files'.Replaceable path ↔ files.Replaceable path := by
  refine exists_congr fun source => exists_congr fun target => ?_
  rw [h.resolve_eq_ok_iff, h.resolve_eq_ok_iff, h.isFree_iff, h.isFree_iff]

/-- A file that can be replaced is missing, or it can be read. -/
theorem Replaceable.read_eq {path : String} (h : files.Replaceable path) :
    files.read path = (files.content? path).elim (.error .notFound) .ok := by
  obtain ⟨-, target, -, -, htarget, free⟩ := h
  unfold content? read
  rw [htarget]
  dsimp only [bind, Except.bind]
  rw [free.noSlash]
  rcases hnode : files.node? target.names with - | - | -
  · rfl
  · rfl
  · exact absurd hnode free.notDirectory

theorem runCreate_eq_ok_iff {path : String} :
    FileStep.runCreate files path = .ok files' ↔ ∃ p, files.resolve path = .ok p ∧
      files.IsFree p ∧ files' = files.put p.names (.file []) := by
  unfold FileStep.runCreate
  rw [bind_eq_ok_iff]
  refine exists_congr fun p => and_congr_right fun _ => ?_
  dsimp only
  split
  · rename_i h
    refine iff_of_false (fun e => by cases e) fun ⟨free, _⟩ => ?_
    rw [free.noSlash, free.isNamed] at h
    simp at h
  · rename_i h
    simp only [Bool.not_eq_true', not_or, Bool.not_eq_true, Bool.not_eq_false] at h
    split
    · rename_i hnode
      exact iff_of_false (fun e => by cases e) fun ⟨free, _⟩ => free.notDirectory hnode
    · rename_i hnode
      constructor
      · rintro ⟨⟩
        exact ⟨⟨h.2, h.1, hnode⟩, rfl⟩
      · rintro ⟨-, rfl⟩
        rfl

/-- Data that is written to a new file makes up its contents. -/
theorem runWrite_put {path : String} {p : Place} (hp : files.resolve path = .ok p)
    (free : files.IsFree p) (data : Bytes) :
    FileStep.runWrite (files.put p.names (.file [])) path data =
      .ok (files.put p.names (.file data)) := by
  have same := sameDirectories_put free.notDirectory []
  have hp' := same.resolve_eq_ok_iff.2 hp
  have hread : (files.put p.names (.file [])).read path = .ok [] :=
    read_eq_ok_iff.2 ⟨p, hp', node?_put_self free.notDirectory _, free.noSlash⟩
  rw [FileStep.runWrite, hp', hread]
  show Except.ok ((files.put p.names (.file [])).put p.names (.file ([] ++ data))) = _
  rw [put_put, List.nil_append]

/-- A file that was made at its place takes any other place where a file can stand. -/
theorem runRename_put {old new : String} {source : Place} (hsource : files.resolve old = .ok source)
    (free : files.IsFree source) (data : Bytes) :
    let staged := files.put source.names (.file data)
    FileStep.runRename staged old new = .ok files' ↔ ∃ target, files.resolve new = .ok target ∧
      files.IsFree target ∧ files' =
        if source.names = target.names then staged
        else (staged.drop source.names).put target.names (.file data) := by
  intro staged
  have same : SameDirectories files staged := sameDirectories_put free.notDirectory data
  have hnode : staged.node? source.names = some (.file data) := node?_put_self free.notDirectory _
  unfold FileStep.runRename
  rw [same.resolve_eq_ok_iff.2 hsource]
  show (do
    let target ← staged.resolve new
    _ : Except FileError Files) = .ok files' ↔ _
  rw [bind_eq_ok_iff]
  refine exists_congr fun target => and_congr same.resolve_eq_ok_iff ?_
  rw [← same.isFree_iff, hnode, free.isNamed, free.noSlash]
  dsimp only
  -- What keeps a file from being renamed to a place is just what keeps one from standing there.
  cases hnamed : target.isNamed with
  | false =>
    refine iff_of_false (fun e => by cases e) fun ⟨ftarget, _⟩ => ?_
    rw [ftarget.isNamed] at hnamed
    cases hnamed
  | true =>
    cases hslash : target.hasSlash with
    | true =>
      refine iff_of_false (fun e => by cases e) fun ⟨ftarget, _⟩ => ?_
      rw [ftarget.noSlash] at hslash
      cases hslash
    | false =>
      simp only [Bool.not_true, Bool.false_eq_true, or_self, if_false]
      split
      · rename_i hdirectory
        exact iff_of_false (fun e => by cases e) fun ⟨ftarget, _⟩ => ftarget.notDirectory hdirectory
      · rename_i hdirectory
        have ftarget : staged.IsFree target := ⟨hnamed, hslash, hdirectory⟩
        split
        · exact ⟨fun e => ⟨ftarget, (Except.ok.inj e).symm⟩, fun e => congrArg _ e.2.symm⟩
        · exact ⟨fun e => ⟨ftarget, (Except.ok.inj e).symm⟩, fun e => congrArg _ e.2.symm⟩

/-- Without a place for the temporary file nothing is changed. -/
theorem replace_of_runCreate_eq_error {path : String} {e : FileError}
    (h : FileStep.runCreate files (temporary path) = .error e) (data : Bytes) :
    files.replace path data = (.error e, files) := by
  rw [replace, replacement, FileStep.runAll_cons, FileStep.run, ← temporary, h]

/-- With a place for the temporary file all depends on whether it can be renamed. -/
theorem replace_eq {path : String} {source : Place}
    (hsource : files.resolve (temporary path) = .ok source) (free : files.IsFree source)
    (data : Bytes) :
    files.replace path data =
      match FileStep.runRename (files.put source.names (.file data)) (temporary path) path with
      | .ok files => (.ok (), files)
      | .error e => (.error e, files.put source.names (.file data)) := by
  have hcreate := runCreate_eq_ok_iff.2 ⟨source, hsource, free, rfl⟩
  have hwrite := runWrite_put hsource free data
  rw [replace, replacement, FileStep.runAll_cons, FileStep.run, ← temporary, hcreate]
  dsimp only
  rw [FileStep.runAll_cons, FileStep.run, hwrite]
  rfl

/-- The files after a replacement. -/
theorem replace_cases (files : Files) (path : String) (data : Bytes) :
    (∃ e, files.replace path data = (.error e, files)) ∨
      ∃ source, files.resolve (temporary path) = .ok source ∧ files.IsFree source ∧
        let staged := files.put source.names (.file data)
        ((∃ e, files.replace path data = (.error e, staged)) ∨
          ∃ target, files.resolve path = .ok target ∧ files.IsFree target ∧
            files.replace path data = (.ok (), if source.names = target.names then staged
              else (staged.drop source.names).put target.names (.file data))) := by
  cases hcreate : FileStep.runCreate files (temporary path) with
  | error e => exact .inl ⟨e, replace_of_runCreate_eq_error hcreate data⟩
  | ok created =>
    obtain ⟨source, hsource, free, -⟩ := runCreate_eq_ok_iff.1 hcreate
    refine .inr ⟨source, hsource, free, ?_⟩
    have hreplace := replace_eq hsource free data
    cases hrename : FileStep.runRename (files.put source.names (.file data)) (temporary path)
        path with
    | error e =>
      rw [hrename] at hreplace
      exact .inl ⟨e, hreplace⟩
    | ok renamed =>
      rw [hrename] at hreplace
      obtain ⟨target, htarget, ftarget, rfl⟩ := (runRename_put hsource free data).1 hrename
      exact .inr ⟨target, htarget, ftarget, hreplace⟩

/-- Whether a file can be replaced depends on the directories alone. -/
theorem replace_eq_ok_iff {path : String} {data : Bytes} :
    (files.replace path data).1 = .ok () ↔ files.Replaceable path := by
  constructor
  · intro h
    obtain ⟨e, hreplace⟩ | ⟨source, hsource, free, hreplace⟩ := replace_cases files path data
    · rw [hreplace] at h
      cases h
    obtain ⟨e, hreplace⟩ | ⟨target, htarget, ftarget, -⟩ := hreplace
    · rw [hreplace] at h
      cases h
    · exact ⟨source, target, hsource, free, htarget, ftarget⟩
  · rintro ⟨source, target, hsource, free, htarget, ftarget⟩
    have hrename := (runRename_put hsource free data).2 ⟨target, htarget, ftarget, rfl⟩
    rw [replace_eq hsource free, hrename]

/-- A replacement leaves the directories as they are. -/
theorem sameDirectories_replace (files : Files) (path : String) (data : Bytes) :
    SameDirectories files (files.replace path data).2 := by
  obtain ⟨e, h⟩ | ⟨source, -, free, h⟩ := replace_cases files path data
  · rw [h]
    exact .refl files
  have hstaged := sameDirectories_put free.notDirectory data
  obtain ⟨e, h⟩ | ⟨target, -, ftarget, h⟩ := h
  · rw [h]
    exact hstaged
  · rw [h]
    dsimp only
    split
    · exact hstaged
    · have hsource := (hstaged.isFree_iff.2 free).notDirectory
      have hdrop := hstaged.trans (sameDirectories_drop hsource)
      exact hdrop.trans (sameDirectories_put (hdrop.isFree_iff.2 ftarget).notDirectory data)

/-- A file that was replaced has the new contents. -/
theorem read_replace {path : String} {data : Bytes} (h : (files.replace path data).1 = .ok ()) :
    (files.replace path data).2.read path = .ok data := by
  rw [(sameDirectories_replace files path data).read_eq_ok_iff]
  obtain ⟨e, hreplace⟩ | ⟨source, -, free, hreplace⟩ := replace_cases files path data
  · rw [hreplace] at h
    cases h
  obtain ⟨e, hreplace⟩ | ⟨target, htarget, ftarget, hreplace⟩ := hreplace
  · rw [hreplace] at h
    cases h
  · refine ⟨target, htarget, ?_, ftarget.noSlash⟩
    rw [hreplace]
    dsimp only
    split
    · rename_i hsame
      rw [← hsame]
      exact node?_put_self free.notDirectory _
    · rw [node?_put, if_neg (ne_nil_of_not_directory ftarget.notDirectory), if_pos rfl]

/-- A file that could not be replaced has the contents that it had, or the new ones in the case that
its path leads to its own temporary file. -/
theorem content?_replace (files : Files) (path : String) (data : Bytes) :
    (files.replace path data).2.content? path = files.content? path ∨
      (files.replace path data).2.content? path = some data := by
  have same := sameDirectories_replace files path data
  obtain ⟨e, h⟩ | ⟨source, -, free, h⟩ := replace_cases files path data
  · rw [h]
    exact .inl rfl
  obtain ⟨e, h⟩ | ⟨target, htarget, ftarget, h⟩ := h
  · rw [h] at same ⊢
    -- The temporary file is left behind, and it may be the one that the path leads to.
    by_cases hmeets : ∃ p, files.resolve path = .ok p ∧ p.hasSlash = false ∧ p.names ≠ [] ∧
        key p.names = key source.names
    · obtain ⟨p, hp, hslash, hnil, hkey⟩ := hmeets
      refine .inr (content?_eq_some_iff.2 (same.read_eq_ok_iff.2 ⟨p, hp, ?_, hslash⟩))
      rw [node?_put, if_neg hnil, if_pos hkey]
    · refine .inl (same.content?_eq fun p hp hslash => ?_)
      by_cases hnil : p.names = []
      · rw [node?_put, if_pos hnil, node?, if_pos hnil]
      · exact node?_put_of_key_ne (fun hkey => hmeets ⟨p, hp, hslash, hnil, hkey⟩) _
  · refine .inr (content?_eq_some_iff.2 (read_replace ?_))
    rw [h]

end Files

end ReleaseRecovery
