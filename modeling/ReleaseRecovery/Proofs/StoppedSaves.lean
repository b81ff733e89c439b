import ReleaseRecovery.Proofs.Snapshots
import ReleaseRecovery.Proofs.TemporaryNames

/-!
# Saves that stop

Saving an index can stop at any point: before any of its changes, or half way through the writing of
the data. All that has happened before the last change happened to the temporary file, so as long as
this is another file, the file itself holds what it held, or the whole new text.

## Main Definitions

* `FileStep.Begun` — what has been done when changes stop

## Main Statements

* `Files.read_put_temporary` — a temporary file does not show beside itself
* `Files.read_stopped` — what a file holds when its replacement stops
* `Snapshot.read_stoppedSave` — what is loaded after a save that stopped
* `Snapshot.not_forall_read_stoppedSave` — the temporary file has to be another file
-/

namespace ReleaseRecovery

/-! ### Stopping -/

/-- What has been done of some changes when they stop: the first few of them, and of one that writes
any first part of the data. -/
inductive FileStep.Begun : List FileStep → List FileStep → Prop
  | stopped (steps : List FileStep) : Begun steps []
  | cut (path : String) (data : Bytes) (n : Nat) (rest : List FileStep) :
    Begun (.write path data :: rest) [.write path (data.take n)]
  | step (s : FileStep) {rest done : List FileStep} :
    Begun rest done → Begun (s :: rest) (s :: done)

theorem FileStep.Begun.refl (steps : List FileStep) : Begun steps steps := by
  induction steps with
  | nil => exact .stopped []
  | cons s rest ih => exact ih.step s

namespace Files

open FileStep

variable {files : Files} {path : String} {data : Bytes} {taken : List FileStep}

/-- The files when a replacement stops: as they were, or with a temporary file, or as after a
replacement that succeeded. -/
theorem runAll_begun (h : Begun (replacement path data) taken) :
    (runAll taken files).2 = files ∨
      (∃ source content, files.resolve (temporary path) = .ok source ∧ files.IsFree source ∧
        (runAll taken files).2 = files.put source.names (.file content)) ∨
      (files.replace path data).1 = .ok () ∧
        (runAll taken files).2 = (files.replace path data).2 := by
  cases h with
  | stopped => exact .inl rfl
  | step _ h =>
  rw [runAll_cons, run, ← temporary]
  cases hcreate : runCreate files (temporary path) with
  | error e => exact .inl rfl
  | ok created =>
  obtain ⟨source, hsource, free, rfl⟩ := runCreate_eq_ok_iff.1 hcreate
  refine .inr ?_
  cases h with
  | stopped => exact .inl ⟨source, [], hsource, free, rfl⟩
  | cut _ _ n =>
    dsimp only
    rw [runAll_cons, run, ← temporary, runWrite_put hsource free]
    exact .inl ⟨source, data.take n, hsource, free, rfl⟩
  | step _ h =>
  dsimp only
  rw [runAll_cons, run, ← temporary, runWrite_put hsource free]
  dsimp only
  cases h with
  | stopped => exact .inl ⟨source, data, hsource, free, rfl⟩
  | step _ h =>
  cases h with
  | stopped => exact .inl ⟨source, data, hsource, free, rfl⟩
  | step _ h =>
  cases h
  -- Nothing is left to be done but to rename the temporary file.
  have hreplace := replace_eq hsource free data
  rw [runAll_cons, run]
  dsimp only
  rw [runAll_cons, run, ← temporary]
  cases hrename : runRename (files.put source.names (.file data)) (temporary path) path with
  | error e => exact .inl ⟨source, data, hsource, free, rfl⟩
  | ok renamed =>
    rw [hrename] at hreplace
    exact .inr ⟨by rw [hreplace], by rw [hreplace]; rfl⟩

/-! ### Beside the temporary file -/

theorem key_concat_inj {place : List String} {a b : String}
    (h : key (place ++ [a]) = key (place ++ [b])) : a = b := by
  by_cases hplace : place = []
  · rw [hplace, List.nil_append, List.nil_append, key, key, String.intercalate_singleton,
      String.intercalate_singleton] at h
    exact h
  · rw [key, key, String.intercalate_append_of_ne_nil hplace (List.cons_ne_nil _ _),
      String.intercalate_append_of_ne_nil hplace (List.cons_ne_nil _ _),
      String.intercalate_singleton, String.intercalate_singleton] at h
    exact (String.append_right_inj _).1 h

theorem enter_of_name {place : List String} {name : String}
    (hplace : files.node? place = some .directory) (hdot : name ≠ ".") (hdots : name ≠ "..")
    {p : List String} (h : files.enter place name = .ok p) : p = place ++ [name] := by
  unfold enter at h
  rw [hplace] at h
  dsimp only at h
  rw [if_neg hdot, if_neg hdots] at h
  split at h
  · cases h
  · exact (Except.ok.inj h).symm

theorem enter_dot {place p : List String} (h : files.enter place "." = .ok p) : p = place := by
  unfold enter at h
  split at h
  · cases h
  · cases h
  · exact (Except.ok.inj h).symm

/-- To stay at a place depends on nothing but what stands there. -/
theorem foldlM_enter_dots {files' : Files} {place : List String}
    (h : files'.node? place = files.node? place) (n : Nat) :
    (List.replicate n ".").foldlM files'.enter place =
        (List.replicate n ".").foldlM files.enter place ∧
      ∀ p, (List.replicate n ".").foldlM files.enter place = .ok p → p = place := by
  induction n with
  | zero => exact ⟨rfl, fun p hp => (Except.ok.inj hp).symm⟩
  | succ n ih =>
    have hsame : files'.enter place "." = files.enter place "." := by
      unfold enter
      rw [h]
    rw [List.replicate_succ, List.foldlM_cons, List.foldlM_cons, hsame]
    cases henter : files.enter place "." with
    | error e => exact ⟨rfl, nofun⟩
    | ok p =>
      obtain rfl := enter_dot henter
      exact ih

/-- To go to a name and stay there is the same with and without another file in the directory. -/
theorem foldlM_enter_put {place : List String} {name other : String}
    (hplace : files.node? place = some .directory) (hdot : name ≠ ".") (hdots : name ≠ "..")
    (hne : name ≠ other) (free : files.node? (place ++ [other]) ≠ some .directory)
    (content : Bytes) (n : Nat) :
    let files' := files.put (place ++ [other]) (.file content)
    (name :: List.replicate n ".").foldlM files'.enter place =
        (name :: List.replicate n ".").foldlM files.enter place ∧
      ∀ p, (name :: List.replicate n ".").foldlM files.enter place = .ok p →
        files'.node? p = files.node? p := by
  intro files'
  have hplace' := ((sameDirectories_put free content).directory_iff place).2 hplace
  rw [List.foldlM_cons, List.foldlM_cons, enter_of_directory hplace hplace']
  cases henter : files.enter place name with
  | error e => exact ⟨rfl, nofun⟩
  | ok p =>
    obtain rfl := enter_of_name hplace hdot hdots henter
    have hnode : files'.node? (place ++ [name]) = files.node? (place ++ [name]) :=
      node?_put_of_key_ne (fun h => hne (key_concat_inj h)) _
    obtain ⟨hfold, hend⟩ := foldlM_enter_dots hnode n
    exact ⟨hfold, fun p hp => hend p hp ▸ hnode⟩

/-- Where the way of a path begins. -/
def origin (files : Files) (path : String) : List String :=
  if path.toList.head? = some '/' then [] else files.start

/-- Where a path leads, by the names on its way. -/
theorem trace_eq (files : Files) (hne : path ≠ "") :
    let names := (Path.segments path.toList).map String.ofList
    files.trace path = (names.foldlM files.enter (files.origin path)).map fun place =>
      { names := place
        isNamed := names.getLast? ≠ none ∧ names.getLast? ≠ some "." ∧ names.getLast? ≠ some ".."
        hasSlash := path.toList.getLast? = some '/' } := by
  intro names
  unfold trace
  rw [if_neg hne, Path.filter_parts, ← origin]
  show (names.foldlM files.enter (files.origin path) >>= _) = _
  cases names.foldlM files.enter (files.origin path) <;> rfl

/-- A path begins where the way to its name begins. -/
theorem origin_eq {way name rest : List Char} (h : path.toList = way ++ (name ++ rest))
    (hslash : '/' ∉ name) (hname : name ≠ []) :
    files.origin path = if way.head? = some '/' then [] else files.start := by
  unfold origin
  rw [h]
  cases way with
  | cons c way => rfl
  | nil =>
    cases name with
    | nil => exact absurd rfl hname
    | cons c name =>
      have hc : c ≠ '/' := fun heq => hslash (heq ▸ List.mem_cons_self)
      simp [hc]

theorem trace_of_resolve {p : Place} (h : files.resolve path = .ok p) :
    files.trace path = .ok p := by
  unfold resolve at h
  split at h
  · cases h
  split at h
  · cases h
  · exact h

/-- A file that can be made at the end of a way stands in the directory that the way leads to. -/
theorem exists_place_of_isFree {way other : List Char} {p : Place} (hway : Path.IsWay way)
    (hpath : path.toList = way.reverse ++ other) (hslash : '/' ∉ other) (hother : other ≠ [])
    (hp : files.resolve path = .ok p) (free : files.IsFree p) :
    String.ofList other ≠ "." ∧ String.ofList other ≠ ".." ∧
      ∃ place, ((Path.segments way.reverse).map String.ofList).foldlM files.enter
          (files.origin path) = .ok place ∧
        files.node? place = some .directory ∧ p.names = place ++ [String.ofList other] := by
  have hne : path ≠ "" := by
    rintro rfl
    exact hother (List.append_eq_nil_iff.1 hpath.symm).2
  have htrace := trace_of_resolve hp
  rw [trace_eq files hne, hpath, hway.segments hslash hother, List.map_append, List.map_singleton,
    List.getLast?_concat] at htrace
  obtain ⟨names, hfold, rfl⟩ := map_eq_ok_iff.1 htrace
  have hnamed := of_decide_eq_true free.isNamed
  have hdot : String.ofList other ≠ "." := fun h => hnamed.2.1 (congrArg some h)
  have hdots : String.ofList other ≠ ".." := fun h => hnamed.2.2 (congrArg some h)
  refine ⟨hdot, hdots, ?_⟩
  rw [List.foldlM_append] at hfold
  obtain ⟨place, hplace, hfold⟩ := bind_eq_ok_iff.1 hfold
  rw [List.foldlM_cons] at hfold
  obtain ⟨last, henter, hlast⟩ := bind_eq_ok_iff.1 hfold
  obtain rfl := Except.ok.inj hlast
  have hdirectory : files.node? place = some .directory := by
    by_contra hnot
    exact enter_of_not_directory hnot _ _ henter
  exact ⟨place, hplace, hdirectory, enter_of_name hdirectory hdot hdots henter⟩

/-- What is read at a path depends on where it leads and on what stands there. -/
theorem read_congr {files' : Files} (hresolve : files'.resolve path = files.resolve path)
    (hnode : ∀ p, files.resolve path = .ok p → files'.node? p.names = files.node? p.names) :
    files'.read path = files.read path := by
  unfold read
  rw [hresolve]
  cases h : files.resolve path with
  | error e => rfl
  | ok p =>
    simp only [bind, Except.bind]
    rw [hnode p h]

/-- A path leads to the same place wherever the way of its names does. -/
theorem resolve_congr {files' : Files} (hne : path ≠ "")
    (h : ((Path.segments path.toList).map String.ofList).foldlM files'.enter
        (files'.origin path) =
      ((Path.segments path.toList).map String.ofList).foldlM files.enter (files.origin path)) :
    files'.resolve path = files.resolve path := by
  unfold resolve
  rw [trace_eq files hne, trace_eq files' hne, h]

/-- From the place that the way to its name leads to, a path goes to the name and stays there. -/
theorem exists_foldlM_enter_eq {way tail : List Char} {name : String}
    (h : Path.Splits path.toList way name.toList tail) :
    ∃ n, ∀ (files : Files) (place : List String),
      ((Path.segments way.reverse).map String.ofList).foldlM files.enter (files.origin path) =
          .ok place →
        ((Path.segments path.toList).map String.ofList).foldlM files.enter (files.origin path) =
          (name :: List.replicate n ".").foldlM files.enter place := by
  obtain ⟨n, hsegments⟩ := h.segments
  refine ⟨n, fun files place hplace => ?_⟩
  rw [hsegments, List.map_append, List.map_cons, List.map_replicate, String.ofList_toList,
    List.foldlM_append, hplace]
  rfl

/-- A temporary file is looked for from the same place as the file that it is beside. -/
theorem origin_temporary {way name tail other : List Char}
    (h : Path.Splits path.toList way name tail)
    (htemporary : (temporary path).toList = way.reverse ++ other) (hslash : '/' ∉ other)
    (hne : other ≠ []) : files.origin (temporary path) = files.origin path := by
  have hpath := congrArg List.reverse h.eq
  rw [List.reverse_reverse, List.reverse_append, List.reverse_append, List.reverse_reverse,
    List.append_assoc] at hpath
  rw [origin_eq hpath h.isName.noSlash h.isName.ne_nil,
    origin_eq (htemporary.trans (by rw [List.append_nil])) hslash hne]

/-- A temporary file does not show beside itself: whatever is read under another name is read as
before, or refused for the same cause. -/
theorem read_put_temporary {name : String} {source : Place}
    (hname : Path.fileName? path = some name)
    (hother : Path.fileName? (temporary path) ≠ some name)
    (hsource : files.resolve (temporary path) = .ok source) (free : files.IsFree source)
    (content : Bytes) :
    (files.put source.names (.file content)).read path = files.read path := by
  obtain ⟨way, tail, hsplits⟩ := Path.exists_splits hname
  obtain ⟨other, htemporary, hcases⟩ := hsplits.temporary
  have hslash : '/' ∉ other ∧ other ≠ [] := by
    obtain ⟨rfl, -⟩ | ⟨hisName, -⟩ := hcases
    · exact ⟨by decide, by decide⟩
    · exact ⟨hisName.noSlash, hisName.ne_nil⟩
  obtain ⟨-, hdots, place, hplace, hdirectory, hnames⟩ :=
    exists_place_of_isFree hsplits.isWay htemporary hslash.1 hslash.2 hsource free
  have hne : name ≠ String.ofList other := by
    rintro rfl
    obtain ⟨rfl, -⟩ | ⟨-, hfile, -⟩ := hcases
    · exact hdots rfl
    · exact hother hfile
  let files' := files.put source.names (.file content)
  have same : SameDirectories files files' := sameDirectories_put free.notDirectory content
  -- Both paths begin at the same place, go the same way, and then to two names.
  rw [origin_temporary hsplits htemporary hslash.1 hslash.2] at hplace
  have hplace' := same.foldlM_enter_eq_ok_iff.2 hplace
  obtain ⟨n, hwhole⟩ := exists_foldlM_enter_eq hsplits
  have hdot : name ≠ "." := fun h => hsplits.isName.ne_dot (h ▸ rfl)
  have hdots' : name ≠ ".." := fun h => hsplits.isName.ne_dots (h ▸ rfl)
  obtain ⟨hfold, hnode⟩ := foldlM_enter_put hdirectory hdot hdots' hne
    (hnames ▸ free.notDirectory) content n
  rw [← hnames] at hfold hnode
  have hnonempty : path ≠ "" := by
    rintro rfl
    cases hname
  have hresolve : files'.resolve path = files.resolve path := by
    refine resolve_congr hnonempty ?_
    rw [hwhole files place hplace, hwhole files' place hplace', hfold]
  refine read_congr hresolve fun p hp => ?_
  have htrace := trace_of_resolve hp
  rw [trace_eq files hnonempty, hwhole files place hplace] at htrace
  obtain ⟨q, hq, rfl⟩ := map_eq_ok_iff.1 htrace
  exact hnode q hq

/-- A file whose replacement stops is read as before, or has its new contents, if the temporary file
has another name. -/
theorem read_stopped {name : String} (hname : Path.fileName? path = some name)
    (hother : Path.fileName? (temporary path) ≠ some name)
    (h : Begun (replacement path data) taken) :
    (runAll taken files).2.read path = files.read path ∨
      (runAll taken files).2.read path = .ok data := by
  rcases runAll_begun h with heq | ⟨source, content, hsource, free, heq⟩ | ⟨hdone, heq⟩
  · exact .inl (by rw [heq])
  · rw [heq]
    exact .inl (read_put_temporary hname hother hsource free content)
  · rw [heq]
    exact .inr (read_replace hdone)

/-- Nothing follows the name at the end of a path where a file can stand. -/
theorem tail_eq_nil_of_isFree {way name tail : List Char} {p : Place}
    (h : Path.Splits path.toList way name tail) (hp : files.resolve path = .ok p)
    (free : files.IsFree p) : tail = [] := by
  have hne : path ≠ "" := by
    rintro rfl
    have := congrArg List.length h.eq
    exact h.isName.ne_nil (List.length_eq_zero_iff.1 (by simp at this; omega))
  have htrace := trace_of_resolve hp
  rw [trace_eq files hne] at htrace
  obtain ⟨names, -, rfl⟩ := map_eq_ok_iff.1 htrace
  have hslash := of_decide_eq_false free.noSlash
  have hnamed := of_decide_eq_true free.isNamed
  have hpath := congrArg List.reverse h.eq
  rw [List.reverse_reverse] at hpath
  cases h.isTail with
  | nil => rfl
  | slash =>
    rw [hpath, List.cons_append, List.reverse_cons, List.getLast?_concat] at hslash
    exact absurd rfl hslash
  | dot =>
    have hdot : Path.segments ['.'] = [['.']] := Path.segments_name (by decide) (by decide)
    rw [hpath, List.cons_append, List.cons_append, List.reverse_cons, List.reverse_cons,
      List.append_assoc, List.singleton_append, Path.segments_append_slash, hdot, List.map_append,
      List.map_singleton, List.getLast?_concat] at hnamed
    exact absurd rfl hnamed.2.1

/-- A file that can be replaced is its own temporary file if that has its name. -/
theorem temporary_eq {name : String} (hname : Path.fileName? path = some name)
    (hown : Path.fileName? (temporary path) = some name) (h : files.Replaceable path) :
    temporary path = path := by
  obtain ⟨-, target, -, -, htarget, free⟩ := h
  obtain ⟨way, tail, hsplits⟩ := Path.exists_splits hname
  obtain rfl := tail_eq_nil_of_isFree hsplits htarget free
  obtain ⟨other, htemporary, ⟨-, hnone⟩ | ⟨-, hother, -⟩⟩ := hsplits.temporary
  · rw [hnone] at hown
    cases hown
  have hpath := congrArg List.reverse hsplits.eq
  rw [List.reverse_reverse, List.nil_append, List.reverse_append, List.reverse_reverse] at hpath
  rw [hother] at hown
  rw [← String.toList_inj, htemporary, hpath, ← Option.some.inj hown, String.toList_ofList]

/-- A file that is its own temporary file can be left with any first part of its new contents. -/
theorem exists_read_eq_take {name : String} (hname : Path.fileName? path = some name)
    (hown : Path.fileName? (temporary path) = some name) (h : files.Replaceable path) (n : Nat) :
    ∃ taken, Begun (replacement path data) taken ∧
      (runAll taken files).2.read path = .ok (data.take n) := by
  have hsame := temporary_eq hname hown h
  obtain ⟨source, -, hsource, free, -⟩ := h
  have hcreate := runCreate_eq_ok_iff.2 ⟨source, hsource, free, rfl⟩
  refine ⟨[.create (temporary path), .write (temporary path) (data.take n)],
    (Begun.cut _ data n _).step _, ?_⟩
  rw [runAll_cons, run, hcreate]
  dsimp only
  rw [runAll_cons, run, runWrite_put hsource free]
  have same := sameDirectories_put free.notDirectory (data.take n)
  rw [hsame] at hsource
  exact same.read_eq_ok_iff.2
    ⟨source, hsource, node?_put_self free.notDirectory _, free.noSlash⟩

end Files

/-! ### Saving -/

namespace Snapshot

open FileStep

theorem load_congr {path : String} {files files' : Files}
    (h : files'.read path = files.read path) : load path files' = load path files := by
  rw [load, load, h]

/-- A save can stop at any point, by a crash or by a change that fails. If the temporary file has
another name than the file, which it has unless the extension of the file is that of temporary
files, the file is then read as before or holds the whole new text, and what is loaded is what was
loaded before or the new index. A file that is its own temporary file can be left with any first
part of the text by a save that would have succeeded. -/
theorem read_stoppedSave {path name : String} (hname : Path.fileName? path = some name)
    (files : Files) (index : ContentIndex) :
    (Path.extension? name ≠ some "tmp" → Path.fileName? (Files.temporary path) ≠ some name) ∧
      (Path.fileName? (Files.temporary path) ≠ some name →
        ∀ taken, Begun (Files.replacement path index.text) taken →
          let stopped := (runAll taken files).2
          (stopped.read path = files.read path ∨ stopped.read path = .ok index.text) ∧
            (load path stopped = load path files ∨ load path stopped = .ok index)) ∧
      (Path.fileName? (Files.temporary path) = some name → (save path index files).1 = .ok () →
        ∀ n, ∃ taken, Begun (Files.replacement path index.text) taken ∧
          (runAll taken files).2.read path = .ok (index.text.take n)) := by
  refine ⟨Path.fileName?_temporary_ne hname, fun hother taken h => ?_, fun hown hsave n =>
    Files.exists_read_eq_take hname hown (save_eq_ok_iff.1 hsave) n⟩
  rcases Files.read_stopped hname hother h with hread | hread
  · exact ⟨.inl hread, .inl (load_congr hread)⟩
  · exact ⟨.inr hread, .inr (load_of_content? (Files.content?_eq_some_iff.2 hread))⟩

/-- The index of one ref with one commit. -/
def oneCommit : ContentIndex := ⟨.ofList [("r", ["c"])], .empty⟩

/-- A first save beside its temporary file is done or not done, and one that is its own temporary
file can be left with an open brace. -/
theorem read_stoppedSave_first :
    (Path.fileName? "index.json" = some "index.json" ∧
      ∀ taken, Begun (Files.replacement "index.json" oneCommit.text) taken →
        load "index.json" (runAll taken .fresh).2 = .ok .empty ∨
          load "index.json" (runAll taken .fresh).2 = .ok oneCommit) ∧
    (Path.fileName? "index.tmp" = some "index.tmp" ∧
      ∃ taken, Begun (Files.replacement "index.tmp" oneCommit.text) taken ∧
        (runAll taken .fresh).2.read "index.tmp" = .ok (Ascii.bytes "\x7b")) := by
  have hjson : Path.fileName? "index.json" = some "index.json" := by decide
  have htmp : Path.fileName? "index.tmp" = some "index.tmp" := by decide
  obtain ⟨hother, hatomic, -⟩ := read_stoppedSave hjson .fresh oneCommit
  obtain ⟨-, -, htorn⟩ := read_stoppedSave htmp .fresh oneCommit
  refine ⟨⟨hjson, fun taken h => ?_⟩, htmp, ?_⟩
  · have hempty : load "index.json" .fresh = .ok .empty := by decide +kernel
    rw [← hempty]
    exact (hatomic (hother (by decide)) taken h).2
  · obtain ⟨taken, h, hread⟩ := htorn (by decide) (by decide +kernel) 1
    exact ⟨taken, h, hread.trans (by decide +kernel)⟩

/-- Not every save leaves a file that is loaded as before or as the new index: the path can lead
through the file that is its temporary file. -/
theorem not_forall_read_stoppedSave :
    ¬ ∀ (path name : String) (files : Files) (index : ContentIndex) (taken : List FileStep),
      Path.fileName? path = some name → Begun (Files.replacement path index.text) taken →
        let stopped := (runAll taken files).2
        (stopped.read path = files.read path ∨ stopped.read path = .ok index.text) ∧
          (load path stopped = load path files ∨ load path stopped = .ok index) := by
  intro h
  have hload := (h "index.tmp/" "index.tmp" .fresh oneCommit _ (by decide) (.refl _)).2
  exact absurd hload (by decide +kernel)

end Snapshot

end ReleaseRecovery
