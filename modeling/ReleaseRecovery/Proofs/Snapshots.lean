import ReleaseRecovery.Snapshot
import ReleaseRecovery.Proofs.Files
import ReleaseRecovery.Proofs.IndexText

/-!
# Saving and loading an index

## Main Statements

* `Snapshot.load_of_content?` — a saved index is loaded as it was
* `Snapshot.content?_of_load` — what a file held from which an index was loaded
* `Snapshot.save_eq_ok_iff` — when an index can be saved
* `Snapshot.content?_save`, `Snapshot.read_save` — what the file holds afterwards
* `Snapshot.load_save` — nothing is lost between saving and loading
-/

namespace ReleaseRecovery.Snapshot

variable {path : String} {files : Files} {index : ContentIndex}

/-- A file that is not there gives an empty index. -/
theorem load_of_notFound (h : files.read path = .error .notFound) :
    load path files = .ok .empty := by
  rw [load, h]

/-- A saved index is loaded as it was. -/
theorem load_of_content? (h : files.content? path = some index.text) :
    load path files = .ok index := by
  rw [load, Files.content?_eq_some_iff.1 h]
  dsimp only
  rw [ContentIndex.ofText_text]

/-- An index that was loaded is empty or stands in the file. -/
theorem content?_of_load (h : load path files = .ok index) :
    index = .empty ∨
      ∃ text, files.content? path = some text ∧ ContentIndex.ofText text = .ok index := by
  unfold load at h
  split at h
  · exact .inl (Except.ok.inj h).symm
  · cases h
  · rename_i text hread
    refine .inr ⟨text, Files.content?_eq_some_iff.2 hread, ?_⟩
    split at h
    · rename_i read hof
      rw [hof, Except.ok.inj h]
    · cases h

theorem save_eq (path : String) (index : ContentIndex) (files : Files) :
    save path index files =
      (result .indexUnwritable (files.replace path index.text).1,
        (files.replace path index.text).2) := by
  unfold save
  generalize files.replace path index.text = replaced
  rfl

/-- An index can be saved exactly if its file can be replaced. -/
theorem save_eq_ok_iff : (save path index files).1 = .ok () ↔ files.Replaceable path := by
  rw [save_eq, ← Files.replace_eq_ok_iff ]
  dsimp only
  cases (files.replace path index.text).1 with
  | ok => exact iff_of_true rfl rfl
  | error e => exact iff_of_false (fun h => by cases h) (fun h => by cases h)

theorem sameDirectories_save (path : String) (index : ContentIndex) (files : Files) :
    files.SameDirectories (save path index files).2 := by
  rw [save_eq]
  dsimp only
  exact Files.sameDirectories_replace files path index.text

/-- After a save a file holds what it held before, or the index. -/
theorem content?_save (path : String) (index : ContentIndex) (files : Files) :
    (save path index files).2.content? path = files.content? path ∨
      (save path index files).2.content? path = some index.text := by
  rw [save_eq]
  dsimp only
  exact Files.content?_replace files path index.text

/-- After a save that succeeded a file holds the index. -/
theorem read_save (h : (save path index files).1 = .ok ()) :
    (save path index files).2.read path = .ok index.text := by
  rw [save_eq]
  dsimp only
  exact Files.read_replace (Files.replace_eq_ok_iff.2 (save_eq_ok_iff.1 h))

/-- An index that was saved is loaded as it was, and saved as it was when it is saved again, and no
other index is ever saved as the same text. -/
theorem load_save (h : (save path index files).1 = .ok ()) :
    let saved := (save path index files).2
    load path saved = .ok index ∧
      (∀ loaded, load path saved = .ok loaded →
        (save path loaded saved).1 = .ok () ∧
          (save path loaded saved).2.read path = saved.read path) ∧
      ∀ (path' : String) (other : ContentIndex) (files' : Files),
        (save path' other files').1 = .ok () →
          (save path' other files').2.read path' = saved.read path → other = index := by
  intro saved
  have hread : saved.read path = .ok index.text := read_save h
  have hload : load path saved = .ok index :=
    load_of_content? (Files.content?_eq_some_iff.2 hread)
  refine ⟨hload, fun loaded hloaded => ?_, fun path' other files' hother hsame => ?_⟩
  · obtain rfl : loaded = index := Except.ok.inj (hloaded.symm.trans hload)
    have hagain : (save path loaded saved).1 = .ok () := by
      have same : files.SameDirectories saved := sameDirectories_save path loaded files
      exact save_eq_ok_iff.2 (same.replaceable_iff.2 (save_eq_ok_iff.1 h))
    exact ⟨hagain, (read_save hagain).trans hread.symm⟩
  · rw [read_save hother, hread] at hsame
    exact ContentIndex.text_inj (Except.ok.inj hsame)

/-- An index of empty parts, and of strings with quotes, backslashes, control characters and
characters of four bytes. -/
def oddIndex : ContentIndex where
  histories := .ofList [("", []), ("\"\\", ["\x00\n\x1f", "", "😀"])]
  records := .ofList [("", .empty), ("😀", ⟨.ofList [("/\t/", "\x7f")], .ofList [("", "\"")]⟩)]

theorem load_save_oddIndex :
    (save "index.json" oddIndex .fresh).1 = .ok () ∧
      load "index.json" (save "index.json" oddIndex .fresh).2 = .ok oddIndex := by
  have h : (save "index.json" oddIndex .fresh).1 = .ok () :=
    toOption_eq_some_iff.1 (by decide +kernel)
  exact ⟨h, (load_save h).1⟩

end ReleaseRecovery.Snapshot
