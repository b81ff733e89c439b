import ReleaseRecovery.Proofs.ReleaseNames
import ReleaseRecovery.Proofs.TemporaryNames
import ReleaseRecovery.Proofs.TidyDirectories

/-!
# What a copy is named for

A copy is known by its key, the name of its ref and the way to its directory put together with a
slash behind each name. Where the ref ends and the way begins cannot be seen in the key, and need
not be: a release is told by the last name of all, whichever part of the key it belongs to. Only the
misnamed copies, which are looked up by their whole keys, are told by more.

## Main Definitions

* `Version.copyKey` — the key of a copy, from its ref and the way to it
* `Version.CanStand` — refs and ways that make up a key
* `Version.ownName` — the name that a copy goes by

## Main Statements

* `Version.lastSegment_copyKey` — a key ends in the name of its copy
* `Version.ofSource?_copyKey` — a release is named by the last name of its key
-/

namespace ReleaseRecovery.Version

/-- The key of the copy in a ref at the end of a way of directories, from the top directory on. -/
def copyKey (ref : String) (way : List String) : String :=
  ref ++ way.foldl InstallRecord.subpath "/"

/-- A copy can stand in a ref at the end of a way: no slash ends the name of the ref, and every
directory has a name. -/
structure CanStand (ref : String) (way : List String) : Prop where
  ref_end : ref.toList.getLast? ≠ some '/'
  named : ∀ name ∈ way, name ≠ "" ∧ '/' ∉ name.toList

instance (ref : String) (way : List String) : Decidable (CanStand ref way) :=
  decidable_of_iff (ref.toList.getLast? ≠ some '/' ∧ ∀ name ∈ way, name ≠ "" ∧ '/' ∉ name.toList)
    ⟨fun h => ⟨h.1, h.2⟩, fun h => ⟨h.ref_end, h.named⟩⟩

/-- The part of a text behind its last slash. -/
def behindLastSlash (text : String) : String :=
  String.ofList ((text.toList.splitOn '/').getLast (List.splitOn_ne_nil '/' text.toList))

/-- The name that a copy goes by: that of its directory, or in the top directory of a ref the part
of the ref's name behind the last slash. -/
def ownName (ref : String) (way : List String) : String :=
  match way.getLast? with
  | some name => name
  | none => behindLastSlash ref

/-! ### The end of a key -/

section Ends

variable {cs way name : List Char}

/-- A slash at the end does not count. -/
theorem lastSegment_concat_slash (cs : List Char) : lastSegment (cs ++ ['/']) = lastSegment cs := by
  rw [lastSegment, lastSegment, List.reverse_append, List.reverse_singleton,
    List.singleton_append, List.dropWhile_cons_of_pos (by decide)]

/-- A text ends in the name behind its last slash. -/
theorem lastSegment_append (hway : Path.IsWay way) (hslash : '/' ∉ name) (hname : name ≠ []) :
    lastSegment (way.reverse ++ name) = name := by
  have hkeep : (name.reverse ++ way).dropWhile (· == '/') = name.reverse ++ way := by
    cases hrev : name.reverse with
    | nil => exact absurd (List.reverse_eq_nil_iff.1 hrev) hname
    | cons c rest =>
      have hc : c ∈ name := List.mem_reverse.1 (hrev ▸ List.mem_cons_self)
      refine List.dropWhile_cons_of_neg ?_
      rw [beq_iff_eq]
      rintro rfl
      exact hslash hc
  rw [lastSegment, List.reverse_append, List.reverse_reverse, hkeep,
    (Path.span_slash hslash hway).1, List.reverse_reverse]

theorem getLast_splitOn (hway : Path.IsWay way) (hslash : '/' ∉ name)
    (h : (way.reverse ++ name).splitOn '/' ≠ []) :
    ((way.reverse ++ name).splitOn '/').getLast h = name := by
  rw [List.getLast_eq_iff_getLast?_eq_some]
  obtain rfl | ⟨rest, rfl⟩ := hway
  · rw [List.reverse_nil, List.nil_append, List.splitOn_eq_singleton hslash]
    rfl
  · rw [List.reverse_cons, List.append_assoc, List.singleton_append,
      List.splitOn_append_cons_self, List.splitOn_eq_singleton hslash]
    exact List.getLast?_concat

/-- If no slash ends a text, it ends in the part behind its last slash. -/
theorem lastSegment_of_getLast? {text : String} (h : text.toList.getLast? ≠ some '/') :
    lastSegment text.toList = (behindLastSlash text).toList := by
  obtain ⟨way, name, hway, hslash, htext⟩ := Path.exists_way text.toList
  rw [behindLastSlash, String.toList_ofList]
  simp only [htext] at h ⊢
  rw [getLast_splitOn hway hslash]
  by_cases hname : name = []
  · -- Nothing is behind a last slash, so there is none, and the text is empty.
    subst hname
    obtain rfl | ⟨rest, rfl⟩ := hway
    · rfl
    · rw [List.append_nil, List.reverse_cons, List.getLast?_concat] at h
      exact absurd rfl h
  · exact lastSegment_append hway hslash hname

end Ends

/-! ### Keys of copies -/

section Keys

variable {ref : String} {way : List String}

theorem copyKey_concat (ref : String) (way : List String) (name : String) :
    copyKey ref (way ++ [name]) = InstallRecord.subpath (copyKey ref way) name := by
  rw [copyKey, List.foldl_append, copyKey]
  simp only [List.foldl_cons, List.foldl_nil, InstallRecord.subpath, String.append_assoc]

/-- A slash ends every key. -/
theorem exists_copyKey_eq (ref : String) (way : List String) :
    ∃ before, (copyKey ref way).toList = before ++ ['/'] := by
  obtain rfl | ⟨outer, name, rfl⟩ := List.eq_nil_or_concat' way
  · exact ⟨ref.toList, String.toList_append⟩
  · rw [copyKey_concat, toList_subpath, ← List.append_assoc]
    exact ⟨_, rfl⟩

/-- A key ends in the name of its copy. -/
theorem lastSegment_copyKey (h : CanStand ref way) :
    lastSegment (copyKey ref way).toList = (ownName ref way).toList := by
  obtain rfl | ⟨outer, name, rfl⟩ := List.eq_nil_or_concat' way
  · have hkey : (copyKey ref []).toList = ref.toList ++ ['/'] := String.toList_append
    rw [hkey, lastSegment_concat_slash, lastSegment_of_getLast? h.ref_end]
    rfl
  · obtain ⟨hname, hslash⟩ := h.named name (List.mem_append_right _ List.mem_cons_self)
    obtain ⟨before, hbefore⟩ := exists_copyKey_eq ref outer
    have hway : Path.IsWay (before ++ ['/']).reverse := by
      rw [List.reverse_append]
      exact .inr ⟨before.reverse, rfl⟩
    have hown : ownName ref (outer ++ [name]) = name := by
      rw [ownName, List.getLast?_concat]
    rw [copyKey_concat, toList_subpath, ← List.append_assoc, lastSegment_concat_slash, hbefore,
      ← List.reverse_reverse (before ++ ['/']), lastSegment_append hway hslash, hown]
    exact fun h => hname (String.toList_eq_nil_iff.1 h)

/-- A copy is named for its last segment unless it is misnamed. -/
theorem ofSource?_of_notMem {key : String} (h : key ∉ misnamed.map Prod.fst) :
    ofSource? key = ofText? (String.ofList (lastSegment key.toList)) := by
  have hlookup : misnamed.lookup key = none := by
    rw [List.lookup_eq_none_iff]
    intro e he
    rw [bne_iff_ne]
    rintro rfl
    exact h (List.mem_map_of_mem he)
  rw [ofSource?, hlookup]

theorem ofText?_eq_none_iff {name : String} :
    ofText? name = none ↔ ¬∃ groups, IsSpelled groups name := by
  rw [Option.eq_none_iff_forall_ne_some, not_exists]
  constructor
  · intro h groups hspelled
    obtain ⟨v, hnumbers⟩ := hspelled.exists_version
    exact h v (ofText?_eq_some_iff.2 ⟨groups, hspelled, hnumbers⟩)
  · intro h v hread
    obtain ⟨groups, hspelled, -⟩ := ofText?_eq_some_iff.1 hread
    exact h groups hspelled

theorem ofSource?_eq_ofText?_ownName (canStand : CanStand ref way)
    (hmisnamed : copyKey ref way ∉ misnamed.map Prod.fst) :
    ofSource? (copyKey ref way) = ofText? (ownName ref way) := by
  rw [ofSource?_of_notMem hmisnamed, lastSegment_copyKey canStand, String.ofList_toList]

/-- Unless a copy is misnamed, it stands for the release that it goes by the name of, and for none
if it does not go by the name of one. A key has one such name, wherever in it the ref ends and the
way begins; and a copy keeps its release wherever else it is put under its name. -/
theorem ofSource?_copyKey (canStand : CanStand ref way)
    (hmisnamed : copyKey ref way ∉ misnamed.map Prod.fst) :
    ofSource? (copyKey ref way) = ofText? (ownName ref way) ∧
      (ofSource? (copyKey ref way) = none ↔ ¬∃ groups, IsSpelled groups (ownName ref way)) ∧
      (∀ ref' way', CanStand ref' way' → copyKey ref' way' = copyKey ref way →
        ownName ref' way' = ownName ref way) ∧
      ∀ ref' way', CanStand ref' way' → copyKey ref' way' ∉ misnamed.map Prod.fst →
        ownName ref' way' = ownName ref way →
          ofSource? (copyKey ref' way') = ofSource? (copyKey ref way) := by
  have hread := ofSource?_eq_ofText?_ownName canStand hmisnamed
  refine ⟨hread, ?_, fun ref' way' canStand' hkey => ?_,
    fun ref' way' canStand' hmisnamed' hown => ?_⟩
  · rw [hread, ofText?_eq_none_iff]
  · rw [← String.toList_inj, ← lastSegment_copyKey canStand', hkey, lastSegment_copyKey canStand]
  · rw [ofSource?_eq_ofText?_ownName canStand' hmisnamed', hown, hread]

/-- A copy in a directory, the same key as that of a ref's top directory, and the copy moved to a
ref of its own. -/
theorem ofSource?_copyKey_moved :
    CanStand "svn/all" ["tags", "v02.4.1"] ∧
      copyKey "svn/all" ["tags", "v02.4.1"] = "svn/all/tags/v02.4.1/" ∧
      "svn/all/tags/v02.4.1/" ∉ misnamed.map Prod.fst ∧
      ofSource? "svn/all/tags/v02.4.1/" = some ⟨[2, 4, 1]⟩ ∧
      ownName "svn/all/tags/v02.4.1" [] = "v02.4.1" ∧
      ofSource? "svn/tags//v02.4.1/" = some ⟨[2, 4, 1]⟩ := by
  have canStand : CanStand "svn/all" ["tags", "v02.4.1"] := by decide +kernel
  have hkey : copyKey "svn/all" ["tags", "v02.4.1"] = "svn/all/tags/v02.4.1/" := by decide +kernel
  have hmisnamed : "svn/all/tags/v02.4.1/" ∉ misnamed.map Prod.fst := by decide +kernel
  obtain ⟨hread, -, hsplit, hmoved⟩ := ofSource?_copyKey canStand (hkey ▸ hmisnamed)
  have hversion : ofText? "v02.4.1" = some ⟨[2, 4, 1]⟩ := by decide +kernel
  have hsource := hread.trans hversion
  exact ⟨canStand, hkey, hmisnamed, hkey ▸ hsource,
    hsplit "svn/all/tags/v02.4.1" [] (by decide +kernel) (by decide +kernel),
    (hmoved "svn/tags//v02.4.1" [] (by decide +kernel) (by decide +kernel)
      (by decide +kernel)).trans hsource⟩

/-- A misnamed copy does not stand for what it goes by the name of. -/
example : ofSource? (copyKey "svn/tags/v2.4" ["v2.4.1", "trunk"]) = some ⟨[2, 4, 2]⟩ := by
  decide +kernel

end Keys

end ReleaseRecovery.Version
