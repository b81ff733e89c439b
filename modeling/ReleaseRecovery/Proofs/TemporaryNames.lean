import Mathlib.Data.List.TakeWhile
import ReleaseRecovery.Proofs.Files

/-!
# Names of temporary files

A path that ends in a name is a directory, the name, and slashes and dots that do not count. The
temporary file beside it stands in the same directory, under a name that differs unless the
extension of the path is that of temporary files.

## Main Definitions

* `Path.IsName` — a name that a file can have
* `Path.IsTail` — what can follow the name at the end of a path
* `Path.Splits` — a path as directory, name and tail

## Main Statements

* `Path.exists_splits` — every path that ends in a name can be split
* `Path.Splits.temporary` — where the temporary file stands
* `Path.fileName?_temporary_ne` — it has another name than a file with any other extension
-/

namespace ReleaseRecovery.Path

/-! ### The parts of a path -/

/-- A list of characters that is the name of a file, and no way to a directory. -/
structure IsName (cs : List Char) : Prop where
  noSlash : '/' ∉ cs
  ne_nil : cs ≠ []
  ne_dot : cs ≠ ['.']
  ne_dots : cs ≠ ['.', '.']

/-- What can follow the name at the end of a path, last character first: slashes, and dots after
slashes. -/
inductive IsTail : List Char → Prop
  | nil : IsTail []
  | slash {cs : List Char} : IsTail cs → IsTail ('/' :: cs)
  | dot {cs : List Char} : IsTail cs → IsTail ('.' :: '/' :: cs)

/-- A way to a directory, last character first: nothing, or something that ends in a slash. -/
def IsWay (cs : List Char) : Prop := cs = [] ∨ ∃ rest, cs = '/' :: rest

/-- A path is a way, a name and a tail. Way and tail are given last character first. -/
structure Splits (path : List Char) (way name tail : List Char) : Prop where
  eq : path.reverse = tail ++ (name.reverse ++ way)
  isWay : IsWay way
  isName : IsName name
  isTail : IsTail tail

theorem IsTail.drop {cs : List Char} (h : IsTail cs) (n : Nat) : IsTail (cs.drop n) := by
  induction h generalizing n with
  | nil =>
    rw [List.drop_nil]
    exact .nil
  | slash h ih =>
    cases n with
    | zero => exact h.slash
    | succ n => exact ih n
  | dot h ih =>
    match n with
    | 0 => exact h.dot
    | 1 => exact h.slash
    | n + 2 => exact ih n

/-- A tail is taken away. -/
theorem trimEnd_append {tail : List Char} (h : IsTail tail) (cs : List Char) :
    trimEnd (tail ++ cs) = trimEnd cs := by
  induction h with
  | nil => rfl
  | slash h ih => rw [List.cons_append, trimEnd, ih]
  | dot h ih => rw [List.cons_append, List.cons_append, trimEnd, ih]

/-- All that is taken away is a tail. -/
theorem exists_tail (cs : List Char) : ∃ tail, IsTail tail ∧ cs = tail ++ trimEnd cs := by
  fun_induction trimEnd cs with
  | case1 rest ih =>
    obtain ⟨tail, htail, hrest⟩ := ih
    exact ⟨'/' :: tail, htail.slash, congrArg ('/' :: ·) hrest⟩
  | case2 rest ih =>
    obtain ⟨tail, htail, hrest⟩ := ih
    exact ⟨'.' :: '/' :: tail, htail.dot, congrArg (fun cs => '.' :: '/' :: cs) hrest⟩
  | case3 cs => exact ⟨[], .nil, rfl⟩

/-- Nothing is taken away from a name. -/
theorem trimEnd_name {name way : List Char} (hname : IsName name) :
    trimEnd (name.reverse ++ way) = name.reverse ++ way := by
  have hslash : '/' ∉ name.reverse := fun h => hname.noSlash (List.mem_reverse.1 h)
  cases hrev : name.reverse with
  | nil => exact absurd (List.reverse_eq_nil_iff.1 hrev) hname.ne_nil
  | cons c rest =>
    rw [hrev, List.mem_cons, not_or] at hslash
    rw [List.cons_append, trimEnd.eq_3]
    · rintro _ ⟨⟩
      exact hslash.1 rfl
    · intro cs hcs
      obtain ⟨rfl, hrest⟩ := List.cons.inj hcs
      cases rest with
      | nil => exact hname.ne_dot (List.reverse_eq_iff.1 hrev)
      | cons d rest =>
        obtain ⟨rfl, -⟩ := List.cons.inj hrest
        exact hslash.2 List.mem_cons_self

/-- The parts of a path before and after its last slash. -/
theorem span_slash {name way : List Char} (hslash : '/' ∉ name) (hway : IsWay way) :
    (name.reverse ++ way).takeWhile (· != '/') = name.reverse ∧
      (name.reverse ++ way).dropWhile (· != '/') = way := by
  have hall : ∀ c ∈ name.reverse, (c != '/') = true := fun c hc =>
    bne_iff_ne.2 fun h => hslash (h ▸ List.mem_reverse.1 hc)
  rw [List.takeWhile_append_of_pos hall, List.dropWhile_append_of_pos hall]
  obtain rfl | ⟨rest, rfl⟩ := hway
  · exact ⟨List.append_nil _, rfl⟩
  · exact ⟨List.append_nil _, rfl⟩

/-- What stands before the part behind the last slash is a way. -/
theorem isWay_dropWhile (cs : List Char) : IsWay (cs.dropWhile (· != '/')) := by
  cases hdrop : cs.dropWhile (· != '/') with
  | nil => exact .inl rfl
  | cons c rest =>
    have hc := List.head_dropWhile_not (· != '/') (l := cs) (by simp [hdrop])
    simp only [hdrop, List.head_cons, bne_eq_false_iff_eq] at hc
    exact .inr ⟨rest, by rw [hc]⟩

theorem slash_notMem_takeWhile (cs : List Char) : '/' ∉ cs.takeWhile (· != '/') := by
  intro hslash
  exact absurd (List.mem_takeWhile_imp hslash) (by simp)

/-- Every path is a way and what stands behind its last slash. -/
theorem exists_way (cs : List Char) :
    ∃ way name, IsWay way ∧ '/' ∉ name ∧ cs = way.reverse ++ name := by
  refine ⟨cs.reverse.dropWhile (· != '/'), (cs.reverse.takeWhile (· != '/')).reverse,
    isWay_dropWhile cs.reverse, fun hslash => ?_, ?_⟩
  · exact slash_notMem_takeWhile cs.reverse (List.mem_reverse.1 hslash)
  · rw [← List.reverse_append, List.takeWhile_append_dropWhile, List.reverse_reverse]

section Splits

variable {path : String} {way name tail : List Char}

theorem Splits.trimEnd (h : Splits path.toList way name tail) :
    trimEnd path.toList.reverse = name.reverse ++ way := by
  rw [h.eq, trimEnd_append h.isTail, trimEnd_name h.isName]

/-- The name of a path that is split. -/
theorem Splits.fileName? (h : Splits path.toList way name tail) :
    fileName? path = some (String.ofList name) := by
  unfold Path.fileName?
  rw [h.trimEnd, (span_slash h.isName.noSlash h.isWay).1, List.reverse_reverse]
  dsimp only
  rw [if_neg]
  rintro (h' | h' | h')
  · exact h.isName.ne_nil h'
  · exact h.isName.ne_dot h'
  · exact h.isName.ne_dots h'

/-- Every path that ends in a name can be split. -/
theorem exists_splits {name : String} (h : fileName? path = some name) :
    ∃ way tail, Splits path.toList way name.toList tail := by
  unfold Path.fileName? at h
  dsimp only at h
  split at h
  · cases h
  rename_i hne
  obtain rfl := Option.some.inj h
  rw [not_or, not_or] at hne
  obtain ⟨tail, htail, hpath⟩ := exists_tail path.toList.reverse
  let trimmed := Path.trimEnd path.toList.reverse
  refine ⟨trimmed.dropWhile (· != '/'), tail, ?_, isWay_dropWhile trimmed, ?_, htail⟩
  · rw [String.toList_ofList, List.reverse_reverse, List.takeWhile_append_dropWhile]
    exact hpath
  · rw [String.toList_ofList]
    exact ⟨fun hslash => slash_notMem_takeWhile _ (List.mem_reverse.1 hslash), hne.1, hne.2.1,
      hne.2.2⟩

end Splits

/-! ### Extensions -/

/-- A name with a dot after its first character is split at the last one. -/
theorem splitName?_append {stem extension : List Char} (hstem : stem ≠ [])
    (hextension : '.' ∉ extension) :
    splitName? (String.ofList (stem ++ '.' :: extension)) =
      some (String.ofList stem, String.ofList extension) := by
  have hall : ∀ c ∈ extension.reverse, (c != '.') = true := fun c hc =>
    bne_iff_ne.2 fun h => hextension (h ▸ List.mem_reverse.1 hc)
  cases hrev : stem.reverse with
  | nil => exact absurd (List.reverse_eq_nil_iff.1 hrev) hstem
  | cons c rest =>
    have hname : (stem ++ '.' :: extension).reverse = extension.reverse ++ '.' :: c :: rest := by
      rw [List.reverse_append, List.reverse_cons, List.append_assoc, hrev, List.singleton_append]
    have htake : (extension.reverse ++ '.' :: c :: rest).takeWhile (· != '.') =
        extension.reverse := by
      rw [List.takeWhile_append_of_pos hall]
      exact List.append_nil _
    have hdrop : (extension.reverse ++ '.' :: c :: rest).dropWhile (· != '.') =
        '.' :: c :: rest :=
      List.dropWhile_append_of_pos hall
    unfold splitName?
    rw [String.toList_ofList, hname]
    simp only [htake, hdrop]
    rw [List.reverse_reverse, ← hrev, List.reverse_reverse]

/-- What the parts of a name are. -/
theorem eq_append_of_splitName? {name stem extension : String}
    (h : splitName? name = some (stem, extension)) :
    name.toList = stem.toList ++ '.' :: extension.toList ∧ stem.toList ≠ [] ∧
      '.' ∉ extension.toList := by
  unfold splitName? at h
  dsimp only at h
  split at h
  · rename_i c rest hdrop
    obtain ⟨rfl, rfl⟩ := Prod.mk.inj (Option.some.inj h)
    simp only [String.toList_ofList]
    refine ⟨?_, by simp, fun hdot => ?_⟩
    · have hname := List.takeWhile_append_dropWhile (p := (· != '.')) (l := name.toList.reverse)
      rw [hdrop] at hname
      refine (List.reverse_eq_iff.1 hname.symm).trans ?_
      rw [List.reverse_append, List.reverse_cons, List.append_assoc, List.singleton_append]
    · exact absurd (List.mem_takeWhile_imp (List.mem_reverse.1 hdot)) (by simp)
  · cases h

/-- The extension of a path is put on its name, and the tail is left out. -/
theorem Splits.setExtension {path : String} {way name tail : List Char}
    (h : Splits path.toList way name tail) (extension : String) :
    setExtension path extension =
      String.ofList way.reverse ++ stem (String.ofList name) ++ "." ++ extension := by
  unfold Path.setExtension
  rw [h.fileName?, h.trimEnd, (span_slash h.isName.noSlash h.isWay).2]

/-- A path that ends in two dots ends in no name. -/
theorem fileName?_dots {way : List Char} (hway : IsWay way) :
    fileName? (String.ofList (way.reverse ++ ['.', '.'])) = none := by
  have hreverse : (way.reverse ++ ['.', '.']).reverse = ['.', '.'].reverse ++ way := by
    rw [List.reverse_append, List.reverse_reverse]
  have htrim : trimEnd (['.', '.'].reverse ++ way) = ['.', '.'].reverse ++ way := by
    show trimEnd ('.' :: '.' :: way) = _
    rw [trimEnd.eq_3 _ (by simp) (by simp)]
    rfl
  unfold fileName?
  rw [String.toList_ofList, hreverse, htrim, (span_slash (by decide) hway).1, List.reverse_reverse]
  rfl

/-- Without as many characters at its end as its extension has, a path ends in its name or in a
name with the same stem, or the stem is a dot and it ends in two dots. -/
theorem Splits.take {path : String} {way name tail : List Char}
    (h : Splits path.toList way name tail) {before old : String}
    (hsplit : splitName? (String.ofList name) = some (before, old)) :
    let rest := path.toList.take (path.length - old.length)
    (∃ name' tail', Splits rest way name' tail' ∧ stem (String.ofList name') = before) ∨
      rest = way.reverse ++ ['.', '.'] := by
  intro rest
  obtain ⟨hname, hbefore, hold⟩ := eq_append_of_splitName? hsplit
  rw [String.toList_ofList] at hname
  have hlength : old.length ≤ path.length := by
    have := congrArg List.length h.eq
    have := congrArg List.length hname
    simp only [List.length_append, List.length_reverse, List.length_cons, String.length_toList]
      at *
    omega
  have hrest : rest.reverse = tail.drop old.length ++
      (name.reverse ++ way).drop (old.length - tail.length) := by
    rw [List.reverse_take, h.eq, List.drop_append, String.length_toList, Nat.sub_sub_self hlength]
  by_cases htail : old.length ≤ tail.length
  · rw [Nat.sub_eq_zero_of_le htail, List.drop_zero] at hrest
    refine .inl ⟨name, _, ⟨hrest, h.isWay, h.isName, h.isTail.drop _⟩, ?_⟩
    rw [stem, hsplit]
    rfl
  -- The tail is gone, and a first part of the extension may be left.
  let left := (old.toList.reverse.drop (old.length - tail.length)).reverse
  have hleft : ∀ c ∈ left, c ∈ old.toList := fun c hc =>
    List.mem_reverse.1 (List.mem_of_mem_drop (List.mem_reverse.1 hc))
  have hrest' : rest.reverse = [] ++ ((before.toList ++ '.' :: left).reverse ++ way) := by
    rw [hrest, List.drop_eq_nil_of_le (by omega), hname, List.reverse_append, List.reverse_append,
      List.reverse_cons, List.reverse_cons, List.append_assoc, List.append_assoc, List.append_assoc,
      List.append_assoc, List.drop_append_of_le_length, List.reverse_reverse]
    rw [List.length_reverse, String.length_toList]
    omega
  by_cases hdots : before.toList ++ '.' :: left = ['.', '.']
  · refine .inr (List.reverse_inj.1 ?_)
    rw [hrest', hdots, List.nil_append, List.reverse_append, List.reverse_reverse]
  have hslash : '/' ∉ before.toList ++ '.' :: left := by
    have hnone := h.isName.noSlash
    rw [hname, List.mem_append, List.mem_cons] at hnone
    rw [List.mem_append, List.mem_cons]
    exact fun hmem => hnone (hmem.imp_right (Or.imp_right (hleft _)))
  have hdot : before.toList ++ '.' :: left ≠ ['.'] := fun heq => by
    have hlast := congrArg List.length heq
    have hsome := List.length_pos_iff.2 hbefore
    rw [List.length_append, List.length_cons, List.length_singleton] at hlast
    omega
  refine .inl ⟨_, [], ⟨hrest', h.isWay, ⟨hslash, by simp, hdot, hdots⟩, .nil⟩, ?_⟩
  rw [stem, splitName?_append hbefore fun hmem => hold (hleft _ hmem)]
  exact String.ofList_toList

/-- A path with another extension is its way, the stem of its name, and the extension. Where the
stem is a dot it ends in two dots instead. -/
theorem Splits.withExtension {path : String} {way name tail : List Char}
    (h : Splits path.toList way name tail) (extension : String) :
    withExtension path extension =
        String.ofList way.reverse ++ stem (String.ofList name) ++ "." ++ extension ∨
      withExtension path extension = String.ofList (way.reverse ++ ['.', '.']) := by
  unfold Path.withExtension
  rw [h.fileName?, Option.bind_some, extension?]
  cases hsplit : splitName? (String.ofList name) with
  | none => exact .inl (h.setExtension extension)
  | some parts =>
    obtain ⟨before, old⟩ := parts
    have hstem : stem (String.ofList name) = before := by rw [stem, hsplit]; rfl
    rw [hstem]
    dsimp only [Option.map_some]
    rcases h.take hsplit with ⟨name', tail', hsplits, hstem'⟩ | hdots
    · rw [← hstem']
      rw [← String.toList_ofList (l := path.toList.take _)] at hsplits
      exact .inl (hsplits.setExtension extension)
    · rw [hdots, Path.setExtension, fileName?_dots h.isWay]
      exact .inr rfl

theorem mem_of_mem_stem {name : String} {c : Char} (h : c ∈ (stem name).toList) :
    c ∈ name.toList := by
  cases hsplit : splitName? name with
  | none =>
    rw [stem, hsplit] at h
    exact h
  | some parts =>
    rw [stem, hsplit] at h
    rw [(eq_append_of_splitName? hsplit).1]
    exact List.mem_append_left _ h

/-- A temporary file stands in the directory of the file that it is beside. The stem of a name that
begins with two dots can be a dot, and then the path of the temporary file ends in no name. -/
theorem Splits.temporary {path : String} {way name tail : List Char}
    (h : Splits path.toList way name tail) :
    ∃ other, (Files.temporary path).toList = way.reverse ++ other ∧
      (other = ['.', '.'] ∧ Path.fileName? (Files.temporary path) = none ∨
        IsName other ∧ Path.fileName? (Files.temporary path) = some (String.ofList other) ∧
          other = (stem (String.ofList name)).toList ++ '.' :: "tmp".toList) := by
  rcases h.withExtension "tmp" with htemporary | htemporary
  · let other := (stem (String.ofList name)).toList ++ '.' :: "tmp".toList
    have hpath : (Files.temporary path).toList = way.reverse ++ other := by
      rw [Files.temporary, htemporary]
      simp [other]
    have hslash : '/' ∉ other := by
      rw [List.mem_append, not_or]
      refine ⟨fun hmem => h.isName.noSlash ?_, by decide⟩
      rw [← String.toList_ofList (l := name)]
      exact mem_of_mem_stem hmem
    have hlong : 4 ≤ other.length := by
      rw [List.length_append]
      exact Nat.le_add_left 4 _
    have hname : IsName other := by
      refine ⟨hslash, ?_, ?_, ?_⟩
      all_goals
        intro heq
        rw [heq] at hlong
        exact absurd hlong (by decide)
    have hsplits : Splits (Files.temporary path).toList way other [] :=
      ⟨by rw [hpath, List.reverse_append, List.reverse_reverse, List.nil_append], h.isWay, hname,
        .nil⟩
    exact ⟨other, hpath, .inr ⟨hname, hsplits.fileName?, rfl⟩⟩
  · rw [← Files.temporary] at htemporary
    rw [htemporary, String.toList_ofList]
    exact ⟨['.', '.'], rfl, .inl ⟨rfl, fileName?_dots h.isWay⟩⟩

/-- A temporary file has another name than the file that it is beside, unless that one has the
extension of temporary files itself. -/
theorem fileName?_temporary_ne {path name : String} (h : fileName? path = some name)
    (hextension : extension? name ≠ some "tmp") :
    fileName? (Files.temporary path) ≠ some name := by
  intro hsame
  obtain ⟨way, tail, hsplits⟩ := exists_splits h
  obtain ⟨other, -, ⟨-, hnone⟩ | ⟨-, hother, heq⟩⟩ := hsplits.temporary
  · rw [hnone] at hsame
    cases hsame
  rw [hother] at hsame
  rw [String.ofList_toList] at heq
  have hname : name.toList = (stem name).toList ++ '.' :: "tmp".toList := by
    rw [← heq, ← Option.some.inj hsame, String.toList_ofList]
  cases hsplit : splitName? name with
  | none =>
    rw [stem, hsplit] at hname
    exact absurd (congrArg List.length hname) (by simp)
  | some parts =>
    obtain ⟨before, old⟩ := parts
    have hwhole := (eq_append_of_splitName? hsplit).1
    rw [stem, hsplit] at hname
    have hold := List.append_cancel_left (hwhole.symm.trans hname)
    refine hextension ?_
    rw [extension?, hsplit]
    exact congrArg some (String.toList_inj.1 (List.cons.inj hold).2)

/-! ### The names on a way -/

/-- The names between the slashes of a path. -/
def segments (cs : List Char) : List (List Char) := (cs.splitOn '/').filter (· ≠ [])

theorem segments_append_slash (cs rest : List Char) :
    segments (cs ++ '/' :: rest) = segments cs ++ segments rest := by
  rw [segments, List.splitOn_append_cons_self, List.filter_append]
  rfl

theorem segments_name {name : List Char} (hslash : '/' ∉ name) (hname : name ≠ []) :
    segments name = [name] := by
  rw [segments, List.splitOn_eq_singleton hslash, List.filter_cons_of_pos (by simpa using hname)]
  rfl

theorem IsWay.segments {way name : List Char} (hway : IsWay way) (hslash : '/' ∉ name)
    (hname : name ≠ []) : segments (way.reverse ++ name) = segments way.reverse ++ [name] := by
  obtain rfl | ⟨rest, rfl⟩ := hway
  · exact segments_name hslash hname
  · rw [List.reverse_cons, List.append_assoc, List.singleton_append, segments_append_slash,
      segments_append_slash, segments_name hslash hname]
    rw [show Path.segments [] = [] from rfl, List.append_nil]

theorem IsTail.segments {tail : List Char} (h : IsTail tail) (cs : List Char) :
    ∃ n, segments (cs ++ tail.reverse) = segments cs ++ List.replicate n ['.'] := by
  induction h with
  | nil =>
    refine ⟨0, ?_⟩
    rw [List.reverse_nil, List.append_nil, List.replicate_zero, List.append_nil]
  | slash h ih =>
    obtain ⟨n, hn⟩ := ih
    refine ⟨n, ?_⟩
    rw [List.reverse_cons, ← List.append_assoc, segments_append_slash, hn]
    exact List.append_nil _
  | dot h ih =>
    obtain ⟨n, hn⟩ := ih
    have hdot : Path.segments ['.'] = [['.']] := segments_name (by decide) (by decide)
    refine ⟨n + 1, ?_⟩
    rw [List.reverse_cons, List.reverse_cons, List.append_assoc, ← List.append_assoc,
      List.singleton_append, segments_append_slash, hn, hdot, List.append_assoc,
      List.replicate_succ']

/-- The names on the way that a path goes: those of the directories, its name, and dots. -/
theorem Splits.segments {path : List Char} {way name tail : List Char}
    (h : Splits path way name tail) :
    ∃ n, segments path = segments way.reverse ++ name :: List.replicate n ['.'] := by
  obtain ⟨n, hn⟩ := h.isTail.segments (way.reverse ++ name)
  refine ⟨n, ?_⟩
  rw [h.isWay.segments h.isName.noSlash h.isName.ne_nil, List.append_assoc] at hn
  rw [← List.reverse_reverse path, h.eq, List.reverse_append, List.reverse_append,
    List.reverse_reverse, List.append_assoc, hn, List.append_assoc]
  rfl

theorem filter_parts (path : String) :
    (parts path).filter (· ≠ "") = (segments path.toList).map String.ofList := by
  rw [parts, Path.segments, List.filter_map]
  congr 2
  funext cs
  simp

end ReleaseRecovery.Path
