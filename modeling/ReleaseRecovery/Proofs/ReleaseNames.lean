import Mathlib.Data.List.Induction
import Mathlib.Data.Nat.Digits.Defs
import ReleaseRecovery.Proofs.Versions

/-!
# Which texts name a release

A release name is a `v` and groups of digits with single dots between them, one group for each
number of the version. A group may begin with zeros that say nothing. Without them every version has
one name, and that is the name that is written; so reading is told by writing: a text is read as a
version exactly if it is the name of that version once the superfluous zeros have been taken out.

## Main Definitions

* `Decimal.IsNumeral`, `Decimal.number` — groups of digits, and the numbers that they stand for
* `Decimal.trimmed` — a group without its superfluous zeros
* `Version.IsSpelled` — groups that make up a release name
* `Version.normalized` — a text with the superfluous zeros of each group taken out

## Main Statements

* `Decimal.trimmed_eq_toDigits_iff` — without superfluous zeros a number has one numeral
* `Version.ofText?_eq_some_iff` — what is read, by groups
* `Version.ofText?_eq_some_iff_normalized` — what is read, by what is written
* `Version.ofText?_exact` — exactly the release names are read
-/

namespace ReleaseRecovery

namespace Decimal

/-- A group of one or more ASCII digits. -/
def IsNumeral (cs : List Char) : Prop := cs ≠ [] ∧ ∀ c ∈ cs, c.isDigit = true

/-- The number that a group of digits stands for. The last digit counts ones, the one before it
tens, and so on. -/
def number (cs : List Char) : Nat := Nat.ofDigits 10 (cs.reverse.map fun c => c.toNat - '0'.toNat)

/-- A group of digits without its superfluous zeros. The last digit stays, zero or not. -/
def trimmed : List Char → List Char
  | [] => []
  | [c] => [c]
  | c :: d :: cs => if c = '0' then trimmed (d :: cs) else c :: d :: cs

variable {cs : List Char} {n : Nat}

/-! ### Numbers -/

theorem ofDigitChars_eq_number (cs : List Char) : Nat.ofDigitChars 10 cs 0 = number cs := by
  induction cs using List.reverseRecOn with
  | nil => rfl
  | append_singleton cs c ih =>
    rw [Nat.ofDigitChars_append, ih, Nat.ofDigitChars_cons, Nat.ofDigitChars_nil, number, number,
      List.reverse_append, List.reverse_singleton, List.singleton_append, List.map_cons,
      Nat.ofDigits_cons, Nat.add_comm]

/-- A text of digits stands for its number, and no other text stands for one. -/
theorem value?_eq_some_iff : value? cs = some n ↔ IsNumeral cs ∧ number cs = n := by
  unfold value?
  rw [ofDigitChars_eq_number]
  have hnumeral : (cs ≠ [] ∧ cs.all Char.isDigit = true) ↔ IsNumeral cs := by
    rw [List.all_eq_true]
    rfl
  split
  · rename_i h
    rw [Option.some.injEq]
    exact ⟨fun hn => ⟨hnumeral.1 h, hn⟩, And.right⟩
  · rename_i h
    exact ⟨nofun, fun hn => absurd (hnumeral.2 hn.1) h⟩

/-! ### Zeros -/

theorem trimmed_subset (cs : List Char) : trimmed cs ⊆ cs := by
  fun_induction trimmed cs with
  | case1 => exact List.Subset.refl _
  | case2 => exact List.Subset.refl _
  | case3 d cs ih => exact fun c hc => List.mem_cons_of_mem _ (ih hc)
  | case4 => exact List.Subset.refl _

/-- A zero in front says nothing. -/
theorem value?_trimmed (cs : List Char) : value? (trimmed cs) = value? cs := by
  fun_induction trimmed cs with
  | case1 => rfl
  | case2 => rfl
  | case3 d cs ih =>
    rw [ih]
    simp [value?, Nat.ofDigitChars_cons]
  | case4 => rfl

theorem exists_digitChar_of_isDigit {c : Char} (h : c.isDigit = true) :
    ∃ d < 10, Nat.digitChar d = c := by
  have hrange : 48 ≤ c.toNat ∧ c.toNat ≤ 57 := by
    simpa [Char.isDigit, UInt32.le_iff_toNat_le] using h
  refine ⟨c.toNat - 48, by omega, ?_⟩
  have all : ∀ d : Fin 10, Nat.digitChar d.val = Char.ofNat (d.val + 48) := by decide
  have hdigit := all ⟨c.toNat - 48, by omega⟩
  rw [hdigit, Nat.sub_add_cancel hrange.1, Char.ofNat_toNat]

/-- Digits that follow the numeral of a number that is not zero make up a longer numeral. -/
theorem toDigits_append {n : Nat} (hn : 0 < n) (h : ∀ c ∈ cs, c.isDigit = true) :
    Nat.toDigits 10 n ++ cs = Nat.toDigits 10 (Nat.ofDigitChars 10 cs n) := by
  induction cs generalizing n with
  | nil => rw [List.append_nil, Nat.ofDigitChars_nil]
  | cons c cs ih =>
    obtain ⟨hc, hcs⟩ := List.forall_mem_cons.1 h
    obtain ⟨d, hd, rfl⟩ := exists_digitChar_of_isDigit hc
    have hlonger : Nat.toDigits 10 n ++ [Nat.digitChar d] = Nat.toDigits 10 (10 * n + d) := by
      rw [← Nat.toDigits_of_lt_base hd, Nat.toDigits_append_toDigits (by decide) hn hd]
    rw [Nat.ofDigitChars_cons_digitChar_of_lt_ten hd, ← ih (by omega) hcs, ← hlonger,
      List.append_assoc, List.singleton_append]

/-- Without its superfluous zeros a group of digits is the numeral of its number. -/
theorem trimmed_eq_toDigits_number (h : IsNumeral cs) :
    trimmed cs = Nat.toDigits 10 (number cs) := by
  rw [← ofDigitChars_eq_number]
  obtain ⟨hne, hdigits⟩ := h
  fun_induction trimmed cs with
  | case1 => exact absurd rfl hne
  | case2 c =>
    obtain ⟨d, hd, rfl⟩ := exists_digitChar_of_isDigit (hdigits c List.mem_cons_self)
    rw [Nat.ofDigitChars_cons_digitChar_of_lt_ten hd, Nat.ofDigitChars_nil, Nat.mul_zero,
      Nat.zero_add, Nat.toDigits_of_lt_base hd]
  | case3 d cs ih =>
    rw [ih (List.cons_ne_nil d cs) (List.forall_mem_cons.1 hdigits).2]
    simp [Nat.ofDigitChars_cons]
  | case4 c d cs hc =>
    obtain ⟨hfirst, hrest⟩ := List.forall_mem_cons.1 hdigits
    obtain ⟨k, hk, rfl⟩ := exists_digitChar_of_isDigit hfirst
    have hpos : 0 < k := Nat.pos_of_ne_zero fun h0 => hc (Nat.digitChar_eq_zero.2 h0)
    rw [Nat.ofDigitChars_cons_digitChar_of_lt_ten hk, Nat.mul_zero, Nat.zero_add,
      ← toDigits_append hpos hrest, Nat.toDigits_of_lt_base hk, List.singleton_append]

/-- Without superfluous zeros a number has one numeral, the one that is written for it. -/
theorem trimmed_eq_toDigits_iff :
    trimmed cs = Nat.toDigits 10 n ↔ IsNumeral cs ∧ number cs = n := by
  constructor
  · intro h
    rw [← value?_eq_some_iff, ← value?_trimmed, h, value?_toDigits]
  · rintro ⟨h, rfl⟩
    exact trimmed_eq_toDigits_number h

end Decimal

namespace Version

open Decimal

/-! ### Groups -/

/-- Groups of digits make up a release name. Their numbers have 32 bits. -/
structure IsSpelled (groups : List (List Char)) (name : String) : Prop where
  text : name.toList = 'v' :: ['.'].intercalate groups
  nonempty : groups ≠ []
  numerals : ∀ group ∈ groups, IsNumeral group
  bounded : ∀ group ∈ groups, number group ≤ 4294967295

/-- A text with the superfluous zeros taken out of each of its groups. The groups are what stands
between the dots behind the first character. -/
def normalized (name : String) : String :=
  match name.toList with
  | [] => ""
  | c :: groups => String.ofList (c :: ['.'].intercalate ((groups.splitOn '.').map trimmed))

variable {group : List Char} {groups : List (List Char)} {c : UInt32} {cs : List UInt32}
  {name : String} {v : Version}

theorem component?_eq_some_iff :
    component? group = some c ↔ IsNumeral group ∧ number group = c.toNat := by
  rw [component?, Option.bind_eq_some_iff]
  constructor
  · rintro ⟨n, hn, hc⟩
    obtain ⟨hnumeral, rfl⟩ := value?_eq_some_iff.1 hn
    split at hc
    · rename_i hlt
      obtain rfl := Option.some.inj hc
      exact ⟨hnumeral, (UInt32.toNat_ofNat_of_lt hlt).symm⟩
    · cases hc
  · rintro ⟨hnumeral, hn⟩
    refine ⟨c.toNat, value?_eq_some_iff.2 ⟨hnumeral, hn⟩, ?_⟩
    rw [if_pos c.toNat_lt_size, UInt32.ofNat_toNat]

/-- If every part succeeds under a condition of its own, the whole succeeds under all of them. -/
theorem mapM_eq_some_iff {α β γ : Type} {f : α → Option β} {P : α → Prop} {g : α → γ} {h : β → γ}
    (hf : ∀ a b, f a = some b ↔ P a ∧ g a = h b) {l : List α} {r : List β} :
    l.mapM f = some r ↔ (∀ a ∈ l, P a) ∧ l.map g = r.map h := by
  induction l generalizing r with
  | nil => simp [eq_comm]
  | cons a l ih =>
    simp only [List.mapM_cons, Option.bind_eq_bind, Option.bind_eq_some_iff, hf, ih]
    cases r with
    | nil => simp
    | cons b r => simp [and_and_and_comm]

/-- The numbers of groups are read one by one. -/
theorem mapM_component?_eq_some_iff :
    groups.mapM component? = some cs ↔
      (∀ group ∈ groups, IsNumeral group) ∧ groups.map number = cs.map UInt32.toNat :=
  mapM_eq_some_iff fun _ _ => component?_eq_some_iff

/-- Groups are read as numbers if without superfluous zeros they are what is written for them. -/
theorem mapM_component?_eq_some_iff_trimmed :
    groups.mapM component? = some cs ↔
      groups.map trimmed = cs.map fun c => Nat.toDigits 10 c.toNat := by
  have hread (group : List Char) (c : UInt32) :
      component? group = some c ↔ True ∧ trimmed group = Nat.toDigits 10 c.toNat := by
    rw [component?_eq_some_iff, trimmed_eq_toDigits_iff, true_and]
  rw [mapM_eq_some_iff hread]
  exact and_iff_right fun _ _ => trivial

theorem dot_notMem_of_isNumeral (h : IsNumeral group) : '.' ∉ group := by
  intro hdot
  exact absurd (h.2 '.' hdot) (by decide)

/-- What stands between separators holds none. -/
theorem notMem_of_mem_splitOn {sep : Char} {text part : List Char}
    (h : part ∈ text.splitOn sep) : sep ∉ part := by
  induction text generalizing part with
  | nil =>
    rw [List.splitOn_nil, List.mem_singleton] at h
    rw [h]
    exact List.not_mem_nil
  | cons c text ih =>
    rw [List.splitOn_cons_eq_if_modifyHead] at h
    split at h
    · rcases List.mem_cons.1 h with rfl | h
      · exact List.not_mem_nil
      · exact ih h
    · rename_i hne
      obtain ⟨first, parts, hsplit⟩ := List.exists_cons_of_ne_nil (List.splitOn_ne_nil sep text)
      rw [hsplit] at ih h
      rcases List.mem_cons.1 h with rfl | h
      · intro hsep
        rcases List.mem_cons.1 hsep with rfl | hsep
        · exact hne (beq_self_eq_true sep)
        · exact ih List.mem_cons_self hsep
      · exact ih (List.mem_cons_of_mem first h)

/-- A text with dots has only one list of groups. -/
theorem intercalate_dot_inj {l r : List (List Char)} (hl : ∀ group ∈ l, '.' ∉ group) (hl₀ : l ≠ [])
    (hr : ∀ group ∈ r, '.' ∉ group) (hr₀ : r ≠ []) :
    ['.'].intercalate l = ['.'].intercalate r ↔ l = r := by
  refine ⟨fun h => ?_, congrArg _⟩
  rw [← List.splitOn_intercalate '.' hl hl₀, h, List.splitOn_intercalate '.' hr hr₀]

/-! ### Names -/

theorem components?_eq_some_iff {numbers : List Char} :
    components? numbers = some cs ↔ cs ≠ [] ∧
      (numbers.splitOn '.').map trimmed = cs.map fun c => Nat.toDigits 10 c.toNat := by
  rw [components?, mapM_component?_eq_some_iff_trimmed]
  refine ⟨fun h => ⟨?_, h⟩, And.right⟩
  rintro rfl
  exact List.splitOn_ne_nil '.' numbers (List.map_eq_nil_iff.1 h)

theorem ofText?_eq_some_iff_components? :
    ofText? name = some v ↔
      ∃ numbers, name.toList = 'v' :: numbers ∧ components? numbers = some v.components := by
  unfold ofText?
  split
  · rename_i numbers htext
    rw [Option.map_eq_some_iff]
    constructor
    · rintro ⟨cs, hcs, rfl⟩
      exact ⟨numbers, htext, hcs⟩
    · rintro ⟨numbers', htext', hcs⟩
      obtain rfl := (List.cons.inj (htext.symm.trans htext')).2
      exact ⟨v.components, hcs, rfl⟩
  · rename_i hother
    exact ⟨nofun, fun ⟨numbers, htext, _⟩ => absurd htext (hother numbers)⟩

theorem normalized_of_toList {c : Char} {rest : List Char} (h : name.toList = c :: rest) :
    normalized name = String.ofList (c :: ['.'].intercalate ((rest.splitOn '.').map trimmed)) := by
  rw [normalized, h]

/-- What is read, by what is written: a text is read as a version exactly if it is the name of that
version once the superfluous zeros have been taken out of it. -/
theorem ofText?_eq_some_iff_normalized :
    ofText? name = some v ↔ v.components ≠ [] ∧ normalized name = v.text := by
  have hwritten : v.text = String.ofList
      ('v' :: ['.'].intercalate (v.components.map fun c => Nat.toDigits 10 c.toNat)) := by
    rw [← toList_text, String.ofList_toList]
  rw [ofText?_eq_some_iff_components?]
  constructor
  · rintro ⟨numbers, htext, hread⟩
    obtain ⟨hne, hgroups⟩ := components?_eq_some_iff.1 hread
    rw [normalized_of_toList htext, hgroups, hwritten]
    exact ⟨hne, rfl⟩
  · rintro ⟨hne, hname⟩
    cases htext : name.toList with
    | nil =>
      rw [normalized, htext, hwritten] at hname
      exact absurd (String.ofList_injective hname) (by simp)
    | cons c numbers =>
      rw [normalized_of_toList htext, hwritten] at hname
      obtain ⟨rfl, hnumbers⟩ := List.cons.inj (String.ofList_injective hname)
      -- No group has a dot in it, so the groups of the two sides are the same.
      refine ⟨numbers, rfl, components?_eq_some_iff.2 ⟨hne, ?_⟩⟩
      refine (intercalate_dot_inj ?_ ?_ ?_ ?_).1 hnumbers
      · intro group hgroup hdot
        obtain ⟨part, hpart, rfl⟩ := List.mem_map.1 hgroup
        exact absurd (trimmed_subset part hdot) (notMem_of_mem_splitOn hpart)
      · simp [List.splitOn_ne_nil]
      · intro group hgroup
        obtain ⟨c, -, rfl⟩ := List.mem_map.1 hgroup
        exact dot_notMem_toDigits c.toNat
      · simp [hne]

/-- What is read, by groups. -/
theorem ofText?_eq_some_iff :
    ofText? name = some v ↔
      ∃ groups, IsSpelled groups name ∧ groups.map number = v.components.map UInt32.toNat := by
  rw [ofText?_eq_some_iff_components?]
  constructor
  · rintro ⟨numbers, htext, hread⟩
    obtain ⟨hnumerals, hnumbers⟩ := mapM_component?_eq_some_iff.1 hread
    refine ⟨numbers.splitOn '.', ⟨?_, List.splitOn_ne_nil '.' numbers, hnumerals, ?_⟩, hnumbers⟩
    · rw [List.intercalate_splitOn, htext]
    · intro group hgroup
      obtain ⟨c, -, hc⟩ := List.mem_map.1 (hnumbers ▸ List.mem_map_of_mem hgroup)
      rw [← hc]
      exact Nat.le_of_lt_succ c.toNat_lt
  · rintro ⟨groups, hspelled, hnumbers⟩
    refine ⟨['.'].intercalate groups, hspelled.text, ?_⟩
    rw [components?, List.splitOn_intercalate '.'
      (fun group hgroup => dot_notMem_of_isNumeral (hspelled.numerals group hgroup))
      hspelled.nonempty]
    exact mapM_component?_eq_some_iff.2 ⟨hspelled.numerals, hnumbers⟩

/-- A release name is made up in one way. -/
theorem IsSpelled.unique {other : List (List Char)} (h : IsSpelled groups name)
    (h' : IsSpelled other name) : groups = other := by
  have htext := (List.cons.inj (h.text.symm.trans h'.text)).2
  exact (intercalate_dot_inj (fun group hgroup => dot_notMem_of_isNumeral (h.numerals group hgroup))
    h.nonempty (fun group hgroup => dot_notMem_of_isNumeral (h'.numerals group hgroup))
    h'.nonempty).1 htext

/-- Groups that make up a release name are those of one version. -/
theorem IsSpelled.exists_version (h : IsSpelled groups name) :
    ∃ v : Version, groups.map number = v.components.map UInt32.toNat := by
  refine ⟨⟨groups.map fun group => UInt32.ofNat (number group)⟩, ?_⟩
  rw [List.map_map]
  refine List.map_congr_left fun group hgroup => ?_
  have hlt : number group < UInt32.size := Nat.lt_succ_of_le (h.bounded group hgroup)
  exact (UInt32.toNat_ofNat_of_lt hlt).symm

/-- Exactly the release names are read: a `v` and groups of digits with single dots between them,
each with a number of 32 bits. The numbers are those of the groups, in order. A version that has a
number is read back from its name. The name of what was read is the text that was read without its
superfluous zeros, so texts are read alike exactly if they differ in such zeros only, and a version
that was read is told by its name. -/
theorem ofText?_exact :
    (∀ name, (∃ v, ofText? name = some v) ↔ ∃ groups, IsSpelled groups name) ∧
      (∀ name groups, IsSpelled groups name → ∀ v, ofText? name = some v ↔
        v.components.map UInt32.toNat = groups.map number) ∧
      (∀ v : Version, v.components ≠ [] → ofText? v.text = some v) ∧
      (∀ name v, ofText? name = some v → v.text = normalized name) ∧
      (∀ a v, ofText? a = some v → ∀ b, ofText? b = some v ↔ normalized a = normalized b) ∧
      ∀ a b v w, ofText? a = some v → ofText? b = some w → v.text = w.text → v = w := by
  refine ⟨fun name => ⟨?_, ?_⟩, fun name groups hspelled v => ⟨?_, ?_⟩, fun v => ofText?_text,
    ?_, ?_, ?_⟩
  · rintro ⟨v, hread⟩
    obtain ⟨groups, hspelled, -⟩ := ofText?_eq_some_iff.1 hread
    exact ⟨groups, hspelled⟩
  · rintro ⟨groups, hspelled⟩
    obtain ⟨v, hnumbers⟩ := hspelled.exists_version
    exact ⟨v, ofText?_eq_some_iff.2 ⟨groups, hspelled, hnumbers⟩⟩
  · intro hread
    obtain ⟨groups', hspelled', hnumbers⟩ := ofText?_eq_some_iff.1 hread
    rw [hspelled.unique hspelled', hnumbers]
  · intro hnumbers
    exact ofText?_eq_some_iff.2 ⟨groups, hspelled, hnumbers.symm⟩
  · intro name v hread
    exact (ofText?_eq_some_iff_normalized.1 hread).2.symm
  · intro a v hread b
    obtain ⟨hne, ha⟩ := ofText?_eq_some_iff_normalized.1 hread
    rw [ofText?_eq_some_iff_normalized, ha, and_iff_right hne, eq_comm]
  · intro a b v w _ _ hname
    exact text_inj.1 hname

example : ofText? "v007.00.10" = some ⟨[7, 0, 10]⟩ := by decide +kernel

end Version

end ReleaseRecovery
