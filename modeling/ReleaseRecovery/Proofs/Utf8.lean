import ReleaseRecovery.Text.Utf8

/-!
# Reading back UTF-8

The bytes of a text are read as that text, and a character that is read is written as the bytes that
it was read from. Only what is shown as a replacement can stand for different bytes.

## Main Statements

* `Utf8.next_utf8EncodeChar` — a character is read back from its bytes, whatever follows them
* `Utf8.decode?_encode` — a text is read back from its bytes
* `Utf8.utf8EncodeChar_of_next` — a character that was read is written as the same bytes
* `Utf8.decodeLossy_eq_iff` — a text without replacements is shown for its own bytes alone
-/

namespace ReleaseRecovery.Utf8

theorem toNat_ofNat_of_lt {n : Nat} (h : n < 256) : (UInt8.ofNat n).toNat = n := by
  rw [UInt8.toNat_ofNat']
  exact Nat.mod_eq_of_lt h

/-- A continuation byte adds its six bits. -/
theorem continuation_cons {due bits n : Nat} {low high : UInt8} (h : n < 64)
    (hlow : low.toNat ≤ n + 128) (hhigh : n + 128 ≤ high.toNat) (rest : Bytes) :
    continuation (due + 1) low high bits (UInt8.ofNat (n + 128) :: rest) =
      continuation due 0x80 0xBF (bits * 64 + n) rest := by
  have hb : (UInt8.ofNat (n + 128)).toNat = n + 128 := toNat_ofNat_of_lt (by omega)
  rw [continuation, if_pos, hb]
  · congr 2
    omega
  · rw [UInt8.le_iff_toNat_le, UInt8.le_iff_toNat_le, hb]
    exact ⟨hlow, hhigh⟩

theorem continuation_two {bits n m : Nat} {low high : UInt8} (hn : n < 64) (hm : m < 64)
    (hlow : low.toNat ≤ n + 128) (hhigh : n + 128 ≤ high.toNat) (rest : Bytes) :
    continuation 2 low high bits (UInt8.ofNat (n + 128) :: UInt8.ofNat (m + 128) :: rest) =
      (some (Char.ofNat ((bits * 64 + n) * 64 + m)), rest) := by
  rw [continuation_cons hn hlow hhigh,
    continuation_cons hm (by simp) (by simp only [UInt8.reduceToNat]; omega), continuation]

theorem continuation_three {bits n m k : Nat} {low high : UInt8} (hn : n < 64) (hm : m < 64)
    (hk : k < 64) (hlow : low.toNat ≤ n + 128) (hhigh : n + 128 ≤ high.toNat) (rest : Bytes) :
    continuation 3 low high bits
        (UInt8.ofNat (n + 128) :: UInt8.ofNat (m + 128) :: UInt8.ofNat (k + 128) :: rest) =
      (some (Char.ofNat (((bits * 64 + n) * 64 + m) * 64 + k)), rest) := by
  rw [continuation_cons hn hlow hhigh,
    continuation_two hm hk (by simp) (by simp only [UInt8.reduceToNat]; omega)]

/-! ### Characters by the number of their bytes -/

section Characters

variable {v : Nat}

theorem next_one (h : v ≤ 0x7F) (rest : Bytes) :
    next (UInt8.ofNat v) rest = (some (Char.ofNat v), rest) := by
  have hb : (UInt8.ofNat v).toNat = v := toNat_ofNat_of_lt (by omega)
  have hlt : UInt8.ofNat v < 0x80 := by
    rw [UInt8.lt_iff_toNat_lt, hb]
    exact Nat.lt_succ_of_le h
  rw [next, if_pos hlt, hb]

theorem next_two (h : 0x7F < v) (h' : v ≤ 0x7FF) (rest : Bytes) :
    next (UInt8.ofNat (v / 64 % 32 + 192)) (UInt8.ofNat (v % 64 + 128) :: rest) =
      (some (Char.ofNat v), rest) := by
  have hb : (UInt8.ofNat (v / 64 % 32 + 192)).toNat = v / 64 + 192 := by
    rw [toNat_ofNat_of_lt (by omega)]
    omega
  generalize UInt8.ofNat (v / 64 % 32 + 192) = b at hb
  have hascii : ¬b < 0x80 := by
    rw [UInt8.lt_iff_toNat_lt, hb]
    simp
  have hlead : 0xC2 ≤ b ∧ b ≤ 0xDF := by
    rw [UInt8.le_iff_toNat_le, UInt8.le_iff_toNat_le, hb]
    simp only [UInt8.reduceToNat]
    omega
  rw [next, if_neg hascii, if_pos hlead,
    continuation_cons (by omega) (by simp) (by simp only [UInt8.reduceToNat]; omega),
    continuation, hb]
  congr 3
  omega

theorem next_three (h : 0x7FF < v) (h' : v ≤ 0xFFFF) (scalar : v < 0xD800 ∨ 0xDFFF < v)
    (rest : Bytes) :
    next (UInt8.ofNat (v / 4096 % 16 + 224))
        (UInt8.ofNat (v / 64 % 64 + 128) :: UInt8.ofNat (v % 64 + 128) :: rest) =
      (some (Char.ofNat v), rest) := by
  have hb : (UInt8.ofNat (v / 4096 % 16 + 224)).toNat = v / 4096 + 224 := by
    rw [toNat_ofNat_of_lt (by omega)]
    omega
  generalize UInt8.ofNat (v / 4096 % 16 + 224) = b at hb
  unfold next
  simp only [UInt8.lt_iff_toNat_lt, UInt8.le_iff_toNat_le, ← UInt8.toNat_inj, hb,
    UInt8.reduceToNat]
  -- The lead byte rules out all branches but those for `E0`, `ED` and the bytes around them.
  repeat' split
  all_goals try (exfalso; omega)
  all_goals
    rw [continuation_two (by omega) (by omega) (by simp only [UInt8.reduceToNat]; omega)
      (by simp only [UInt8.reduceToNat]; omega)]
    congr 3
    omega

theorem next_four (h : 0xFFFF < v) (h' : v < 0x110000) (rest : Bytes) :
    next (UInt8.ofNat (v / 262144 % 8 + 240))
        (UInt8.ofNat (v / 4096 % 64 + 128) :: UInt8.ofNat (v / 64 % 64 + 128) ::
          UInt8.ofNat (v % 64 + 128) :: rest) =
      (some (Char.ofNat v), rest) := by
  have hb : (UInt8.ofNat (v / 262144 % 8 + 240)).toNat = v / 262144 + 240 := by
    rw [toNat_ofNat_of_lt (by omega)]
    omega
  generalize UInt8.ofNat (v / 262144 % 8 + 240) = b at hb
  unfold next
  simp only [UInt8.lt_iff_toNat_lt, UInt8.le_iff_toNat_le, ← UInt8.toNat_inj, hb,
    UInt8.reduceToNat]
  -- What is left are the branches for `F0`, `F4` and the bytes between them.
  repeat' split
  all_goals try (exfalso; omega)
  all_goals
    rw [continuation_three (by omega) (by omega) (by omega)
      (by simp only [UInt8.reduceToNat]; omega) (by simp only [UInt8.reduceToNat]; omega)]
    congr 3
    omega

end Characters

/-- A character is read back from its bytes, whatever follows them. -/
theorem next_utf8EncodeChar (c : Char) (rest : Bytes) :
    ∃ b bs, String.utf8EncodeChar c = b :: bs ∧ next b (bs ++ rest) = (some c, rest) := by
  have hc : Char.ofNat c.val.toNat = c := Char.ofNat_toNat c
  have scalar : c.val.toNat < 0xD800 ∨ 0xDFFF < c.val.toNat ∧ c.val.toNat < 0x110000 := c.valid
  unfold String.utf8EncodeChar
  dsimp only
  split
  · rename_i h
    refine ⟨_, _, rfl, ?_⟩
    rw [List.nil_append, next_one h, hc]
  split
  · rename_i h h'
    refine ⟨_, _, rfl, ?_⟩
    rw [List.cons_append, List.nil_append, next_two (by omega) h', hc]
  split
  · rename_i h h' h''
    refine ⟨_, _, rfl, ?_⟩
    rw [List.cons_append, List.cons_append, List.nil_append,
      next_three (by omega) h'' (by omega), hc]
  · rename_i h h' h''
    refine ⟨_, _, rfl, ?_⟩
    rw [List.cons_append, List.cons_append, List.cons_append, List.nil_append,
      next_four (by omega) (by omega), hc]

theorem decodeChars?_flatMap (cs : List Char) :
    decodeChars? (cs.flatMap String.utf8EncodeChar) = some cs := by
  induction cs with
  | nil => rw [List.flatMap_nil, decodeChars?]
  | cons c cs ih =>
    obtain ⟨b, bs, hbytes, hnext⟩ :=
      next_utf8EncodeChar c (cs.flatMap String.utf8EncodeChar)
    rw [List.flatMap_cons, hbytes, List.cons_append, decodeChars?, hnext, ih]
    rfl

/-- A text is read back from its bytes. -/
theorem decode?_encode (s : String) : decode? (encode s) = some s := by
  rw [decode?, encode, decodeChars?_flatMap, Option.map_some, String.ofList_toList]

/-! ### Bytes by the character that they are read as -/

section Bytes

variable {due bits v : Nat} {low high b : UInt8} {rest rest' : Bytes} {c : Char}

theorem continuation_eq_some (h : continuation (due + 1) low high bits rest = (some c, rest')) :
    ∃ d tail, rest = d :: tail ∧ low ≤ d ∧ d ≤ high ∧
      continuation due 0x80 0xBF (bits * 64 + d.toNat % 64) tail = (some c, rest') := by
  cases rest with
  | nil => cases h
  | cons d tail =>
    rw [continuation] at h
    split at h
    · rename_i hbounds
      exact ⟨d, tail, rfl, hbounds.1, hbounds.2, h⟩
    · cases h

theorem toNat_ofNat_of_isValid (hv : v < 0xD800 ∨ 0xDFFF < v ∧ v < 0x110000) :
    (Char.ofNat v).val.toNat = v := by
  rw [Char.ofNat, dif_pos hv]
  rfl

theorem utf8EncodeChar_two (h : 0x7F < v) (h' : v ≤ 0x7FF) :
    String.utf8EncodeChar (Char.ofNat v) =
      [UInt8.ofNat (v / 64 % 32 + 192), UInt8.ofNat (v % 64 + 128)] := by
  rw [String.utf8EncodeChar, toNat_ofNat_of_isValid (by omega)]
  rw [if_neg (by omega), if_pos h']

theorem utf8EncodeChar_three (h : 0x7FF < v) (h' : v ≤ 0xFFFF) (scalar : v < 0xD800 ∨ 0xDFFF < v) :
    String.utf8EncodeChar (Char.ofNat v) =
      [UInt8.ofNat (v / 4096 % 16 + 224), UInt8.ofNat (v / 64 % 64 + 128),
        UInt8.ofNat (v % 64 + 128)] := by
  rw [String.utf8EncodeChar, toNat_ofNat_of_isValid (by omega)]
  rw [if_neg (by omega), if_neg (by omega), if_pos h']

theorem utf8EncodeChar_four (h : 0xFFFF < v) (h' : v < 0x110000) :
    String.utf8EncodeChar (Char.ofNat v) =
      [UInt8.ofNat (v / 262144 % 8 + 240), UInt8.ofNat (v / 4096 % 64 + 128),
        UInt8.ofNat (v / 64 % 64 + 128), UInt8.ofNat (v % 64 + 128)] := by
  rw [String.utf8EncodeChar, toNat_ofNat_of_isValid (by omega)]
  rw [if_neg (by omega), if_neg (by omega), if_neg (by omega)]

theorem ofNat_eq_of_toNat {n : Nat} (h : n = b.toNat) : UInt8.ofNat n = b := by
  rw [h, UInt8.ofNat_toNat]

/-- The bytes of a character of three bytes, whose first one has brought `bits`. -/
theorem utf8EncodeChar_of_continuation_two (hb : b.toNat = 224 + bits) (hbits : bits < 16)
    (hlow : 0x80 ≤ low.toNat) (hhigh : high.toNat ≤ 0xBF) (hlong : bits = 0 → 0xA0 ≤ low.toNat)
    (hscalar : bits = 13 → high.toNat ≤ 0x9F)
    (h : continuation 2 low high bits rest = (some c, rest')) :
    String.utf8EncodeChar c ++ rest' = b :: rest := by
  obtain ⟨d, tail, rfl, hd, hd', h⟩ := continuation_eq_some h
  obtain ⟨e, tail, rfl, he, he', h⟩ := continuation_eq_some h
  obtain ⟨hc, rfl⟩ := Prod.mk.inj h
  simp only [UInt8.le_iff_toNat_le, UInt8.reduceToNat] at hd hd' he he'
  rw [← Option.some.inj hc, utf8EncodeChar_three (by omega) (by omega) (by omega),
    ofNat_eq_of_toNat (b := b) (by omega), ofNat_eq_of_toNat (b := d) (by omega),
    ofNat_eq_of_toNat (b := e) (by omega)]
  rfl

/-- The bytes of a character of four bytes, whose first one has brought `bits`. -/
theorem utf8EncodeChar_of_continuation_three (hb : b.toNat = 240 + bits) (hbits : bits ≤ 4)
    (hlow : 0x80 ≤ low.toNat) (hhigh : high.toNat ≤ 0xBF) (hlong : bits = 0 → 0x90 ≤ low.toNat)
    (hscalar : bits = 4 → high.toNat ≤ 0x8F)
    (h : continuation 3 low high bits rest = (some c, rest')) :
    String.utf8EncodeChar c ++ rest' = b :: rest := by
  obtain ⟨d, tail, rfl, hd, hd', h⟩ := continuation_eq_some h
  obtain ⟨e, tail, rfl, he, he', h⟩ := continuation_eq_some h
  obtain ⟨f, tail, rfl, hf, hf', h⟩ := continuation_eq_some h
  obtain ⟨hc, rfl⟩ := Prod.mk.inj h
  simp only [UInt8.le_iff_toNat_le, UInt8.reduceToNat] at hd hd' he he' hf hf'
  rw [← Option.some.inj hc, utf8EncodeChar_four (by omega) (by omega),
    ofNat_eq_of_toNat (b := b) (by omega), ofNat_eq_of_toNat (b := d) (by omega),
    ofNat_eq_of_toNat (b := e) (by omega), ofNat_eq_of_toNat (b := f) (by omega)]
  rfl

/-- A character that was read is written as the bytes that it was read from. -/
theorem utf8EncodeChar_of_next (h : next b rest = (some c, rest')) :
    String.utf8EncodeChar c ++ rest' = b :: rest := by
  unfold next at h
  simp only [UInt8.le_iff_toNat_le, UInt8.lt_iff_toNat_lt, ← UInt8.toNat_inj,
    UInt8.reduceToNat] at h
  split at h
  · rename_i hascii
    obtain ⟨hc, rfl⟩ := Prod.mk.inj h
    rw [← Option.some.inj hc, utf8EncodeChar_of_lt (UInt8.lt_iff_toNat_lt.2 hascii)]
    rfl
  split at h
  · obtain ⟨d, tail, rfl, hd, hd', h⟩ := continuation_eq_some h
    obtain ⟨hc, rfl⟩ := Prod.mk.inj h
    simp only [UInt8.le_iff_toNat_le, UInt8.reduceToNat] at hd hd'
    rw [← Option.some.inj hc, utf8EncodeChar_two (by omega) (by omega),
      ofNat_eq_of_toNat (b := b) (by omega), ofNat_eq_of_toNat (b := d) (by omega)]
    rfl
  -- What is left are three leads of three bytes, three of four bytes, and the bytes that lead
  -- nothing.
  split at h
  · exact utf8EncodeChar_of_continuation_two (by omega) (by omega) (by decide) (by decide)
      (fun _ => by decide) (by omega) h
  split at h
  · exact utf8EncodeChar_of_continuation_two (by omega) (by omega) (by decide) (by decide)
      (by omega) (fun _ => by decide) h
  split at h
  · exact utf8EncodeChar_of_continuation_two (by omega) (by omega) (by decide) (by decide)
      (by omega) (by omega) h
  split at h
  · exact utf8EncodeChar_of_continuation_three (by omega) (by omega) (by decide) (by decide)
      (fun _ => by decide) (by omega) h
  split at h
  · exact utf8EncodeChar_of_continuation_three (by omega) (by omega) (by decide) (by decide)
      (by omega) (by omega) h
  split at h
  · exact utf8EncodeChar_of_continuation_three (by omega) (by omega) (by decide) (by decide)
      (by omega) (fun _ => by decide) h
  · cases h

/-- A text that was read without a replacement is written as the bytes that it was read from. -/
theorem flatMap_decodeCharsLossy {s : Bytes} (h : '\uFFFD' ∉ decodeCharsLossy s) :
    (decodeCharsLossy s).flatMap String.utf8EncodeChar = s := by
  fun_induction decodeCharsLossy s with
  | case1 => rfl
  | case2 b rest ih =>
    rw [List.mem_cons, not_or] at h
    cases hnext : next b rest with
    | mk first tail =>
      simp only [hnext] at h ih ⊢
      cases first with
      | none => exact absurd rfl h.1
      | some c =>
        rw [Option.getD_some, List.flatMap_cons, ih h.2]
        exact utf8EncodeChar_of_next hnext

theorem decodeCharsLossy_flatMap (cs : List Char) :
    decodeCharsLossy (cs.flatMap String.utf8EncodeChar) = cs := by
  induction cs with
  | nil => rw [List.flatMap_nil, decodeCharsLossy]
  | cons c cs ih =>
    obtain ⟨b, bs, hbytes, hnext⟩ :=
      next_utf8EncodeChar c (cs.flatMap String.utf8EncodeChar)
    rw [List.flatMap_cons, hbytes, List.cons_append, decodeCharsLossy, hnext, ih]
    rfl

/-- A text is shown as itself. -/
theorem decodeLossy_encode (text : String) : decodeLossy (encode text) = text := by
  rw [decodeLossy, encode, decodeCharsLossy_flatMap, String.ofList_toList]

/-- A text without replacements is what its own bytes are shown as, and no others. -/
theorem decodeLossy_eq_iff {s : Bytes} {text : String} (h : '\uFFFD' ∉ text.toList) :
    decodeLossy s = text ↔ s = encode text := by
  constructor
  · rintro rfl
    rw [decodeLossy, String.toList_ofList] at h
    rw [encode, decodeLossy, String.toList_ofList, flatMap_decodeCharsLossy h]
  · rintro rfl
    exact decodeLossy_encode text

theorem next_suffix_of_none (h : next b rest = (none, rest')) : rest' <:+ rest := by
  have hcontinuation (due : Nat) (low high : UInt8) (bits : Nat) (rest : Bytes) :
      (continuation due low high bits rest).2 <:+ rest := by
    fun_induction continuation due low high bits rest with
    | case1 => exact List.suffix_refl _
    | case2 => exact List.suffix_refl _
    | case3 due low high bits b rest _ ih => exact ih.trans (List.suffix_cons b rest)
    | case4 => exact List.suffix_refl _
  have hall : (next b rest).2 <:+ rest := by
    unfold next
    repeat' split
    all_goals simp [hcontinuation]
  rw [h] at hall
  exact hall

/-- A character that is shown stands in the bytes, unless it is a replacement. -/
theorem mem_of_mem_decodeCharsLossy {s : Bytes} (h : c ∈ decodeCharsLossy s) (hc : c ≠ '\uFFFD')
    {d : UInt8} (hd : d ∈ String.utf8EncodeChar c) : d ∈ s := by
  fun_induction decodeCharsLossy s with
  | case1 => cases h
  | case2 b rest ih =>
    cases hnext : next b rest with
    | mk first tail =>
      simp only [hnext] at h ih
      cases first with
      | none =>
        have htail := (List.mem_cons.1 h).resolve_left hc
        exact List.mem_cons_of_mem b ((next_suffix_of_none hnext).subset (ih htail))
      | some c' =>
        rw [← utf8EncodeChar_of_next hnext, List.mem_append]
        rcases List.mem_cons.1 h with rfl | htail
        · exact .inl hd
        · exact .inr (ih htail)

end Bytes

end ReleaseRecovery.Utf8
