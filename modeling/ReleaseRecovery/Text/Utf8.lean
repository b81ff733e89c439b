/-!
# UTF-8

Texts as sequences of bytes. A sequence that is no UTF-8 is either refused or read with U+FFFD in
place of every piece that cannot belong to a character.

## Main Definitions

* `Bytes` — sequences of bytes
* `Utf8.encode` — the bytes of a text
* `Utf8.next` — the character that a byte starts, or the longest piece that could have been one
* `Utf8.decode?` — reading that refuses
* `Utf8.decodeLossy` — reading that replaces

## Main Statements

* `Utf8.encode_decodeLossy` — ASCII bytes are the bytes of the text that they make

## Design Notes

`next` follows the well-formed sequences of the standard: the second byte of a character is
restricted after `E0`, `ED`, `F0` and `F4`, so that no character has two encodings and no surrogate
has one. A piece ends before the first byte that cannot continue it.
-/

namespace ReleaseRecovery

/-- A sequence of bytes. -/
abbrev Bytes := List UInt8

namespace Utf8

/-- The bytes of a text. -/
def encode (s : String) : Bytes := s.toList.flatMap String.utf8EncodeChar

/-- Reads `due` continuation bytes, the first of them between `low` and `high`, onto the bits
already read. Without them there is no character, and the byte that does not fit is left. -/
def continuation : Nat → UInt8 → UInt8 → Nat → Bytes → Option Char × Bytes
  | 0, _, _, bits, rest => (some (Char.ofNat bits), rest)
  | _ + 1, _, _, _, [] => (none, [])
  | due + 1, low, high, bits, b :: rest =>
    if low ≤ b ∧ b ≤ high then continuation due 0x80 0xBF (bits * 64 + b.toNat % 64) rest
    else (none, b :: rest)

/-- The character that starts with byte `b`, and the bytes after it; `none` if `b` and the bytes
that could continue it make no character. -/
def next (b : UInt8) (rest : Bytes) : Option Char × Bytes :=
  if b < 0x80 then (some (Char.ofNat b.toNat), rest)
  else if 0xC2 ≤ b ∧ b ≤ 0xDF then continuation 1 0x80 0xBF (b.toNat % 32) rest
  else if b = 0xE0 then continuation 2 0xA0 0xBF 0 rest
  else if b = 0xED then continuation 2 0x80 0x9F 13 rest
  else if 0xE1 ≤ b ∧ b ≤ 0xEF then continuation 2 0x80 0xBF (b.toNat % 16) rest
  else if b = 0xF0 then continuation 3 0x90 0xBF 0 rest
  else if 0xF1 ≤ b ∧ b ≤ 0xF3 then continuation 3 0x80 0xBF (b.toNat % 8) rest
  else if b = 0xF4 then continuation 3 0x80 0x8F 4 rest
  else (none, rest)

theorem length_continuation_le (due : Nat) (low high : UInt8) (bits : Nat) (rest : Bytes) :
    (continuation due low high bits rest).2.length ≤ rest.length := by
  fun_induction continuation due low high bits rest with
  | case1 => exact Nat.le_refl _
  | case2 => exact Nat.le_refl _
  | case3 due low high bits b rest h ih => exact Nat.le_succ_of_le ih
  | case4 => exact Nat.le_refl _

/-- Reading a character gives no byte back. -/
theorem length_next_le (b : UInt8) (rest : Bytes) : (next b rest).2.length ≤ rest.length := by
  unfold next
  repeat' split
  all_goals simp [length_continuation_le]

/-- Reads a text; `none` if the bytes are no UTF-8. -/
def decodeChars? : Bytes → Option (List Char)
  | [] => some []
  | b :: rest =>
    match (next b rest).1 with
    | some c => (decodeChars? (next b rest).2).map (c :: ·)
    | none => none
termination_by s => s.length
decreasing_by exact Nat.lt_succ_of_le (length_next_le b rest)

/-- Reads a text; `none` if the bytes are no UTF-8. -/
def decode? (s : Bytes) : Option String := (decodeChars? s).map String.ofList

/-- Reads a text with U+FFFD for every piece that is no character. -/
def decodeCharsLossy : Bytes → List Char
  | [] => []
  | b :: rest => (next b rest).1.getD '\uFFFD' :: decodeCharsLossy (next b rest).2
termination_by s => s.length
decreasing_by exact Nat.lt_succ_of_le (length_next_le b rest)

/-- Reads a text with U+FFFD for every piece that is no character. -/
def decodeLossy (s : Bytes) : String := String.ofList (decodeCharsLossy s)

/-! ### ASCII -/

theorem utf8EncodeChar_of_lt {b : UInt8} (h : b < 0x80) :
    String.utf8EncodeChar (Char.ofNat b.toNat) = [b] := by
  have all : ∀ n : Fin 128, String.utf8EncodeChar (Char.ofNat n.val) = [UInt8.ofNat n.val] := by
    decide
  have hn : b.toNat < 128 := UInt8.lt_iff_toNat_lt.1 h
  simpa using all ⟨b.toNat, hn⟩

/-- A byte below 128 is a character of its own. -/
theorem decodeCharsLossy_cons {b : UInt8} (h : b < 0x80) (rest : Bytes) :
    decodeCharsLossy (b :: rest) = Char.ofNat b.toNat :: decodeCharsLossy rest := by
  rw [decodeCharsLossy, next, if_pos h]
  rfl

/-- Bytes below 128 are the bytes of the text that they make. -/
theorem encode_decodeLossy {s : Bytes} (h : ∀ b ∈ s, b < 0x80) : encode (decodeLossy s) = s := by
  simp only [encode, decodeLossy, String.toList_ofList]
  induction s with
  | nil => simp [decodeCharsLossy]
  | cons b rest ih =>
    rw [decodeCharsLossy_cons (h b List.mem_cons_self), List.flatMap_cons,
      utf8EncodeChar_of_lt (h b List.mem_cons_self),
      ih fun c hc => h c (List.mem_cons_of_mem _ hc)]
    rfl

end Utf8

end ReleaseRecovery
