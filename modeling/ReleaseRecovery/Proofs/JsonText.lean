import ReleaseRecovery.Json.Text
import ReleaseRecovery.Proofs.Utf8

/-!
# Reading back the strings of a JSON text

## Main Statements

* `Json.unescape_escapeByte` — every byte is read back from how it is written
* `Json.decodeText_encodeText` — every string is read back from how it is written
-/

namespace ReleaseRecovery.Json

open Ascii

/-! ### Bytes -/

/-- A byte below the blank is written as a number, and its number is read back. -/
theorem hexNumber?_hexByte {b : UInt8} (h : b < space) :
    hexNumber? zero zero (hexDigit (b.toNat / 16)) (hexDigit (b.toNat % 16)) = some b.toNat := by
  have hb : b.toNat < 32 := UInt8.lt_iff_toNat_lt.1 h
  have hzero : hexDigit? zero = some 0 := by decide
  unfold hexNumber?
  rw [hzero, hexDigit?_hexDigit (by omega), hexDigit?_hexDigit (by omega)]
  show some (((0 * 16 + 0) * 16 + b.toNat / 16) * 16 + b.toNat % 16) = some b.toNat
  congr 1
  omega

theorem escaped_hexByte {b : UInt8} (h : b < space) (rest : Bytes) :
    escaped (0x75 :: zero :: zero :: hexDigit (b.toNat / 16) :: hexDigit (b.toNat % 16) :: rest) =
      .ok ([b], rest) := by
  have hb : b.toNat < 32 := UInt8.lt_iff_toNat_lt.1 h
  have hlow : isLowSurrogate b.toNat = false := by
    simp only [isLowSurrogate, Bool.and_eq_false_iff, decide_eq_false_iff_not]
    omega
  have hhigh : isHighSurrogate b.toNat = false := by
    simp only [isHighSurrogate, Bool.and_eq_false_iff, decide_eq_false_iff_not]
    omega
  have hdigits : digits (zero :: zero :: hexDigit (b.toNat / 16) :: hexDigit (b.toNat % 16) :: rest)
      = .ok (b.toNat, rest) := by
    rw [digits, hexNumber?_hexByte h]
  have hascii : b < 0x80 := UInt8.lt_iff_toNat_lt.2 (Nat.lt_trans hb (by decide))
  rw [escaped, if_pos rfl, numbered, hdigits]
  dsimp only
  rw [hlow, hhigh, characterBytes, Utf8.utf8EncodeChar_of_lt hascii]
  rfl

/-- What an escape means is read, and then the rest. -/
theorem unescape_backslash {e b : UInt8} {s rest : Bytes} (h : escaped (e :: s) = .ok ([b], rest)) :
    unescape (backslash :: e :: s) = (unescape rest).map (b :: ·) := by
  rw [unescape, if_neg (by decide), if_pos rfl]
  split
  · rename_i meant rest' h'
    rw [h] at h'
    obtain ⟨rfl, rfl⟩ := Prod.mk.inj (Except.ok.inj h')
    rfl
  · rename_i p h'
    rw [h] at h'
    cases h'

/-- A byte is read back from how it is written, and then the rest is read. -/
theorem unescape_escapeByte (b : UInt8) (rest : Bytes) :
    unescape (escapeByte b ++ rest) = (unescape rest).map (b :: ·) := by
  unfold escapeByte
  split
  · subst b
    exact unescape_backslash rfl
  split
  · subst b
    exact unescape_backslash rfl
  split
  · subst b
    exact unescape_backslash rfl
  split
  · subst b
    exact unescape_backslash rfl
  split
  · subst b
    exact unescape_backslash rfl
  split
  · subst b
    exact unescape_backslash rfl
  split
  · subst b
    exact unescape_backslash rfl
  split
  · rename_i hcontrol
    exact unescape_backslash (escaped_hexByte hcontrol rest)
  · rename_i hquote hbackslash _ _ _ _ _ hplain
    rw [List.singleton_append, unescape, if_neg hquote, if_neg hbackslash, if_neg hplain]

/-! ### Strings -/

theorem unescape_flatMap (s : Bytes) : unescape (s.flatMap escapeByte ++ [quote]) = .ok s := by
  induction s with
  | nil => rw [List.flatMap_nil, List.nil_append, unescape, if_pos rfl]
  | cons b s ih =>
    rw [List.flatMap_cons, List.append_assoc, unescape_escapeByte, ih]
    rfl

/-- Every string is read back from how it is written. -/
theorem decodeText_encodeText (s : String) : decodeText (encodeText s) = .ok s := by
  rw [decodeText, encodeText, unescape_flatMap]
  dsimp only
  rw [Utf8.decode?_encode]

end ReleaseRecovery.Json
