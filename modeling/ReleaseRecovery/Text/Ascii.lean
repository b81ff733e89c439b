import ReleaseRecovery.Text.Utf8

/-!
# ASCII bytes

Names for the bytes that separate and quote in the formats of this library, and the ASCII texts
that they stand between.

## Main Definitions

* `Ascii.quote`, `Ascii.comma`, … — single bytes, usable as patterns
* `Ascii.bytes` — the bytes of an ASCII text
* `Ascii.isDigit`, `Ascii.hexDigit?` — digits
-/

namespace ReleaseRecovery.Ascii

@[match_pattern] abbrev tab : UInt8 := 0x09
@[match_pattern] abbrev newline : UInt8 := 0x0A
@[match_pattern] abbrev carriageReturn : UInt8 := 0x0D
@[match_pattern] abbrev space : UInt8 := 0x20
@[match_pattern] abbrev quote : UInt8 := 0x22
@[match_pattern] abbrev plus : UInt8 := 0x2B
@[match_pattern] abbrev comma : UInt8 := 0x2C
@[match_pattern] abbrev minus : UInt8 := 0x2D
@[match_pattern] abbrev dot : UInt8 := 0x2E
@[match_pattern] abbrev slash : UInt8 := 0x2F
@[match_pattern] abbrev zero : UInt8 := 0x30
@[match_pattern] abbrev nine : UInt8 := 0x39
@[match_pattern] abbrev colon : UInt8 := 0x3A
@[match_pattern] abbrev less : UInt8 := 0x3C
@[match_pattern] abbrev greater : UInt8 := 0x3E
@[match_pattern] abbrev openBracket : UInt8 := 0x5B
@[match_pattern] abbrev backslash : UInt8 := 0x5C
@[match_pattern] abbrev closeBracket : UInt8 := 0x5D
@[match_pattern] abbrev openBrace : UInt8 := 0x7B
@[match_pattern] abbrev closeBrace : UInt8 := 0x7D

/-- The bytes of a text. -/
def bytes (s : String) : Bytes := Utf8.encode s

/-- The byte of an ASCII character. -/
def byte (c : Char) : UInt8 := c.val.toUInt8

/-- Whether a byte is one of the ten digits. -/
def isDigit (b : UInt8) : Bool := zero ≤ b && b ≤ nine

/-- The value of a hexadecimal digit of either case. -/
def hexDigit? (b : UInt8) : Option Nat :=
  if zero ≤ b ∧ b ≤ nine then some (b.toNat - 48)
  else if 0x61 ≤ b ∧ b ≤ 0x66 then some (b.toNat - 87)
  else if 0x41 ≤ b ∧ b ≤ 0x46 then some (b.toNat - 55)
  else none

/-- The lower-case hexadecimal digit of a number below sixteen. -/
def hexDigit (n : Nat) : UInt8 := if n < 10 then UInt8.ofNat (48 + n) else UInt8.ofNat (87 + n)

/-- The two hexadecimal digits of a byte. -/
def hexByte (b : UInt8) : Bytes := [hexDigit (b.toNat / 16), hexDigit (b.toNat % 16)]

theorem hexDigit?_hexDigit {n : Nat} (h : n < 16) : hexDigit? (hexDigit n) = some n := by
  have all : ∀ n : Fin 16, hexDigit? (hexDigit n.val) = some n.val := by decide
  exact all ⟨n, h⟩

theorem hexDigit_lt {n : Nat} (h : n < 16) : hexDigit n < 0x80 := by
  have all : ∀ n : Fin 16, hexDigit n.val < 0x80 := by decide
  exact all ⟨n, h⟩

theorem lt_of_mem_hexByte {b c : UInt8} (h : c ∈ hexByte b) : c < 0x80 := by
  have := b.toNat_lt
  simp only [hexByte, List.mem_cons, List.not_mem_nil, or_false] at h
  rcases h with rfl | rfl <;> exact hexDigit_lt (by omega)

/-- The number of a non-empty list of digits. -/
def natural? (digits : Bytes) : Option Nat :=
  if digits ≠ [] ∧ digits.all isDigit then
    some (digits.foldl (fun n b => 10 * n + (b.toNat - 48)) 0)
  else none

end ReleaseRecovery.Ascii
