import ReleaseRecovery.Text.Ascii
import ReleaseRecovery.Json.Problem

/-!
# Strings inside a JSON text

What stands between a quotation mark and the one that closes it.

## Main Definitions

* `Json.encodeText` — a string as it is written, closing mark included
* `Json.escaped` — the bytes that are meant by one escape
* `Json.unescape` — the bytes that are meant by a written string
* `Json.decodeText` — the string that is meant

## Design Notes

Reading works on bytes: escapes are resolved first, and only a string that is closed is then read
as UTF-8. A half of a surrogate pair has no meaning without the other half.
-/

namespace ReleaseRecovery.Json

open Ascii

/-- How one byte of a string is written. -/
def escapeByte (b : UInt8) : Bytes :=
  if b = quote then [backslash, quote]
  else if b = backslash then [backslash, backslash]
  else if b = 0x08 then [backslash, 0x62]
  else if b = 0x0C then [backslash, 0x66]
  else if b = newline then [backslash, 0x6E]
  else if b = carriageReturn then [backslash, 0x72]
  else if b = tab then [backslash, 0x74]
  else if b < space then [backslash, 0x75, zero, zero] ++ hexByte b
  else [b]

/-- A string as it is written after its opening quotation mark. -/
def encodeText (s : String) : Bytes := (Utf8.encode s).flatMap escapeByte ++ [quote]

/-- The byte that a one-letter escape stands for. -/
def escaped? (b : UInt8) : Option UInt8 :=
  match b with
  | 0x22 => some quote
  | 0x5C => some backslash
  | 0x2F => some slash
  | 0x62 => some 0x08
  | 0x66 => some 0x0C
  | 0x6E => some newline
  | 0x72 => some carriageReturn
  | 0x74 => some tab
  | _ => none

/-- The number of four hexadecimal digits. -/
def hexNumber? (a b c d : UInt8) : Option Nat := do
  let a ← hexDigit? a
  let b ← hexDigit? b
  let c ← hexDigit? c
  let d ← hexDigit? d
  return ((a * 16 + b) * 16 + c) * 16 + d

/-- Whether a number is the first half of a surrogate pair. -/
def isHighSurrogate (n : Nat) : Bool := 0xD800 ≤ n && n ≤ 0xDBFF

/-- Whether a number is the second half of a surrogate pair. -/
def isLowSurrogate (n : Nat) : Bool := 0xDC00 ≤ n && n ≤ 0xDFFF

/-- The bytes of the character with a number. -/
def characterBytes (n : Nat) : Bytes := String.utf8EncodeChar (Char.ofNat n)

/-- Reads the four digits of a number. -/
def digits : Bytes → Except Problem (Nat × Bytes)
  | a :: b :: c :: d :: rest =>
    match hexNumber? a b c d with
    | some n => .ok (n, rest)
    | none => .error .malformed
  | _ => .error .endOfText

/-- Reads the second half of a surrogate pair, which is an escape of its own. -/
def secondHalf : Bytes → Except Problem (Nat × Bytes)
  | [] => .error .endOfText
  | [m] => if m = backslash then .error .endOfText else .error .malformed
  | m :: u :: rest =>
    if m = backslash ∧ u = 0x75 then
      match digits rest with
      | .ok (n, rest) => if isLowSurrogate n then .ok (n, rest) else .error .malformed
      | .error p => .error p
    else .error .malformed

/-- Reads the character whose number follows, or the two halves of one. -/
def numbered (s : Bytes) : Except Problem (Bytes × Bytes) :=
  match digits s with
  | .error p => .error p
  | .ok (n, rest) =>
    if isLowSurrogate n then .error .malformed
    else if isHighSurrogate n then
      match secondHalf rest with
      | .ok (m, rest) => .ok (characterBytes (0x10000 + (n - 0xD800) * 0x400 + (m - 0xDC00)), rest)
      | .error p => .error p
    else .ok (characterBytes n, rest)

/-- Reads what follows a backslash: the bytes that are meant, and what comes after. -/
def escaped : Bytes → Except Problem (Bytes × Bytes)
  | [] => .error .endOfText
  | e :: rest =>
    if e = 0x75 then numbered rest
    else
      match escaped? e with
      | some b => .ok ([b], rest)
      | none => .error .malformed

theorem length_digits {s rest : Bytes} {n : Nat} (h : digits s = .ok (n, rest)) :
    rest.length ≤ s.length := by
  unfold digits at h
  split at h
  · split at h
    · cases h
      simp only [List.length_cons]
      omega
    · exact absurd h (by simp)
  · exact absurd h (by simp)

theorem length_secondHalf {s rest : Bytes} {n : Nat} (h : secondHalf s = .ok (n, rest)) :
    rest.length ≤ s.length := by
  unfold secondHalf at h
  split at h
  · exact absurd h (by simp)
  · split at h <;> exact absurd h (by simp)
  · split at h
    · split at h
      · rename_i hd
        split at h
        · cases h
          have := length_digits hd
          simp only [List.length_cons]
          omega
        · exact absurd h (by simp)
      · exact absurd h (by simp)
    · exact absurd h (by simp)

theorem length_numbered {s meant rest : Bytes} (h : numbered s = .ok (meant, rest)) :
    rest.length ≤ s.length := by
  unfold numbered at h
  split at h
  · exact absurd h (by simp)
  · rename_i hd
    have hd := length_digits hd
    split at h
    · exact absurd h (by simp)
    · split at h
      · split at h
        · rename_i hs
          rw [← (Prod.mk.inj (Except.ok.inj h)).2]
          exact Nat.le_trans (length_secondHalf hs) hd
        · exact absurd h (by simp)
      · rw [← (Prod.mk.inj (Except.ok.inj h)).2]
        exact hd

/-- Reading an escape gives no byte back. -/
theorem length_escaped {s meant rest : Bytes} (h : escaped s = .ok (meant, rest)) :
    rest.length ≤ s.length := by
  unfold escaped at h
  split at h
  · exact absurd h (by simp)
  · split at h
    · exact Nat.le_succ_of_le (length_numbered h)
    · split at h
      · cases h
        exact Nat.le_succ _
      · exact absurd h (by simp)

/-- The bytes that are meant by a written string, up to the quotation mark that closes it. -/
def unescape : Bytes → Except Problem Bytes
  | [] => .error .endOfText
  | b :: rest =>
    if b = quote then .ok []
    else if b = backslash then
      match _h : escaped rest with
      | .ok (meant, rest) => (unescape rest).map (meant ++ ·)
      | .error p => .error p
    else if b < space then .error .malformed
    else (unescape rest).map (b :: ·)
termination_by s => s.length
decreasing_by
  · exact Nat.lt_succ_of_le (length_escaped _h)
  · exact Nat.lt_succ_self _

/-- The string that is meant by a written one. -/
def decodeText (raw : Bytes) : Except Problem String :=
  match unescape raw with
  | .ok bytes =>
    match Utf8.decode? bytes with
    | some s => .ok s
    | none => .error .malformed
  | .error p => .error p

end ReleaseRecovery.Json
