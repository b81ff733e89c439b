import ReleaseRecovery.Sha1
import ReleaseRecovery.Text.Ascii

/-!
# Object ids

The name of an object: twenty bytes, shown as forty lower-case hexadecimal digits.

## Main Definitions

* `Git.Id` — twenty bytes
* `Git.Id.hex` — the digits
* `Git.Id.ofText?` — reading one to forty digits
* `Git.Id.ofDigest` — the id of a content

## Main Statements

* `Git.Id.ofText?_hex` — an id is read back from its digits
-/

namespace ReleaseRecovery.Git

/-- The name of an object. -/
structure Id where
  bytes : Bytes
  length_bytes : bytes.length = 20
deriving DecidableEq

namespace Id

@[ext] theorem ext {i j : Id} (h : i.bytes = j.bytes) : i = j := by
  cases i; cases j; cases h; rfl

/-- The digits of an id, as bytes. -/
def digits (i : Id) : Bytes := i.bytes.flatMap Ascii.hexByte

/-- The digits of an id. -/
def hex (i : Id) : String := Utf8.decodeLossy i.digits

/-- The id that names a content. -/
def ofDigest (content : Bytes) : Id := ⟨Sha1.digest content, Sha1.length_digest content⟩

/-- The bytes that pairs of digits stand for. -/
def pairs : List Nat → Bytes
  | a :: b :: rest => UInt8.ofNat (16 * a + b) :: pairs rest
  | _ => []

theorem length_pairs (l : List Nat) : (pairs l).length = l.length / 2 := by
  fun_induction pairs l with
  | case1 a b rest ih => rw [List.length_cons, List.length_cons, List.length_cons, ih]; omega
  | case2 l h =>
    match l, h with
    | [], _ => rfl
    | [_], _ => simp
    | a :: b :: rest, h => exact absurd rfl (h a b rest)

/-- The values of digits, filled up with zeros to forty. -/
def filled (values : List Nat) : List Nat :=
  values.take 40 ++ List.replicate (40 - values.length) 0

theorem length_filled (values : List Nat) : (filled values).length = 40 := by
  simp only [filled, List.length_append, List.length_take, List.length_replicate]
  omega

/-- The id with the given digits at its start and zeros after them. -/
def ofValues (values : List Nat) : Id :=
  ⟨pairs (filled values), by rw [length_pairs, length_filled]⟩

/-- Reads one to forty digits of either case. An id with fewer than forty is not looked for: it
stands for itself with zeros at its end. -/
def ofDigits? (text : Bytes) : Option Id :=
  if text.length = 0 ∨ 40 < text.length then none
  else (text.mapM Ascii.hexDigit?).map ofValues

/-- Reads the digits of an id. -/
def ofText? (text : String) : Option Id := ofDigits? (Ascii.bytes text)

/-! ### Digits and back -/

theorem length_flatMap_hexByte (l : Bytes) : (l.flatMap Ascii.hexByte).length = 2 * l.length := by
  induction l with
  | nil => rfl
  | cons b rest ih =>
    rw [List.flatMap_cons, List.length_append, ih]
    simp only [Ascii.hexByte, List.length_cons, List.length_nil]
    omega

@[simp] theorem length_digits (i : Id) : i.digits.length = 40 := by
  rw [digits, length_flatMap_hexByte, i.length_bytes]

/-- The values of the digits of bytes. -/
def values (l : Bytes) : List Nat := l.flatMap fun b => [b.toNat / 16, b.toNat % 16]

theorem mapM_hexDigit?_flatMap (l : Bytes) :
    (l.flatMap Ascii.hexByte).mapM Ascii.hexDigit? = some (values l) := by
  induction l with
  | nil => rfl
  | cons b rest ih =>
    have := b.toNat_lt
    rw [List.flatMap_cons, List.mapM_append, ih]
    simp [Ascii.hexByte, values, Ascii.hexDigit?_hexDigit (show b.toNat / 16 < 16 by omega),
      Ascii.hexDigit?_hexDigit (show b.toNat % 16 < 16 by omega)]

theorem pairs_values (l : Bytes) : pairs (values l) = l := by
  induction l with
  | nil => rfl
  | cons b rest ih =>
    rw [values, List.flatMap_cons, ← values]
    simp only [List.cons_append, List.nil_append, pairs, ih, Nat.div_add_mod, UInt8.ofNat_toNat]

theorem length_values (l : Bytes) : (values l).length = 2 * l.length := by
  induction l with
  | nil => rfl
  | cons b rest ih =>
    rw [values, List.flatMap_cons, ← values, List.length_append, ih]
    simp only [List.length_cons, List.length_nil]
    omega

/-- Forty digits stand for the id that they are the digits of. -/
@[simp] theorem ofDigits?_digits (i : Id) : ofDigits? i.digits = some i := by
  have hv : (values i.bytes).length = 40 := by rw [length_values, i.length_bytes]
  rw [ofDigits?, if_neg (by rw [length_digits]; omega), digits, mapM_hexDigit?_flatMap,
    Option.map_some]
  refine congrArg some (ext ?_)
  simp only [ofValues, filled, hv, Nat.sub_self, List.replicate_zero, List.append_nil]
  rw [List.take_of_length_le (Nat.le_of_eq hv), pairs_values]

/-- An id is read back from its digits. -/
@[simp] theorem ofText?_hex (i : Id) : ofText? i.hex = some i := by
  have h : ∀ b ∈ i.digits, b < 0x80 := fun b hb => by
    obtain ⟨a, _, hb⟩ := List.mem_flatMap.1 hb
    exact Ascii.lt_of_mem_hexByte hb
  rw [ofText?, hex, Ascii.bytes, Utf8.encode_decodeLossy h, ofDigits?_digits]

/-- Different ids have different digits. -/
theorem hex_inj {i j : Id} : i.hex = j.hex ↔ i = j :=
  ⟨fun h => Option.some.inj (by rw [← ofText?_hex i, h, ofText?_hex]), fun h => h ▸ rfl⟩

/-! ### Bytes -/

/-- The id that twenty bytes make, and the bytes after them. -/
def take? (s : Bytes) : Option (Id × Bytes) :=
  if h : 20 ≤ s.length then some (⟨s.take 20, by rw [List.length_take]; omega⟩, s.drop 20)
  else none

end Id

end ReleaseRecovery.Git
