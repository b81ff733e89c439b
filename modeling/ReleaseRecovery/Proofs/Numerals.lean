import Mathlib.Data.List.TakeWhile
import ReleaseRecovery.Proofs.JsonRendering

/-!
# Reading back the numbers of a JSON text

A natural number is written with its last digit behind the numeral of what is left without it. So
every property of a numeral is shown for one digit, and then carried over that digit.

## Main Statements

* `Json.isLiteral_repr` — the numeral of a number is a literal
* `Json.word?_repr` — a number of 64 bits is read back from its numeral
* `Json.isRepresentable_repr` — it is within the range of double-precision numbers
-/

namespace ReleaseRecovery

namespace Ascii

theorem utf8EncodeChar_digitChar {d : Nat} (h : d < 10) :
    String.utf8EncodeChar (Nat.digitChar d) = [hexDigit d] := by
  have all : ∀ d : Fin 10, String.utf8EncodeChar (Nat.digitChar d.val) = [hexDigit d.val] := by
    decide
  exact all ⟨d, h⟩

/-- The last digit of a numeral stands behind the others. -/
theorem bytes_repr (n : Nat) :
    bytes (Nat.repr n) =
      (if n < 10 then [] else bytes (Nat.repr (n / 10))) ++ [hexDigit (n % 10)] := by
  have hdigits (m : Nat) :
      bytes (Nat.repr m) = (Nat.toDigits 10 m).flatMap String.utf8EncodeChar := by
    rw [bytes, Utf8.encode, Nat.repr_eq_ofList_toDigits, String.toList_ofList]
  rw [hdigits, hdigits, Nat.toDigits_eq_if (by decide)]
  split
  · rename_i h
    rw [Nat.mod_eq_of_lt h, List.flatMap_cons, utf8EncodeChar_digitChar h]
    rfl
  · rw [List.flatMap_append, List.flatMap_cons,
      utf8EncodeChar_digitChar (Nat.mod_lt n (by decide))]
    rfl

theorem isDigit_hexDigit {d : Nat} (h : d < 10) : isDigit (hexDigit d) = true := by
  have all : ∀ d : Fin 10, isDigit (hexDigit d.val) = true := by decide
  exact all ⟨d, h⟩

theorem toNat_hexDigit_sub {d : Nat} (h : d < 10) : (hexDigit d).toNat - 48 = d := by
  have all : ∀ d : Fin 10, (hexDigit d.val).toNat - 48 = d.val := by decide
  exact all ⟨d, h⟩

theorem isDigit_of_mem_bytes_repr {n : Nat} {b : UInt8} (h : b ∈ bytes (Nat.repr n)) :
    isDigit b = true := by
  induction n using Nat.strongRecOn with
  | ind n ih =>
    rw [bytes_repr, List.mem_append, List.mem_singleton] at h
    obtain h | rfl := h
    · split at h
      · cases h
      · exact ih (n / 10) (by omega) h
    · exact isDigit_hexDigit (Nat.mod_lt n (by decide))

/-- A number is read back from its numeral. -/
theorem natural?_repr (n : Nat) : natural? (bytes (Nat.repr n)) = some n := by
  have hne : bytes (Nat.repr n) ≠ [] := by
    rw [bytes_repr]
    exact List.append_ne_nil_of_right_ne_nil _ (List.cons_ne_nil _ _)
  have hall : (bytes (Nat.repr n)).all isDigit = true :=
    List.all_eq_true.2 fun b => isDigit_of_mem_bytes_repr
  rw [natural?, if_pos ⟨hne, hall⟩]
  clear hne hall
  congr 1
  induction n using Nat.strongRecOn with
  | ind n ih =>
    rw [bytes_repr, List.foldl_append, List.foldl_cons, List.foldl_nil,
      toNat_hexDigit_sub (Nat.mod_lt n (by decide))]
    split
    · rw [List.foldl_nil]
      omega
    · rw [ih (n / 10) (by omega)]
      omega

end Ascii

namespace Json

open Ascii

/-! ### Literals -/

/-- The numeral of a number that is not zero starts with a digit that is not zero. -/
theorem exists_bytes_repr_eq_cons {n : Nat} (h : 0 < n) :
    ∃ b rest, bytes (Nat.repr n) = b :: rest ∧ NumberForm.start? b = some .integer ∧
      NumberForm.integer.follow rest = some .integer := by
  induction n using Nat.strongRecOn with
  | ind n ih =>
    rw [bytes_repr]
    split
    · rename_i hlt
      have all : ∀ d : Fin 10, 0 < d.val →
          NumberForm.start? (hexDigit d.val) = some .integer := by decide
      rw [Nat.mod_eq_of_lt hlt]
      exact ⟨hexDigit n, [], rfl, all ⟨n, hlt⟩ h, rfl⟩
    · obtain ⟨b, rest, hrepr, hstart, hrest⟩ := ih (n / 10) (by omega) (by omega)
      have hdigit := isDigit_hexDigit (Nat.mod_lt n (by decide : 10 > 0))
      refine ⟨b, rest ++ [hexDigit (n % 10)], by rw [hrepr, List.cons_append], hstart, ?_⟩
      rw [NumberForm.follow_append, hrest, Option.bind_some, NumberForm.follow, NumberForm.next,
        if_pos hdigit]
      rfl

/-- The numeral of a number is a literal. -/
theorem isLiteral_repr (n : Nat) : IsLiteral (bytes (Nat.repr n)) := by
  cases Nat.eq_zero_or_pos n with
  | inl h =>
    subst h
    exact ⟨zero, [], .zero, .zero, by decide, by decide, rfl, rfl⟩
  | inr h =>
    obtain ⟨b, rest, hrepr, hstart, hrest⟩ := exists_bytes_repr_eq_cons h
    exact ⟨b, rest, .integer, .integer, hrepr, hstart, hrest, rfl⟩

theorem isWritten_ofNat (n : Nat) : (Value.ofNat n).IsWritten := isLiteral_repr n

/-- A number of 64 bits is read back from its numeral. -/
theorem word?_repr {n : Nat} (h : n < UInt64.size) : word? (bytes (Nat.repr n)) = some n := by
  rw [word?, natural?_repr, Option.bind_some, if_pos h]

/-! ### Range -/

-- The bound of 64 bits must not be unfolded when the two sides are compared.
attribute [local irreducible] appendDigit? in
theorem integerPart_cons (significand : Nat) (b : UInt8) (rest : Bytes) :
    integerPart significand (b :: rest) =
      match appendDigit? significand b with
      | some n => integerPart n rest
      | none => (significand, rest.length + 1) :=
  rfl

theorem integerPart_append {significand n : Nat} {digits : Bytes}
    (h : integerPart significand digits = (n, 0)) (rest : Bytes) :
    integerPart significand (digits ++ rest) = integerPart n rest := by
  induction digits generalizing significand with
  | nil =>
    have hstart : integerPart significand [] = (significand, 0) := rfl
    rw [hstart] at h
    rw [(Prod.mk.inj h).1, List.nil_append]
  | cons b digits ih =>
    rw [integerPart_cons] at h
    rw [List.cons_append, integerPart_cons]
    cases happend : appendDigit? significand b with
    | some m =>
      rw [happend] at h
      exact ih h
    | none =>
      rw [happend] at h
      cases h

/-- All digits of a number of 64 bits are taken. -/
theorem integerPart_repr {n : Nat} (h : n < UInt64.size) :
    integerPart 0 (bytes (Nat.repr n)) = (n, 0) := by
  induction n using Nat.strongRecOn with
  | ind n ih =>
    have hinit : integerPart 0 (if n < 10 then [] else bytes (Nat.repr (n / 10))) =
        (n / 10, 0) := by
      split
      · rename_i hlt
        rw [Nat.div_eq_of_lt hlt]
        rfl
      · exact ih (n / 10) (by omega) (by omega)
    have hlast : n / 10 * 10 + n % 10 = n := by omega
    have happend : appendDigit? (n / 10) (hexDigit (n % 10)) = some n := by
      rw [appendDigit?, toNat_hexDigit_sub (Nat.mod_lt n (by decide)), hlast, if_pos h]
    rw [bytes_repr, integerPart_append hinit, integerPart_cons, happend]
    rfl

/-- Rounding at most doubles a number. -/
theorem roundToDouble_le (n : Nat) : roundToDouble n ≤ 2 * n := by
  unfold roundToDouble
  split
  · omega
  · rename_i hlarge
    have hne : n ≠ 0 := by
      rintro rfl
      exact hlarge (by decide)
    have hunit : Nat.pow 2 (Nat.log2 n - 52) ≤ n :=
      Nat.le_trans (Nat.pow_le_pow_right (by decide) (Nat.sub_le _ _)) (Nat.log2_self_le hne)
    have hquotient := Nat.div_mul_le_self n (Nat.pow 2 (Nat.log2 n - 52))
    dsimp only
    split
    · rw [Nat.add_mul, Nat.one_mul]
      omega
    · omega

/-- A number of 64 bits is within the range of double-precision numbers. -/
theorem isFinite_of_lt {n : Nat} (h : n < UInt64.size) : isFinite n 0 = true := by
  have hone : roundToDouble (Nat.pow 10 (0 : Int).toNat) = 1 := by decide
  have hround : roundToDouble (roundToDouble n) < Nat.pow 2 66 := by
    calc roundToDouble (roundToDouble n) ≤ 2 * roundToDouble n := roundToDouble_le _
      _ ≤ 2 * (2 * n) := Nat.mul_le_mul_left 2 (roundToDouble_le n)
      _ < 2 * (2 * UInt64.size) := by omega
      _ = Nat.pow 2 66 := by decide
  have hlt (k : Nat) (hk : 66 ≤ k) : roundToDouble (roundToDouble n) < Nat.pow 2 k :=
    Nat.lt_of_lt_of_le hround (Nat.pow_le_pow_right (by decide) hk)
  unfold isFinite
  split
  · rfl
  · rw [if_neg (by decide), hone, Nat.mul_one]
    refine decide_eq_true ?_
    apply hlt
    decide

theorem isRepresentable_repr {n : Nat} (h : n < UInt64.size) :
    isRepresentable (bytes (Nat.repr n)) = true := by
  have hdigits : ∀ b ∈ bytes (Nat.repr n), isDigit b = true := fun b => isDigit_of_mem_bytes_repr
  have hsign : (bytes (Nat.repr n)).head? ≠ some minus := by
    intro hhead
    have := hdigits minus (List.mem_of_head? hhead)
    exact absurd this (by decide)
  have hwhole : (bytes (Nat.repr n)).takeWhile isDigit = bytes (Nat.repr n) :=
    List.takeWhile_eq_self_iff.2 hdigits
  have hafter : (bytes (Nat.repr n)).dropWhile isDigit = [] :=
    List.dropWhile_eq_nil_iff.2 hdigits
  have hscientific : scientific (bytes (Nat.repr n)) = (n, 0) := by
    unfold scientific
    rw [if_neg hsign]
    dsimp only
    rw [hwhole, hafter, integerPart_repr h]
    rfl
  rw [isRepresentable, hscientific]
  exact isFinite_of_lt h

end Json

end ReleaseRecovery
