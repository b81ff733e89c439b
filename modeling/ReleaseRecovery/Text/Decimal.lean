/-!
# Decimal numerals

Natural numbers as they are written in release names, dates and command lines: one or more of the
ten ASCII digits. Leading zeros are allowed when reading; none are written.

## Main Definitions

* `Decimal.value?` — the number that a numeral stands for
* `Decimal.padded` — a numeral with at least a given number of digits

## Main Statements

* `Decimal.value?_toDigits` — a number is read back from its numeral
-/

namespace ReleaseRecovery.Decimal

/-- The number that a non-empty list of ASCII digits stands for. -/
def value? (cs : List Char) : Option Nat :=
  if cs ≠ [] ∧ cs.all Char.isDigit then some (Nat.ofDigitChars 10 cs 0) else none

@[simp] theorem value?_nil : value? [] = none := rfl

/-- A number is read back from its numeral. -/
@[simp] theorem value?_toDigits (n : Nat) : value? (Nat.toDigits 10 n) = some n := by
  have hd : (Nat.toDigits 10 n).all Char.isDigit = true :=
    List.all_eq_true.2 fun c hc => Nat.isDigit_of_mem_toDigits (by decide) (by decide) hc
  rw [value?, if_pos ⟨Nat.toDigits_ne_nil, hd⟩,
    Nat.ofDigitChars_toDigits (by decide) (by decide)]

/-- The numeral of `n`, with zeros in front until it has `width` digits. -/
def padded (width n : Nat) : String :=
  let digits := Nat.repr n
  String.ofList (List.replicate (width - digits.length) '0') ++ digits

end ReleaseRecovery.Decimal
