import ReleaseRecovery.Text.Ascii

/-!
# Numbers inside a JSON text

## Main Definitions

* `Json.NumberForm` — how far the literal of a number has come
* `Json.NumberForm.next` — what the next byte does to it
* `Json.scientific` — a literal as a number of 64 bits times a power of ten
* `Json.isRepresentable` — whether a literal is within the range of double-precision numbers
* `Json.word?` — the value of a literal that is a natural number of 64 bits

## Design Notes

A literal is kept as it is written. Its value matters in two places only: a natural number where
one is wanted, and the refusal of numbers that would round to infinity. The latter is decided as
binary arithmetic would: up to 19 or 20 digits are taken exactly, and the two factors and the
product of `digits × 10 ^ exponent` are rounded to 53 bits each.
-/

namespace ReleaseRecovery.Json

open Ascii

/-- How far the literal of a number has come. -/
inductive NumberForm
  /-- A minus sign. -/
  | sign
  /-- A single zero before the point. -/
  | zero
  /-- Digits before the point. -/
  | integer
  /-- The point. -/
  | point
  /-- Digits after the point. -/
  | fraction
  /-- The exponent mark. -/
  | mark
  /-- The sign of the exponent. -/
  | markSign
  /-- Digits of the exponent. -/
  | exponent
deriving DecidableEq

namespace NumberForm

/-- What a byte after part of a literal means. -/
inductive Next
  | goesOn (form : NumberForm)
  | ends
  | broken

/-- The literal that starts with a byte. -/
def start? (b : UInt8) : Option NumberForm :=
  if b = minus then some sign
  else if b = Ascii.zero then some zero
  else if isDigit b then some integer
  else none

/-- Whether a literal may end here. -/
def isComplete : NumberForm → Bool
  | zero | integer | fraction | exponent => true
  | sign | point | mark | markSign => false

/-- Whether a byte is an exponent mark. -/
def isMark (b : UInt8) : Bool := b == 0x65 || b == 0x45

/-- What the next byte does to a literal. No digit follows a leading zero. -/
def next (form : NumberForm) (b : UInt8) : Next :=
  match form with
  | sign => if b = Ascii.zero then .goesOn zero else if isDigit b then .goesOn integer else .broken
  | zero =>
    if isDigit b then .broken
    else if b = dot then .goesOn point
    else if isMark b then .goesOn mark
    else .ends
  | integer =>
    if isDigit b then .goesOn integer
    else if b = dot then .goesOn point
    else if isMark b then .goesOn mark
    else .ends
  | point => if isDigit b then .goesOn fraction else .broken
  | fraction =>
    if isDigit b then .goesOn fraction else if isMark b then .goesOn mark else .ends
  | mark =>
    if isDigit b then .goesOn exponent
    else if b = plus ∨ b = minus then .goesOn markSign
    else .broken
  | markSign => if isDigit b then .goesOn exponent else .broken
  | exponent => if isDigit b then .goesOn exponent else .ends

end NumberForm

/-! ### Range -/

/-- A natural number rounded to 53 significant bits, ties to even. -/
def roundToDouble (n : Nat) : Nat :=
  if n < Nat.pow 2 53 then n
  else
    let unit := Nat.pow 2 (Nat.log2 n - 52)
    let quotient := n / unit
    let remainder := n % unit
    if 2 * remainder > unit ∨ (2 * remainder = unit ∧ quotient % 2 = 1) then (quotient + 1) * unit
    else quotient * unit

/-- Appends a digit to an exact significand of 64 bits; `none` if it does not fit. -/
def appendDigit? (significand : Nat) (b : UInt8) : Option Nat :=
  let n := significand * 10 + (b.toNat - 48)
  if n < UInt64.size then some n else none

/-- The significand of the digits before the point, and the number of digits left out at its
end. -/
def integerPart : Nat → Bytes → Nat × Nat
  | significand, [] => (significand, 0)
  | significand, b :: rest =>
    match appendDigit? significand b with
    | some n => integerPart n rest
    | none => (significand, rest.length + 1)

/-- The significand with the digits after the point, and the number of those that were taken. -/
def fractionPart : Nat → Bytes → Nat × Nat
  | significand, [] => (significand, 0)
  | significand, b :: rest =>
    match appendDigit? significand b with
    | some n => ((fractionPart n rest).1, (fractionPart n rest).2 + 1)
    | none => (significand, 0)

/-- Whether `significand × 10 ^ exponent` is finite in double precision. -/
def isFinite (significand : Nat) (exponent : Int) : Bool :=
  if significand = 0 ∨ exponent < 0 then true
  else if exponent > 308 then false
  else roundToDouble (roundToDouble significand * roundToDouble (Nat.pow 10 exponent.toNat)) <
    Nat.pow 2 1024

/-- The number of 64 bits and the power of ten whose product a literal is read as, its sign
apart. -/
def scientific (literal : Bytes) : Nat × Int :=
  let digits := if literal.head? = some minus then literal.drop 1 else literal
  let whole := digits.takeWhile isDigit
  let afterWhole := digits.dropWhile isDigit
  let decimals :=
    if afterWhole.head? = some dot then (afterWhole.drop 1).takeWhile isDigit else []
  let power := (afterWhole.dropWhile fun b => !NumberForm.isMark b).drop 1
  let shift := (natural? (power.dropWhile fun b => !isDigit b)).getD 0
  let (significand, dropped) := integerPart 0 whole
  let (significand, taken) := fractionPart significand decimals
  let exponent : Int := (dropped : Int) - taken
  (significand, if power.head? = some minus then exponent - shift else exponent + shift)

/-- Whether the literal of a number is within the range of double-precision numbers. -/
def isRepresentable (literal : Bytes) : Bool :=
  isFinite (scientific literal).1 (scientific literal).2

/-- The value of a literal that is a natural number of 64 bits. -/
def word? (literal : Bytes) : Option Nat :=
  (natural? literal).bind fun n => if n < UInt64.size then some n else none

end ReleaseRecovery.Json
