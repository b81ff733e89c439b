import ReleaseRecovery.Text.Decimal

/-!
# Instants

Moments of time as they are written in RFC 3339.

## Main Definitions

* `daysOfDate`, `dateOfDays` — the proleptic Gregorian calendar
* `Instant` — a moment
* `Instant.ofText?` — reading a date with a time and an offset
* `Instant.text` — writing, in universal time

## Design Notes

Days are counted from the first of January 1970, in years that start in March, so that the day that
leap years add is the last of the year. A second numbered 60 is accepted in every minute. It is
kept as the 59th with a thousand million nanoseconds and more.
-/

namespace ReleaseRecovery

/-! ### The calendar -/

/-- Whether a year has a 29th of February. -/
def isLeapYear (year : Int) : Bool :=
  year % 4 = 0 ∧ (year % 100 ≠ 0 ∨ year % 400 = 0)

/-- The number of days of a month. -/
def daysInMonth (year : Int) (month : Nat) : Nat :=
  if month = 2 then (if isLeapYear year then 29 else 28)
  else if month ∈ [4, 6, 9, 11] then 30
  else 31

/-- The number of days from the first of January 1970 to a date. -/
def daysOfDate (year : Int) (month day : Nat) : Int :=
  let year := if month ≤ 2 then year - 1 else year
  let era := year / 400
  let yearOfEra := year - era * 400
  let monthFromMarch : Int := ((month + 9) % 12 : Nat)
  let dayOfYear := (153 * monthFromMarch + 2) / 5 + day - 1
  let dayOfEra := yearOfEra * 365 + yearOfEra / 4 - yearOfEra / 100 + dayOfYear
  era * 146097 + dayOfEra - 719468

/-- A date of the calendar. -/
structure Date where
  year : Int
  month : Nat
  day : Nat
deriving DecidableEq

/-- The date that is a number of days from the first of January 1970. -/
def dateOfDays (days : Int) : Date :=
  let days := days + 719468
  let era := days / 146097
  let dayOfEra := days - era * 146097
  let yearOfEra :=
    (dayOfEra - dayOfEra / 1460 + dayOfEra / 36524 - dayOfEra / 146096) / 365
  let dayOfYear := dayOfEra - (365 * yearOfEra + yearOfEra / 4 - yearOfEra / 100)
  let monthFromMarch := (5 * dayOfYear + 2) / 153
  let day := dayOfYear - (153 * monthFromMarch + 2) / 5 + 1
  let month := if monthFromMarch < 10 then monthFromMarch + 3 else monthFromMarch - 9
  let year := yearOfEra + era * 400 + (if month ≤ 2 then 1 else 0)
  ⟨year, month.toNat, day.toNat⟩

example : daysOfDate 1970 1 1 = 0 := by decide

example : dateOfDays (daysOfDate 2000 2 29) = ⟨2000, 2, 29⟩ := by decide

/-! ### Moments -/

/-- A moment: whole seconds from the start of 1970 in universal time, and nanoseconds, which exceed
a second in a leap second. -/
structure Instant where
  seconds : Int
  nanoseconds : Nat
deriving DecidableEq

namespace Instant

/-- The number of nanoseconds in a second. -/
def nanosecondsPerSecond : Nat := 1000000000

/-- Takes a numeral of exactly `width` digits. -/
def digits? (width : Nat) (cs : List Char) : Option (Nat × List Char) :=
  if (cs.take width).length = width then
    (Decimal.value? (cs.take width)).map fun n => (n, cs.drop width)
  else none

/-- Takes a character. -/
def char? (c : Char) : List Char → Option (List Char)
  | d :: rest => if d = c then some rest else none
  | [] => none

/-- Takes the fraction of a second, if there is one, down to nanoseconds. -/
def fraction? : List Char → Option (Nat × List Char)
  | '.' :: rest =>
    let read := rest.takeWhile Char.isDigit
    let kept := read.take 9
    (Decimal.value? kept).map fun n => (n * Nat.pow 10 (9 - kept.length), rest.drop read.length)
  | cs => some (0, cs)

/-- The sign of an offset: plus, hyphen or the minus sign proper. -/
def sign? (c : Char) : Option Int :=
  if c = '+' then some 1 else if c = '-' ∨ c = '\u2212' then some (-1) else none

/-- Reads an offset from universal time, in seconds. Nothing may follow it. -/
def offset? : List Char → Option Int
  | ['Z'] | ['z'] => some 0
  | c :: rest => do
    let sign ← sign? c
    let (hours, rest) ← digits? 2 rest
    let rest ← char? ':' rest
    let (minutes, rest) ← digits? 2 rest
    if hours ≤ 23 ∧ minutes ≤ 59 ∧ rest = [] then
      return sign * (hours * 3600 + minutes * 60 : Nat)
    else none
  | [] => none

/-- Reads a date with a time and an offset. -/
def ofChars? (cs : List Char) : Option Instant := do
  let (year, cs) ← digits? 4 cs
  let cs ← char? '-' cs
  let (month, cs) ← digits? 2 cs
  let cs ← char? '-' cs
  let (day, cs) ← digits? 2 cs
  let separator ← cs.head?
  if separator ∉ ['T', 't', ' '] then none
  let (hour, cs) ← digits? 2 (cs.drop 1)
  let cs ← char? ':' cs
  let (minute, cs) ← digits? 2 cs
  let cs ← char? ':' cs
  let (second, cs) ← digits? 2 cs
  let (fraction, cs) ← fraction? cs
  let offset ← offset? cs
  if 1 ≤ month ∧ month ≤ 12 ∧ 1 ≤ day ∧ day ≤ daysInMonth year month ∧
      hour ≤ 23 ∧ minute ≤ 59 ∧ second ≤ 60 then
    let time : Nat := hour * 3600 + minute * 60 + min second 59
    return ⟨daysOfDate year month day * 86400 + time - offset,
      fraction + (if second = 60 then nanosecondsPerSecond else 0)⟩
  else none

/-- Reads a date with a time and an offset. -/
def ofText? (s : String) : Option Instant := ofChars? s.toList

/-- A year with four digits, and with a sign if it has more or lies before the year 0. -/
def yearText (year : Int) : String :=
  if 0 ≤ year ∧ year ≤ 9999 then Decimal.padded 4 year.toNat
  else (if year < 0 then "-" else "+") ++ Decimal.padded 4 year.natAbs

/-- A fraction of a second with as many groups of three digits as it needs. -/
def fractionText (nanoseconds : Nat) : String :=
  if nanoseconds = 0 then ""
  else if nanoseconds % 1000000 = 0 then "." ++ Decimal.padded 3 (nanoseconds / 1000000)
  else if nanoseconds % 1000 = 0 then "." ++ Decimal.padded 6 (nanoseconds / 1000)
  else "." ++ Decimal.padded 9 nanoseconds

/-- A moment in universal time. -/
def text (i : Instant) : String :=
  let date := dateOfDays (i.seconds / 86400)
  let time := (i.seconds % 86400).toNat
  let isLeap := nanosecondsPerSecond ≤ i.nanoseconds
  yearText date.year ++ "-" ++ Decimal.padded 2 date.month ++ "-" ++ Decimal.padded 2 date.day ++
    "T" ++ Decimal.padded 2 (time / 3600) ++ ":" ++ Decimal.padded 2 (time / 60 % 60) ++ ":" ++
    Decimal.padded 2 (time % 60 + if isLeap then 1 else 0) ++
    fractionText (if isLeap then i.nanoseconds - nanosecondsPerSecond else i.nanoseconds) ++ "Z"

end Instant

end ReleaseRecovery
