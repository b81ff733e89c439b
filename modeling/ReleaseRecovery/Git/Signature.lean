import ReleaseRecovery.Git.Id

/-!
# Headers of objects

Commits and tags begin with lines of a field name, a space and a value. Some values are ids; others
are signatures, which say who did something and when.

## Main Definitions

* `Git.after?`, `Git.splitLast` — taking bytes apart
* `Git.idLine?`, `Git.idLines` — lines that hold an id
* `Git.Signature` — name, address and time
* `Git.Signature.new?` — a signature to be written
* `Git.Signature.read?`, `Git.signatureLine?` — signatures that have been written

## Design Notes

Reading is lenient about what stands in a signature, because stores hold signatures from many
writers: only the last pair of angle brackets counts, what surrounds a name is trimmed, and a
missing time is the start of 1970. Writing is strict.
-/

namespace ReleaseRecovery.Git

/-- The rest of a sequence that begins with the given bytes. -/
def after? (start s : Bytes) : Option Bytes :=
  if start.isPrefixOf s then some (s.drop start.length) else none

theorem length_after? {start s rest : Bytes} (h : after? start s = some rest) :
    rest.length ≤ s.length := by
  unfold after? at h
  split at h
  · rw [← Option.some.inj h, List.length_drop]
    exact Nat.sub_le _ _
  · exact absurd h (by simp)

/-- The bytes before the last place where `b` stands, and those after it. -/
def splitLast (b : UInt8) (s : Bytes) : Option (Bytes × Bytes) :=
  let r := s.reverse
  match r.dropWhile (· != b) with
  | [] => none
  | _ :: front => some (front.reverse, (r.takeWhile (· != b)).reverse)

/-- The bytes up to the first zero byte. -/
def untilZero (s : Bytes) : Bytes := s.takeWhile (· != 0)

/-! ### Ids -/

/-- Reads a line of a field with an id: the name of the field, forty digits and a line break. -/
def idLine? (field : String) (s : Bytes) : Option (Id × Bytes) := do
  let value ← after? (Ascii.bytes field) s
  if value[40]? = some Ascii.newline then
    let id ← Id.ofDigits? (value.take 40)
    return (id, value.drop 41)
  else none

theorem length_idLine? {field : String} {s rest : Bytes} {id : Id}
    (h : idLine? field s = some (id, rest)) : rest.length < s.length := by
  unfold idLine? at h
  obtain ⟨value, hv, h⟩ := Option.bind_eq_some_iff.1 h
  split at h
  · rename_i hn
    obtain ⟨i, _, h⟩ := Option.bind_eq_some_iff.1 h
    have hrest : value.drop 41 = rest := (Prod.mk.inj (Option.some.inj h)).2
    have h40 : 40 < value.length := (List.getElem?_eq_some_iff.1 hn).1
    have hle := length_after? hv
    rw [← hrest, List.length_drop]
    omega
  · exact absurd h (by simp)

/-- The ids of all lines of a field that follow each other, and what comes after them. -/
def idLines (field : String) (s : Bytes) : List Id × Bytes :=
  match _h : idLine? field s with
  | none => ([], s)
  | some (id, rest) =>
    let more := idLines field rest
    (id :: more.1, more.2)
termination_by s.length
decreasing_by exact length_idLine? _h

/-! ### Numbers -/

/-- Whether a byte is a blank. -/
def isBlank (b : UInt8) : Bool := b == Ascii.space || (Ascii.tab ≤ b && b ≤ Ascii.carriageReturn)

/-- The number that digits begin with, negated or not; none if there is no digit or the number does
not fit into 64 bits. -/
def signed? (negative : Bool) (s : Bytes) : Option Int := do
  let n ← Ascii.natural? (s.takeWhile Ascii.isDigit)
  let value : Int := if negative then -(n : Int) else n
  if -9223372036854775808 ≤ value ∧ value ≤ 9223372036854775807 then some value else none

/-- The number at the start of a sequence, after blanks and a sign. What follows it is left
unread. -/
def integer? (s : Bytes) : Option Int :=
  match s.dropWhile isBlank with
  | Ascii.minus :: digits => signed? true digits
  | Ascii.plus :: digits => signed? false digits
  | digits => signed? false digits

/-! ### Signatures -/

/-- Who did something, and when, in seconds from the start of 1970. -/
structure Signature where
  name : Bytes
  email : Bytes
  time : Int
deriving DecidableEq

namespace Signature

/-- Bytes that are cut off from both ends of a name and an address: control characters, spaces and
punctuation. -/
def isCrud (b : UInt8) : Bool :=
  b ≤ Ascii.space || (Ascii.bytes ".,:;<>\"\\'").contains b

/-- A name or an address without what surrounds it. -/
def trim (s : Bytes) : Bytes := ((s.dropWhile isCrud).reverse.dropWhile isCrud).reverse

/-- Whether bytes can be written as a name or an address. -/
def isWritable (s : Bytes) : Bool :=
  !s.contains Ascii.less && !s.contains Ascii.greater && !s.contains 0 && trim s != []

/-- A signature to be written; none if the name or the address holds an angle bracket or nothing
that is kept. -/
def new? (name email : String) (time : Int) : Option Signature :=
  let name := Ascii.bytes name
  let email := Ascii.bytes email
  if isWritable name && isWritable email then some ⟨trim name, trim email, time⟩ else none

/-- A time zone, from minutes east of Greenwich. -/
def zone (minutes : Int) : String :=
  let m := minutes.natAbs
  let two := fun n : Nat => if n < 10 then "0" ++ Nat.repr n else Nat.repr n
  (if minutes < 0 then "-" else "+") ++ two (m / 60) ++ two (m % 60)

/-- The text of a signature in a time zone. -/
def encode (s : Signature) (minutes : Int) : Bytes :=
  s.name ++ Ascii.bytes " <" ++ s.email ++
    Ascii.bytes ("> " ++ toString s.time ++ " " ++ zone minutes)

/-- The time that stands after an address: one byte is passed over, and nothing after it means the
start of 1970. -/
def time? (tail : Bytes) : Option Int :=
  match tail.drop 1 with
  | [] => some 0
  | stamp => integer? stamp

/-- Reads a signature. The address stands between the last angle bracket of each kind. -/
def read? (s : Bytes) : Option Signature := do
  let (front, tail) ← splitLast Ascii.greater s
  if tail.contains Ascii.less then none
  else
    let (name, email) ← splitLast Ascii.less front
    return ⟨untilZero (trim name), untilZero (trim email), ← time? tail⟩

end Signature

/-- Reads a line of a field with a signature. -/
def signatureLine? (field : String) (s : Bytes) : Option (Signature × Bytes) :=
  let line := s.takeWhile (· != Ascii.newline)
  match s.drop line.length with
  | [] => none
  | _ :: rest =>
    (after? (Ascii.bytes field) line).bind fun value =>
      (Signature.read? value).map fun signature => (signature, rest)

theorem length_signatureLine? {field : String} {s rest : Bytes} {signature : Signature}
    (h : signatureLine? field s = some (signature, rest)) : rest.length < s.length := by
  unfold signatureLine? at h
  simp only at h
  split at h
  · exact absurd h (by simp)
  · rename_i b tail hd
    obtain ⟨value, _, h⟩ := Option.bind_eq_some_iff.1 h
    obtain ⟨read, _, h⟩ := Option.map_eq_some_iff.1 h
    have hrest : tail = rest := (Prod.mk.inj h).2
    have := congrArg List.length hd
    rw [List.length_drop, List.length_cons] at this
    rw [← hrest]
    omega

end ReleaseRecovery.Git
