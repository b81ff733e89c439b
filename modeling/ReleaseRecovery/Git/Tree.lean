import ReleaseRecovery.Git.Object
import ReleaseRecovery.Git.Signature
import ReleaseRecovery.Repository

/-!
# Directories and notes

A directory is a list of entries: a mode, a name and an id each. A note names another object.

## Main Definitions

* `Git.TreeEntry`, `Git.TreeEntry.encodeAll`, `Git.TreeEntry.decodeAll?` — directories
* `Git.TreeEntry.answer?` — an entry as the rest of the library sees it
* `Git.Note`, `Git.Note.encode`, `Git.Note.decode?` — notes

## Design Notes

Names are bytes. They are shown as text with U+FFFD for what is no text, so two names can be shown
alike.
-/

namespace ReleaseRecovery.Git

/-- One entry of a directory. -/
structure TreeEntry where
  /-- The kind of the entry and the rights to it. -/
  mode : Nat
  name : Bytes
  id : Id
deriving DecidableEq

namespace TreeEntry

/-- Whether an entry is a directory. -/
def isTree (e : TreeEntry) : Bool := e.mode / 0o10000 == 0o4

/-- Whether an entry is a commit of another repository. -/
def isForeign (e : TreeEntry) : Bool := e.mode / 0o10000 == 0o16

/-- An entry as the rest of the library sees it. Commits of other repositories are left out, and all
that is no directory counts as a file. -/
def answer? (e : TreeEntry) : Option Entry :=
  if e.isForeign then none
  else some ⟨if e.isTree then .tree else .blob, Utf8.decodeLossy e.name, e.id.hex⟩

/-! ### Writing -/

/-- What entries are ordered by: their names, those of directories with a slash at the end. -/
def key (e : TreeEntry) : Bytes := if e.isTree then e.name ++ [Ascii.slash] else e.name

/-- The octal digits of a number. -/
def octal (n : Nat) : Bytes := Ascii.bytes (String.ofList (Nat.toDigits 8 n))

/-- The bytes of an entry. -/
def encode (e : TreeEntry) : Bytes :=
  octal e.mode ++ Ascii.space :: e.name ++ 0 :: e.id.bytes

/-- The content of a directory. -/
def encodeAll (entries : List TreeEntry) : Bytes :=
  (entries.mergeSort fun a b => !decide (b.key < a.key)).flatMap encode

/-! ### Reading -/

/-- The number that octal digits stand for, if it fits into sixteen bits. -/
def mode? (digits : Bytes) : Option Nat :=
  if digits ≠ [] ∧ digits.all fun b => Ascii.zero ≤ b && b ≤ 0x37 then
    let n := digits.foldl (fun n b => 8 * n + (b.toNat - 48)) 0
    if n < UInt16.size then some n else none
  else none

/-- Reads one entry. -/
def decode? (s : Bytes) : Option (TreeEntry × Bytes) :=
  let digits := s.takeWhile (· != Ascii.space)
  (mode? digits).bind fun mode =>
    let s := s.drop (digits.length + 1)
    let name := untilZero s
    if name.length = 0 ∨ UInt16.size ≤ name.length then none
    else (Id.take? (s.drop (name.length + 1))).map fun r => (⟨mode, name, r.1⟩, r.2)

theorem length_decode? {s rest : Bytes} {e : TreeEntry} (h : decode? s = some (e, rest)) :
    rest.length < s.length := by
  unfold decode? at h
  obtain ⟨mode, _, h⟩ := Option.bind_eq_some_iff.1 h
  simp only at h
  split at h
  · exact absurd h (by simp)
  · obtain ⟨r, hr, h⟩ := Option.map_eq_some_iff.1 h
    unfold Id.take? at hr
    split at hr
    · rename_i hlong
      have hrest : r.2 = rest := (Prod.mk.inj h).2
      have hdrop := congrArg Prod.snd (Option.some.inj hr)
      simp only at hdrop
      rw [← hrest, ← hdrop]
      simp only [List.length_drop] at hlong ⊢
      omega
    · exact absurd hr (by simp)

/-- Reads a directory. -/
def decodeAll? (s : Bytes) : Option (List TreeEntry) :=
  if s = [] then some []
  else
    match _h : decode? s with
    | none => none
    | some (e, rest) => (decodeAll? rest).map (e :: ·)
termination_by s.length
decreasing_by exact length_decode? _h

end TreeEntry

/-! ### Notes -/

/-- What a note names. -/
structure Note where
  target : Id
  kind : ObjectKind
deriving DecidableEq

namespace Note

/-- The content of a note with a name and a message, signed in a time zone. -/
def encode (n : Note) (name : String) (signature : Signature) (minutes : Int) (message : Bytes) :
    Bytes :=
  Ascii.bytes "object " ++ n.target.digits ++
    Ascii.bytes ("\ntype " ++ n.kind.text ++ "\ntag " ++ name ++ "\ntagger ") ++
    signature.encode minutes ++ Ascii.newline :: Ascii.newline :: message

/-- The kind that a line names. -/
def kind? (s : Bytes) : Option ObjectKind :=
  [ObjectKind.commit, .tree, .blob, .tag].find? fun k =>
    (Ascii.bytes ("type " ++ k.text ++ "\ntag ")).isPrefixOf s

/-- Reads what a note names. -/
def decode? (s : Bytes) : Option Note := do
  let (target, s) ← idLine? "object " s
  return ⟨target, ← kind? s⟩

end Note

end ReleaseRecovery.Git
