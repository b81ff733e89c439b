import ReleaseRecovery.Text.Decimal

/-!
# Release versions

A release is named by a `v` and dot-separated numbers, such as `v2.4.1`, and releases are ordered
number by number.

## Main Definitions

* `Version` — the numbers of a release name
* `Version.text`, `Version.ofText?` — writing and reading release names
* `Version.ofSource?` — the release that a copied directory stands for

## Design Notes

Numbers are 32 bits wide, so a name with a larger number is no release name. Reading ignores
leading zeros: `v01.2` and `v1.2` are the same version.
-/

namespace ReleaseRecovery

/-- The numbers of a release, compared from the first one on. -/
structure Version where
  components : List UInt32
deriving DecidableEq

namespace Version

instance : Inhabited Version := ⟨⟨[]⟩⟩

instance : LT Version := ⟨fun a b => a.components < b.components⟩

instance : LE Version := ⟨fun a b => a.components ≤ b.components⟩

instance (a b : Version) : Decidable (a < b) :=
  inferInstanceAs (Decidable (a.components < b.components))

instance (a b : Version) : Decidable (a ≤ b) :=
  inferInstanceAs (Decidable (a.components ≤ b.components))

instance : Ord Version := ⟨fun a b => compareOfLessAndEq a b⟩

/-- The name of a release: `v` and its numbers, with dots between them. -/
def text (v : Version) : String :=
  "v" ++ ".".intercalate (v.components.map fun c => Nat.repr c.toNat)

/-- One number of a release name. -/
def component? (digits : List Char) : Option UInt32 :=
  (Decimal.value? digits).bind fun n => if n < UInt32.size then some (UInt32.ofNat n) else none

/-- A number of a release name is read back from its numeral. -/
@[simp] theorem component?_toDigits (c : UInt32) :
    component? (Nat.toDigits 10 c.toNat) = some c := by
  have h : c.toNat < UInt32.size := c.toNat_lt_size
  simp [component?, h]

/-- The numbers after the `v` of a release name. -/
def components? (name : List Char) : Option (List UInt32) :=
  (name.splitOn '.').mapM component?

/-- Reads a release name. -/
def ofText? (name : String) : Option Version :=
  match name.toList with
  | 'v' :: numbers => (components? numbers).map Version.mk
  | _ => none

/-- Versions in ascending order, each kept as often as it occurs. -/
def sort (vs : List Version) : List Version := vs.mergeSort fun a b => decide (a ≤ b)

/-! ### The version of a copied directory

A copy is known by its key: the name of the ref that holds it, followed by the path of the
directory in that ref, as in `svn/tags/v1.2/`. -/

/-- The text after the last slash, slashes at the end apart. -/
def lastSegment (key : List Char) : List Char :=
  ((key.reverse.dropWhile (· == '/')).takeWhile (· != '/')).reverse

/-- Copies whose directory does not carry their own release name: `v2.4.2` was taken from inside
the copy of `v2.4.1` and not given a name of its own. -/
def misnamed : List (String × Version) :=
  [("svn/tags/v2.4/v2.4.1/trunk/", ⟨[2, 4, 2]⟩)]

/-- The release that the copy under a key stands for: the one named by the last segment, the
misnamed copies apart. -/
def ofSource? (key : String) : Option Version :=
  match misnamed.lookup key with
  | some v => some v
  | none => ofText? (String.ofList (lastSegment key.toList))

end Version

end ReleaseRecovery
