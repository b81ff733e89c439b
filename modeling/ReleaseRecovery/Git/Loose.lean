import ReleaseRecovery.Git.Log
import ReleaseRecovery.Git.Zlib

/-!
# Files of a repository

How objects and refs are kept in files: one file for each object and each ref, and lists of refs
that need no file each.

## Main Definitions

* `Loose.path`, `Loose.encode`, `Loose.decode?` — objects
* `RefTarget.encode`, `RefTarget.decode?` — refs that have a file
* `RefList.decode`, `RefList.line` — lists of refs
* `Object.leadsTo` — the objects that a search for installs goes on to
-/

namespace ReleaseRecovery.Git

/-! ### Objects -/

namespace Loose

/-- The path of the file of an object. -/
def path (id : Id) : String := Store.objectPath id.hex

/-- The file of an object. -/
def encode (o : Object) : Bytes := Zlib.wrap o.named

/-- The kind that a word stands for. -/
def kind? (word : Bytes) : Option ObjectKind :=
  [ObjectKind.blob, .tree, .commit, .tag].find? fun k => Ascii.bytes k.text = word

/-- Reads the file of an object. -/
def decode? (s : Bytes) : Option Object := do
  let text ← Zlib.expand? s
  let kind ← kind? (text.takeWhile (· != Ascii.space))
  return ⟨kind, (text.dropWhile (· != 0)).drop 1⟩

end Loose

/-- The objects that an object names, files and commits of other repositories apart. -/
def Object.leadsTo (o : Object) : List Id :=
  match o.kind with
  | .blob => []
  | .tree =>
    (((TreeEntry.decodeAll? o.content).getD []).filter TreeEntry.isTree).map TreeEntry.id
  | .commit =>
    match Commit.decode? o.content with
    | some c => c.tree :: c.parents
    | none => []
  | .tag => ((Note.decode? o.content).map Note.target).toList

/-! ### Refs -/

/-- The file of a ref. -/
def RefTarget.encode : RefTarget → Bytes
  | .object id => id.digits ++ [Ascii.newline]
  | .ref name => Ascii.bytes ("ref: " ++ name ++ "\n")

/-- A text without the blanks at its end. -/
def trimEnd (s : Bytes) : Bytes := (s.reverse.dropWhile isBlank).reverse

/-- Reads the file of a ref. -/
def RefTarget.decode? (s : Bytes) : Option RefTarget :=
  let s := trimEnd s
  match after? (Ascii.bytes "ref: ") s with
  | some name => some (.ref (Utf8.decodeLossy name))
  | none => (Id.ofDigits? s).map .object

namespace RefList

/-- Reads a line of a list: an id, a blank and a name. Other lines name no ref. -/
def entry? (line : List Char) : Option (String × Id) := do
  let id ← Id.ofText? (String.ofList (line.takeWhile fun c => c != ' ' && c != '\t'))
  let name ← RefName.normal? (String.ofList (line.drop 41))
  return (name, id)

/-- The refs of a list. -/
def decode (s : Bytes) : List (String × Id) :=
  ((Utf8.decodeLossy s).toList.splitOn '\n').filterMap entry?

/-- A line of a list. -/
def line (name : String) (id : Id) : Bytes := Ascii.bytes (id.hex ++ "\t" ++ name ++ "\n")

end RefList

end ReleaseRecovery.Git
