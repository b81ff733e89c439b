/-!
# Paths

The parts of a path that matter for choosing the name of a temporary file beside a file, and how
long a path and a name in it can be.

## Main Definitions

* `Path.parts` — the parts of a path between its slashes
* `Path.maxName`, `Path.maxLength` — the longest names and paths
* `Path.fileName?` — the name at the end of a path
* `Path.stem`, `Path.extension?` — the parts of a name before and after its last dot
* `Path.withExtension` — the path with another extension

## Design Notes

A slash at the end, or a `.` after it, does not change what a path names. A name that begins with
its only dot has no extension, and `..` is no name. The old extension is taken away before the new
one is put on; if what is left ends in `..`, no name is left to put it on, and the path then names
a directory.
-/

namespace ReleaseRecovery.Path

/-- The parts of a path, between its slashes. -/
def parts (path : String) : List String := (path.toList.splitOn '/').map String.ofList

/-- The most bytes that a name in a directory can have. -/
def maxName : Nat := 255

/-- The most bytes that a path can have. -/
def maxLength : Nat := 4095

/-- A path, last character first, without the slashes and the `/.` at its end. -/
def trimEnd : List Char → List Char
  | '/' :: rest => trimEnd rest
  | '.' :: '/' :: rest => trimEnd rest
  | cs => cs

/-- The name at the end of a path, if it ends in one. -/
def fileName? (path : String) : Option String :=
  let name := ((trimEnd path.toList.reverse).takeWhile (· != '/')).reverse
  if name = [] ∨ name = ['.'] ∨ name = ['.', '.'] then none else some (String.ofList name)

/-- The parts of a name before and after its last dot, if it has one after its first
character. -/
def splitName? (name : String) : Option (String × String) :=
  let reversed := name.toList.reverse
  let extension := reversed.takeWhile (· != '.')
  match reversed.dropWhile (· != '.') with
  | '.' :: c :: stem => some (String.ofList (c :: stem).reverse, String.ofList extension.reverse)
  | _ => none

/-- The part of a name before its last dot. -/
def stem (name : String) : String := ((splitName? name).map Prod.fst).getD name

/-- The part of a name after its last dot. -/
def extension? (name : String) : Option String := (splitName? name).map Prod.snd

/-- The path with the part after the last dot of its name, and all that follows the name, replaced;
a path that ends in no name is left as it is. -/
def setExtension (path extension : String) : String :=
  match fileName? path with
  | none => path
  | some name =>
    let directory := ((trimEnd path.toList.reverse).dropWhile (· != '/')).reverse
    String.ofList directory ++ stem name ++ "." ++ extension

/-- The path with another extension. -/
def withExtension (path extension : String) : String :=
  match (fileName? path).bind extension? with
  | none => setExtension path extension
  | some old =>
    setExtension (String.ofList (path.toList.take (path.length - old.length))) extension

end ReleaseRecovery.Path
