import ReleaseRecovery.Files.Path
import ReleaseRecovery.Text.Utf8

/-!
# Names of refs

A ref is known by its full name, a path such as `refs/heads/main`. In commands it is called by a
short name.

## Main Definitions

* `RefName.normal?` — the form that a full name is kept in; none if it cannot be the name of a ref
* `RefName.isValid`, `RefName.fits` — names in that form, and those that can be looked for
* `RefName.short` — the short name that a ref is listed under
* `RefName.candidates` — the full names that a short name can stand for
* `RefName.directories`, `RefName.reach` — the way to the place of a name
-/

namespace ReleaseRecovery.Git.RefName

/-! ### Full names -/

/-- Whether a character can stand in the name of a ref. -/
def isAllowed (c : Char) : Bool := ' ' < c && !"~^:?*[\\".toList.contains c

/-- Whether one character follows another somewhere in a list. -/
def hasPair (a b : Char) (cs : List Char) : Bool := (cs.zip (cs.drop 1)).contains (a, b)

/-- Whether a list of characters can stand between two slashes. -/
def isSegment (cs : List Char) : Bool :=
  cs.head? != some '.' && cs.all isAllowed && !hasPair '.' '.' cs && !hasPair '@' '{' cs &&
    !".lock".toList.isSuffixOf cs

/-- Whether a name is written like `HEAD`: in capital letters, with underscores only between them.
Such names stand alone and are never the first part of a path. -/
def isCapital (cs : List Char) : Bool :=
  cs != [] && cs.all (fun c => ('A' ≤ c && c ≤ 'Z') || c == '_') && cs.head? != some '_' &&
    cs.getLast? != some '_'

/-- The form that a name is kept in: repeated slashes count as one. A name that no ref can have is
refused. -/
def normal? (name : String) : Option String :=
  let cs := name.toList
  let segments := cs.splitOn '/'
  let parts := segments.filter (· != [])
  if cs.head? ≠ some '/' ∧ cs.getLast? ≠ some '/' ∧ cs.getLast? ≠ some '.' ∧
      segments.all isSegment ∧ parts ≠ [] ∧
      (parts.head?.any isCapital ↔ parts.length = 1) then
    some ("/".intercalate (parts.map String.ofList))
  else none

/-- Whether a name is the full name of a ref. -/
def isValid (name : String) : Bool := normal? name == some name

/-- Whether a name is short enough to be looked for: it has less than 1024 bytes. -/
def fits (name : String) : Bool := name.utf8ByteSize < 1024

/-! ### Short names -/

/-- The rest of a name that begins with the given text. -/
def after? (start name : String) : Option String :=
  if start.toList.isPrefixOf name.toList then
    some (String.ofList (name.toList.drop start.toList.length))
  else none

/-- The name that a ref is listed under. -/
def short (name : String) : String :=
  (["refs/heads/", "refs/tags/", "refs/remotes/", "refs/"].findSome? (after? · name)).getD name

/-- The full names that a short name can stand for, the first one that is there counting. -/
def candidates (name : String) : List String :=
  if name = "" then ["HEAD"]
  else
    [name, "refs/" ++ name, "refs/tags/" ++ name, "refs/heads/" ++ name, "refs/remotes/" ++ name,
      "refs/remotes/" ++ name ++ "/HEAD"]

/-! ### Paths -/

/-- Whether a file or a directory can have a name. -/
def isShort (part : String) : Bool := part.utf8ByteSize ≤ Path.maxName

/-- The first parts of a list, in every number but none and all. -/
def beginnings {α : Type} : List α → List (List α)
  | [] => []
  | [_] => []
  | a :: b :: rest => [a] :: (beginnings (b :: rest)).map (a :: ·)

/-- The directories on the way to a path, from the top down. -/
def directories (path : String) : List String := (beginnings (Path.parts path)).map "/".intercalate

/-- The last directory on the way to a path that there can be: the one before the first part that
is too long. -/
def reach (path : String) : String := "/".intercalate ((Path.parts path).dropLast.takeWhile isShort)

/-- Whether a ref can have a file at a path. The file is written beside its place first, under a
name that is five bytes longer. -/
def canBeWritten (path : String) : Bool :=
  (Path.parts path).all isShort &&
    (Path.parts path).getLast?.all fun part => part.utf8ByteSize + 5 ≤ Path.maxName

/-- Whether a path leads through a directory. -/
def isBelow (directory path : String) : Bool :=
  (directory.toList ++ ['/']).isPrefixOf path.toList

end ReleaseRecovery.Git.RefName
