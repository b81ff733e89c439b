import ReleaseRecovery.Json.Number
import ReleaseRecovery.Json.Text

/-!
# JSON values, as far as they could be read

A JSON text is read into a value before anyone asks what it means. Where the text breaks off or goes
wrong, the value is cut at that place, and the problem stands where the rest would have been.

## Main Definitions

* `Json.Value`, `Json.Items`, `Json.Members` — values, and what stands between brackets
* `Json.Value.skip` — the first place where a value is cut
* `Json.Value.hold` — the same for a value that has to be kept in memory
* `Json.Value.render` — the text of a value, compact or indented

## Design Notes

Strings are kept as they are written, so that rendering a value only adds brackets and separators,
and so that the meaning of a string is looked at only when it is wanted. Whoever decodes a value
walks it in the order of the text; the first problem met is then the first one in the text.
-/

namespace ReleaseRecovery.Json

open Ascii

mutual

/-- A value of a JSON text. -/
inductive Value
  | null
  | bool (value : Bool)
  /-- A number, as it is written. -/
  | number (literal : Bytes)
  /-- A string, as it is written, from its opening quotation mark on up to the closing one. -/
  | string (raw : Bytes)
  /-- A string that is not closed, with everything that was read of it. -/
  | openString (raw : Bytes) (problem : Problem)
  /-- A number that stops where more of it has to follow. -/
  | openNumber (problem : Problem)
  | array (items : Items)
  | object (members : Members)
  /-- No value could be read. -/
  | broken (problem : Problem)

/-- What stands between square brackets. -/
inductive Items
  | closed
  | cut (problem : Problem)
  | cons (item : Value) (rest : Items)

/-- What stands between curly brackets. A key is kept as it is written. -/
inductive Members
  | closed
  | cut (problem : Problem)
  | cons (key : Bytes) (value : Value) (rest : Members)

end

namespace Items

/-- A closed array of values. -/
def ofList : List Value → Items
  | [] => .closed
  | t :: ts => .cons t (ofList ts)

/-- Puts values, the last of them first, in front of others. -/
def prepend (done : List Value) (rest : Items) : Items :=
  done.foldl (fun rest t => .cons t rest) rest

end Items

namespace Members

/-- A closed object with the given keys and values. -/
def ofList : List (Bytes × Value) → Members
  | [] => .closed
  | (k, t) :: ms => .cons k t (ofList ms)

/-- Puts members, the last of them first, in front of others. -/
def prepend (done : List (Bytes × Value)) (rest : Members) : Members :=
  done.foldl (fun rest m => .cons m.1 m.2 rest) rest

end Members

namespace Value

instance : Inhabited Value := ⟨.null⟩

/-- The JSON value of a string. -/
def ofString (s : String) : Value := .string (encodeText s)

/-- The JSON value of a natural number. -/
def ofNat (n : Nat) : Value := .number (bytes (Nat.repr n))

/-- The JSON value of a string that may be missing. -/
def ofString? : Option String → Value
  | some s => ofString s
  | none => .null

/-- The JSON value of a list of values. -/
def ofItems (items : List Value) : Value := .array (Items.ofList items)

/-- The JSON value of a record with the given fields. -/
def ofFields (fields : List (String × Value)) : Value :=
  .object (Members.ofList (fields.map fun f => (encodeText f.1, f.2)))

end Value

/-! ### Problems in the order of the text -/

mutual

/-- The first place at which a value is cut. Strings and numbers need no meaning; a number that is
not complete is malformed, even where the text ends. -/
def Value.skip : Value → Except Problem Unit
  | .openString _ p => .error p
  | .openNumber _ => .error .malformed
  | .broken p => .error p
  | .array items => items.skip
  | .object members => members.skip
  | .null | .bool _ | .number _ | .string _ => .ok ()

/-- The first place at which a list of values is cut. -/
def Items.skip : Items → Except Problem Unit
  | .closed => .ok ()
  | .cut p => .error p
  | .cons t rest =>
    match t.skip with
    | .ok _ => rest.skip
    | .error p => .error p

/-- The first place at which a list of members is cut. -/
def Members.skip : Members → Except Problem Unit
  | .closed => .ok ()
  | .cut p => .error p
  | .cons _ t rest =>
    match t.skip with
    | .ok _ => rest.skip
    | .error p => .error p

end

/-- A number that is out of range is malformed. -/
def checkNumber (literal : Bytes) : Except Problem Unit :=
  if isRepresentable literal then .ok () else .error .malformed

mutual

/-- The first problem of a value that is held in memory: its strings need a meaning, its numbers
have to be in range, and at most `room` brackets may be open at a time. -/
def Value.hold (room : Nat) : Value → Except Problem Unit
  | .null | .bool _ => .ok ()
  | .broken p | .openNumber p => .error p
  | .number literal => checkNumber literal
  | .string raw => (decodeText raw).map fun _ => ()
  | .openString raw _ => (decodeText raw).map fun _ => ()
  | .array items =>
    match room with
    | 0 => .error .malformed
    | room + 1 => items.hold room
  | .object members =>
    match room with
    | 0 => .error .malformed
    | room + 1 => members.hold room

/-- The first problem of a list of values that is held in memory. -/
def Items.hold (room : Nat) : Items → Except Problem Unit
  | .closed => .ok ()
  | .cut p => .error p
  | .cons t rest =>
    match t.hold room with
    | .ok _ => rest.hold room
    | .error p => .error p

/-- The first problem of a list of members that is held in memory. -/
def Members.hold (room : Nat) : Members → Except Problem Unit
  | .closed => .ok ()
  | .cut p => .error p
  | .cons k t rest =>
    match decodeText k with
    | .error p => .error p
    | .ok _ =>
      match t.hold room with
      | .ok _ => rest.hold room
      | .error p => .error p

end

/-! ### Rendering -/

/-- How the parts of a text are set apart. -/
inductive Layout
  /-- Without any blanks. -/
  | compact
  /-- One item to a line, each level two spaces further in. -/
  | indented
deriving DecidableEq

/-- The line break in front of an item at some depth. -/
def Layout.lineBreak : Layout → Nat → Bytes
  | .compact, _ => []
  | .indented, depth => newline :: List.replicate (2 * depth) space

/-- The mark between a key and its value. -/
def Layout.keyMark : Layout → Bytes
  | .compact => [colon]
  | .indented => [colon, space]

mutual

/-- The text of a value whose first line stands at some depth. A place at which the value is cut
has no text. -/
def Value.render (layout : Layout) (depth : Nat) : Value → Bytes
  | .null => bytes "null"
  | .bool true => bytes "true"
  | .bool false => bytes "false"
  | .number literal => literal
  | .string raw => quote :: raw
  | .openString raw _ => quote :: raw
  | .array .closed => [openBracket, closeBracket]
  | .array items => openBracket :: items.render layout depth true
  | .object .closed => [openBrace, closeBrace]
  | .object members => openBrace :: members.render layout depth true
  | .broken _ | .openNumber _ => []

/-- The text of the items of an array that stands at some depth, and of its closing bracket. -/
def Items.render (layout : Layout) (depth : Nat) (isFirst : Bool) : Items → Bytes
  | .closed => layout.lineBreak depth ++ [closeBracket]
  | .cut _ => []
  | .cons t rest =>
    (if isFirst then [] else [comma]) ++ layout.lineBreak (depth + 1) ++ t.render layout (depth + 1)
      ++ rest.render layout depth false

/-- The text of the members of an object that stands at some depth, and of its closing bracket. -/
def Members.render (layout : Layout) (depth : Nat) (isFirst : Bool) : Members → Bytes
  | .closed => layout.lineBreak depth ++ [closeBrace]
  | .cut _ => []
  | .cons k t rest =>
    (if isFirst then [] else [comma]) ++ layout.lineBreak (depth + 1) ++ quote :: k
      ++ layout.keyMark ++ t.render layout (depth + 1) ++ rest.render layout depth false

end

end ReleaseRecovery.Json
