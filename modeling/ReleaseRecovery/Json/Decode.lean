import ReleaseRecovery.Json.Reader
import ReleaseRecovery.SortedMap

/-!
# Values from JSON values

How strings, lists, maps and records are taken from a value, in the order of the text.

## Main Definitions

* `Json.Value.mismatch` — the problem with a value where a value of another kind is wanted
* `Json.Value.text`, `Json.Value.text?`, `Json.Value.list`, `Json.Value.map` — simple values
* `Json.Members.walk` — the fields of a record in any order
* `Json.Items.next`, `Json.Items.finish` — the fields of a record that is written as an array
* `Json.decode` — a whole text

## Design Notes

A record is written as an object, but an array of its fields in their order is read as well. In an
object unknown fields are ignored, and a field that comes twice is refused as soon as its key has
been read. In a map the last value of a key counts.
-/

namespace ReleaseRecovery.Json

/-- The problem with a value where a value of another kind is wanted. Strings and numbers are read
in full before their kind is found wrong. -/
def Value.mismatch : Value → Problem
  | .broken p | .openNumber p => p
  | .number literal => if isRepresentable literal then .mismatch else .malformed
  | .string raw | .openString raw _ =>
    match decodeText raw with
    | .ok _ => .mismatch
    | .error p => p
  | .null | .bool _ | .array _ | .object _ => .mismatch

/-- The string that a value stands for. -/
def Value.text : Value → Except Problem String
  | .string raw | .openString raw _ => decodeText raw
  | t => .error t.mismatch

/-- The string that a value stands for, or none for `null`. -/
def Value.text? : Value → Except Problem (Option String)
  | .null => .ok none
  | t => t.text.map some

variable {α σ : Type}

/-- The values of an array. -/
def Items.decode (item : Value → Except Problem α) : Items → Except Problem (List α)
  | .closed => .ok []
  | .cut p => .error p
  | .cons t rest => do
    let a ← item t
    let as ← rest.decode item
    return a :: as

/-- The list that a value stands for. -/
def Value.list (item : Value → Except Problem α) : Value → Except Problem (List α)
  | .array items => items.decode item
  | t => .error t.mismatch

/-- Follows the members of an object. Each key is read before its value is looked at. -/
def Members.walk (member : σ → String → Value → Except Problem σ) :
    σ → Members → Except Problem σ
  | s, .closed => .ok s
  | _, .cut p => .error p
  | s, .cons k t rest => do
    let key ← decodeText k
    let s ← member s key t
    rest.walk member s

/-- The map that a value stands for. -/
def Value.map (value : Value → Except Problem α) : Value → Except Problem (SortedMap α)
  | .object members =>
    members.walk (fun m key t => (value t).map (m.insert key)) SortedMap.empty
  | t => .error t.mismatch

/-! ### Records -/

/-- The value of a field that may be given once. -/
def once (field : Option α) (value : Except Problem α) : Except Problem (Option α) :=
  match field with
  | none => value.map some
  | some _ => .error .mismatch

/-- The value of a field that has to be given. -/
def required (field : Option α) : Except Problem α :=
  match field with
  | some a => .ok a
  | none => .error .mismatch

/-- Takes the next field of a record that is written as an array. -/
def Items.next (value : Value → Except Problem α) : Items → Except Problem (α × Items)
  | .closed => .error .mismatch
  | .cut p => .error p
  | .cons t rest => (value t).map fun a => (a, rest)

/-- Ends a record that is written as an array. -/
def Items.finish : Items → Except Problem Unit
  | .closed => .ok ()
  | .cut p => .error p
  | .cons _ _ => .error .malformed

/-! ### Whole texts -/

/-- The number of brackets that may be open at a time in a value that is held in memory. -/
def nesting : Nat := 127

/-- The value of a text. Nothing but blanks may follow it. -/
def decode (value : Value → Except Problem α) (text : Bytes) : Except Problem α := do
  let reading := read text
  let a ← value reading.value
  match reading.trailing with
  | none => return a
  | some p => throw p

/-- The text of a value. -/
def render (layout : Layout) (t : Value) : Bytes := t.render layout 0

end ReleaseRecovery.Json
