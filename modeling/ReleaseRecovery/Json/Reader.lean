import ReleaseRecovery.Json.Value

/-!
# Reading JSON texts

The reader takes a text byte by byte. What it has seen so far is a `State`: the value in hand and
the brackets that are still open around it. A text that stops, or goes wrong, in some state still
gives a value, cut at that place.

## Main Definitions

* `Json.Frame` — an open bracket and what stands in it so far
* `Json.State`, `Json.State.step` — the reader and what one byte does to it
* `Json.State.stop` — the value of a text that goes no further
* `Json.read` — reading a whole text

## Design Notes

`read` is a fold of `step`, so what a reader makes of the beginning of a text does not depend on
the rest of it, and reading a text in two parts is reading the first and going on from there.
-/

namespace ReleaseRecovery.Json

open Ascii

/-- An open bracket with the values in it so far, the last one first. In an object the value under
`key` is being read. -/
inductive Frame
  | array (items : List Value)
  | object (members : List (Bytes × Value)) (key : Bytes)

/-- How far an escape inside a string has come. -/
inductive Escape
  /-- No escape is open. -/
  | plain
  /-- A backslash has been read. -/
  | mark
  /-- Some digits of a number have been read, the last one first. -/
  | digits (read : Bytes)

/-- What a text held: its value, and whether something follows that value. -/
structure Reading where
  value : Value
  trailing : Option Problem

/-- What the reader is in the middle of. `outer` are the open brackets, the innermost first, and
`raw` and `literal` hold what has been read of a string or a number, the last byte first. -/
inductive State
  /-- A value has to follow. -/
  | value (outer : List Frame)
  /-- A value or a closing bracket has to follow. -/
  | firstItem (outer : List Frame)
  /-- A key has to follow. -/
  | key (members : List (Bytes × Value)) (outer : List Frame)
  /-- A key or a closing bracket has to follow. -/
  | firstKey (outer : List Frame)
  /-- Inside a key. -/
  | keyText (raw : Bytes) (escape : Escape) (members : List (Bytes × Value)) (outer : List Frame)
  /-- A colon has to follow. -/
  | colon (key : Bytes) (members : List (Bytes × Value)) (outer : List Frame)
  /-- Inside a string. -/
  | text (raw : Bytes) (escape : Escape) (outer : List Frame)
  /-- Inside a number. -/
  | number (form : NumberForm) (literal : Bytes) (outer : List Frame)
  /-- Inside one of the words, of which `due` is still to come. -/
  | word (due : Bytes) (value : Value) (outer : List Frame)
  /-- After a value. -/
  | after (value : Value) (outer : List Frame)
  /-- The text has gone wrong. -/
  | stopped (reading : Reading)

/-- Whether a byte is blank between the parts of a text. -/
def isBlank (b : UInt8) : Bool :=
  b == space || b == newline || b == carriageReturn || b == tab

/-! ### Texts that go no further -/

/-- A bracket that is not closed, around the last value in it. -/
def Frame.cut (p : Problem) (value : Value) : Frame → Value
  | .array items => .array (Items.prepend items (.cons value (.cut p)))
  | .object members key => .object (Members.prepend members (.cons key value (.cut p)))

/-- Brackets that are not closed, around the last value in the innermost one. -/
def cutAll (p : Problem) (value : Value) (outer : List Frame) : Value :=
  outer.foldl (fun t f => f.cut p t) value

namespace State

/-- The number in hand as a value, if it may end here. -/
def settle : State → State
  | number form literal outer =>
    if form.isComplete then after (.number literal.reverse) outer else number form literal outer
  | s => s

/-- What a text holds that goes no further than this state, for the given cause. -/
def stop (p : Problem) : State → Reading
  | value outer => ⟨cutAll p (.broken p) outer, none⟩
  | firstItem outer => ⟨cutAll p (.array (.cut p)) outer, none⟩
  | key members outer => ⟨cutAll p (.object (Members.prepend members (.cut p))) outer, none⟩
  | firstKey outer => ⟨cutAll p (.object (.cut p)) outer, none⟩
  | keyText raw _ members outer =>
    ⟨cutAll p (.object (Members.prepend members (.cons raw.reverse (.broken p) (.cut p)))) outer,
      none⟩
  | colon k members outer =>
    ⟨cutAll p (.object (Members.prepend members (.cons k (.broken p) (.cut p)))) outer, none⟩
  | text raw _ outer => ⟨cutAll p (.openString raw.reverse p) outer, none⟩
  | number _ _ outer => ⟨cutAll p (.openNumber p) outer, none⟩
  | word _ _ outer => ⟨cutAll p (.broken p) outer, none⟩
  | after v [] => ⟨v, some p⟩
  | after v outer => ⟨cutAll p v outer, none⟩
  | stopped reading => reading

/-- The state of a text that cannot go on from here. -/
def fail (s : State) : State := stopped (s.stop .malformed)

/-- What a text holds that ends in this state. -/
def finish (s : State) : Reading :=
  match s.settle with
  | after v [] => ⟨v, none⟩
  | s => s.stop .endOfText

/-! ### One byte -/

/-- What a byte inside a string does to it. -/
inductive TextStep
  | goesOn (escape : Escape)
  | closes
  | breaks

/-- What a byte inside a string does to it. The digits of a number are looked at together. -/
def textStep (escape : Escape) (b : UInt8) : TextStep :=
  match escape with
  | .plain =>
    if b = quote then .closes
    else if b = backslash then .goesOn .mark
    else if b < space then .breaks
    else .goesOn .plain
  | .mark =>
    if b = 0x75 then .goesOn (.digits [])
    else if (escaped? b).isSome then .goesOn .plain
    else .breaks
  | .digits [c, b', a] => if (hexNumber? a b' c b).isSome then .goesOn .plain else .breaks
  | .digits read => .goesOn (.digits (b :: read))

/-- The state after the first byte of a value; `none` if no value starts with it. -/
def startValue? (outer : List Frame) (b : UInt8) : Option State :=
  if b = openBrace then some (firstKey outer)
  else if b = openBracket then some (firstItem outer)
  else if b = quote then some (text [] .plain outer)
  else if b = 0x6E then some (word (bytes "ull") .null outer)
  else if b = 0x74 then some (word (bytes "rue") (.bool true) outer)
  else if b = 0x66 then some (word (bytes "alse") (.bool false) outer)
  else (NumberForm.start? b).map fun form => number form [b] outer

/-- What a byte after a value does. -/
def stepAfter (v : Value) (outer : List Frame) (b : UInt8) : State :=
  if isBlank b then after v outer
  else
    match outer with
    | [] => fail (after v [])
    | .array items :: outer' =>
      if b = comma then value (.array (v :: items) :: outer')
      else if b = closeBracket then after (.array (Items.prepend (v :: items) .closed)) outer'
      else fail (after v outer)
    | .object members k :: outer' =>
      if b = comma then key ((k, v) :: members) outer'
      else if b = closeBrace then
        after (.object (Members.prepend ((k, v) :: members) .closed)) outer'
      else fail (after v outer)

/-- What one byte does to the reader. -/
def step (s : State) (b : UInt8) : State :=
  match s with
  | value outer => if isBlank b then s else (startValue? outer b).getD s.fail
  | firstItem outer =>
    if isBlank b then s
    else if b = closeBracket then after (.array .closed) outer
    else (startValue? (.array [] :: outer) b).getD s.fail
  | firstKey outer =>
    if isBlank b then s
    else if b = closeBrace then after (.object .closed) outer
    else if b = quote then keyText [] .plain [] outer
    else s.fail
  | key members outer =>
    if isBlank b then s
    else if b = quote then keyText [] .plain members outer
    else s.fail
  | keyText raw escape members outer =>
    match textStep escape b with
    | .goesOn escape => keyText (b :: raw) escape members outer
    | .closes => colon (b :: raw).reverse members outer
    | .breaks => (keyText (b :: raw) escape members outer).fail
  | colon k members outer =>
    if isBlank b then s
    else if b = Ascii.colon then value (.object members k :: outer)
    else s.fail
  | text raw escape outer =>
    match textStep escape b with
    | .goesOn escape => text (b :: raw) escape outer
    | .closes => after (.string (b :: raw).reverse) outer
    | .breaks => (text (b :: raw) escape outer).fail
  | number form literal outer =>
    match form.next b with
    | .goesOn form => number form (b :: literal) outer
    | .ends => stepAfter (.number literal.reverse) outer b
    | .broken => s.fail
  | word due v outer =>
    match due with
    | [] => stepAfter v outer b
    | [d] => if b = d then after v outer else s.fail
    | d :: due => if b = d then word due v outer else s.fail
  | after v outer => stepAfter v outer b
  | stopped _ => s

end State

/-- What a text holds. -/
def read (text : Bytes) : Reading := (text.foldl State.step (.value [])).finish

end ReleaseRecovery.Json
