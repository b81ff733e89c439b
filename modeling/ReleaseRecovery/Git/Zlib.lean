import ReleaseRecovery.Sha1

/-!
# Compressed data

Objects are kept compressed. Reading follows the whole format; writing uses only the blocks that
hold their data as it is.

## Main Definitions

* `Zlib.Code`, `Zlib.Code.next?` — prefix codes, and the next symbol of a sequence of bits
* `Zlib.Expansion` — the bits still to be read and the bytes read so far
* `Zlib.expand?` — the data that was compressed
* `Zlib.wrap` — data as it is kept

## Design Notes

A code is given by the lengths of its words alone: words of one length are consecutive numbers in
the order of their symbols, and follow on the words of the lengths before. Every symbol uses up at
least one bit, so the number of bits bounds the number of symbols.
-/

namespace ReleaseRecovery.Git.Zlib

/-- The bits of a sequence of bytes, the lowest bit of each byte first. -/
def bits (s : Bytes) : List Bool :=
  s.flatMap fun b => (List.range 8).map fun i => b.toNat.testBit i

/-- The number of the next `count` bits, the lowest first. -/
def number? : Nat → List Bool → Option (Nat × List Bool)
  | 0, s => some (0, s)
  | _ + 1, [] => none
  | count + 1, b :: s => do
    let (n, s) ← number? count s
    return (b.toNat + 2 * n, s)

/-! ### Codes -/

/-- A prefix code: the symbols whose words have one bit, two bits, and so on, in ascending order. -/
abbrev Code := List (List Nat)

/-- The code in which symbol `i` has a word of as many bits as entry `i` says. A symbol of length
zero has no word. -/
def Code.ofLengths (lengths : List Nat) : Code :=
  (List.range 15).map fun l =>
    (List.range lengths.length).filter fun s => lengths[s]? = some (l + 1)

/-- The symbol of the next word. `read` are the bits of the word so far, as a number, and `least` is
the least word of the length to come. -/
def Code.next? : Code → Nat → Nat → List Bool → Option (Nat × List Bool)
  | symbols :: longer, read, least, b :: s =>
    let read := 2 * read + b.toNat
    match symbols[read - least]? with
    | some symbol => some (symbol, s)
    | none => Code.next? longer read (2 * (least + symbols.length)) s
  | _, _, _, _ => none

/-- The code of literals and lengths in blocks that bring no code of their own. -/
def fixedLengths : List Nat :=
  List.replicate 144 8 ++ List.replicate 112 9 ++ List.replicate 24 7 ++ List.replicate 8 8

/-- The code of distances in blocks that bring no code of their own. -/
def fixedDistances : List Nat := List.replicate 30 5

/-! ### Repetitions -/

/-- The least number that each of a row of symbols stands for, and the number of bits that are added
to it, when the numbers of extra bits are given. -/
def ranges : Nat → List Nat → List (Nat × Nat)
  | _, [] => []
  | least, extra :: rest => (least, extra) :: ranges (least + Nat.pow 2 extra) rest

/-- What the symbols from 257 on say about the length of a repetition. -/
def lengthRanges : List (Nat × Nat) :=
  ranges 3 [0, 0, 0, 0, 0, 0, 0, 0, 1, 1, 1, 1, 2, 2, 2, 2, 3, 3, 3, 3, 4, 4, 4, 4, 5, 5, 5, 5]
    |>.concat (258, 0)

/-- What the symbols of distances say. -/
def distanceRanges : List (Nat × Nat) :=
  ranges 1 [0, 0, 0, 0, 1, 1, 2, 2, 3, 3, 4, 4, 5, 5, 6, 6, 7, 7, 8, 8, 9, 9, 10, 10, 11, 11, 12,
    12, 13, 13]

/-- The number that a symbol and the bits after it stand for. -/
def inRange? (table : List (Nat × Nat)) (symbol : Nat) (s : List Bool) :
    Option (Nat × List Bool) := do
  let (least, extra) ← table[symbol]?
  let (more, s) ← number? extra s
  return (least + more, s)

/-- Repeats `count` bytes that stand `distance` bytes before the end. -/
def repeated (distance : Nat) : Nat → Array UInt8 → Array UInt8
  | 0, done => done
  | count + 1, done =>
    match done[done.size - distance]? with
    | some b => repeated distance count (done.push b)
    | none => done

/-! ### Blocks -/

/-- The bits still to be read and the bytes read so far. -/
structure Expansion where
  ahead : List Bool
  done : Array UInt8

/-- Reads symbols up to the one that ends a block, `room` of them at most. -/
def symbols? (literals distances : Code) : Nat → Expansion → Option Expansion
  | 0, _ => none
  | room + 1, x => do
    let (symbol, s) ← literals.next? 0 0 x.ahead
    if symbol < 256 then symbols? literals distances room ⟨s, x.done.push (UInt8.ofNat symbol)⟩
    else if symbol = 256 then some ⟨s, x.done⟩
    else do
      let (count, s) ← inRange? lengthRanges (symbol - 257) s
      let (symbol, s) ← distances.next? 0 0 s
      let (distance, s) ← inRange? distanceRanges symbol s
      if distance = 0 ∨ x.done.size < distance then none
      else symbols? literals distances room ⟨s, repeated distance count x.done⟩

/-- The bytes of a block that holds its data as it is. -/
def plain? (count : Nat) (x : Expansion) : Option Expansion :=
  match count with
  | 0 => some x
  | count + 1 => do
    let (b, s) ← number? 8 x.ahead
    plain? count ⟨s, x.done.push (UInt8.ofNat b)⟩

/-- The order in which the lengths of a code of lengths are given. -/
def lengthOrder : List Nat := [16, 17, 18, 0, 8, 7, 9, 6, 10, 5, 11, 4, 12, 3, 13, 2, 14, 1, 15]

/-- Reads `count` lengths of three bits each. -/
def smallLengths? : Nat → List Bool → Option (List Nat × List Bool)
  | 0, s => some ([], s)
  | count + 1, s => do
    let (l, s) ← number? 3 s
    let (rest, s) ← smallLengths? count s
    return (l :: rest, s)

/-- Reads lengths of words until there are `count` of them, in `room` steps at most. -/
def wordLengths? (code : Code) (count : Nat) :
    Nat → List Nat → List Bool → Option (List Nat × List Bool)
  | 0, _, _ => none
  | room + 1, done, s =>
    if count ≤ done.length then some (done.take count, s)
    else do
      let (symbol, s) ← code.next? 0 0 s
      if symbol < 16 then wordLengths? code count room (done ++ [symbol]) s
      else if symbol = 16 then do
        let (n, s) ← number? 2 s
        let last ← done.getLast?
        wordLengths? code count room (done ++ List.replicate (3 + n) last) s
      else if symbol = 17 then do
        let (n, s) ← number? 3 s
        wordLengths? code count room (done ++ List.replicate (3 + n) 0) s
      else do
        let (n, s) ← number? 7 s
        wordLengths? code count room (done ++ List.replicate (11 + n) 0) s

/-- Reads the two codes that a block brings. -/
def codes? (s : List Bool) : Option (Code × Code × List Bool) := do
  let (literals, s) ← number? 5 s
  let (distances, s) ← number? 5 s
  let (count, s) ← number? 4 s
  let (small, s) ← smallLengths? (count + 4) s
  let given := lengthOrder.zip small
  let code := Code.ofLengths ((List.range 19).map fun i => (given.lookup i).getD 0)
  let total := literals + 257 + (distances + 1)
  let (lengths, s) ← wordLengths? code total (total + 1) [] s
  return (Code.ofLengths (lengths.take (literals + 257)),
    Code.ofLengths (lengths.drop (literals + 257)), s)

/-- Reads what follows the three bits at the start of a block. -/
def block? (kind : Nat) (x : Expansion) : Option Expansion :=
  match kind with
  | 0 => do
    let (count, s) ← number? 16 (x.ahead.drop (x.ahead.length % 8))
    let (_, s) ← number? 16 s
    plain? count ⟨s, x.done⟩
  | 1 =>
    symbols? (Code.ofLengths fixedLengths) (Code.ofLengths fixedDistances) (x.ahead.length + 1) x
  | 2 => do
    let (literals, distances, s) ← codes? x.ahead
    symbols? literals distances (s.length + 1) ⟨s, x.done⟩
  | _ => none

/-- Reads blocks up to the last one, `room` of them at most. -/
def blocks? : Nat → Expansion → Option Expansion
  | 0, _ => none
  | room + 1, x => do
    let (last, s) ← number? 1 x.ahead
    let (kind, s) ← number? 2 s
    let x ← block? kind ⟨s, x.done⟩
    if last = 1 then some x else blocks? room x

/-- The data that was compressed. The two bytes in front and the checksum at the end are passed
over. -/
def expand? (s : Bytes) : Option Bytes :=
  let ahead := bits (s.drop 2)
  (blocks? (ahead.length + 1) ⟨ahead, #[]⟩).map fun x => x.done.toList

/-! ### Writing -/

/-- A checksum of two sums modulo 65521: that of the bytes, and that of the sums on the way. -/
def checksum (s : Bytes) : Nat :=
  let (low, high) := s.foldl (fun sums b =>
    let low := (sums.1 + b.toNat) % 65521
    (low, (sums.2 + low) % 65521)) (1, 0)
  65536 * high + low

/-- The two bytes of a number, the lower first. -/
def littleEndian (n : Nat) : Bytes := (Sha1.bigEndian 2 n).reverse

/-- Blocks that hold data as it is, `room` of them at most. -/
def plainBlocks : Nat → Bytes → Bytes
  | 0, _ => []
  | room + 1, s =>
    let part := s.take 65535
    let rest := s.drop 65535
    let isLast := rest = []
    [if isLast then 1 else 0] ++ littleEndian part.length ++ littleEndian (65535 - part.length) ++
      part ++ (if isLast then [] else plainBlocks room rest)

/-- Data as it is kept. -/
def wrap (s : Bytes) : Bytes :=
  [0x78, 0x01] ++ plainBlocks (s.length / 65535 + 1) s ++ Sha1.bigEndian 4 (checksum s)

end ReleaseRecovery.Git.Zlib
