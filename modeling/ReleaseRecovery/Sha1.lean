import ReleaseRecovery.Text.Utf8

/-!
# SHA-1

The digest that names objects: twenty bytes for any sequence of bytes.

## Main Definitions

* `Sha1.State` — the five words that a message is folded into
* `Sha1.padded` — a message filled up to whole blocks
* `Sha1.absorb` — one block
* `Sha1.digest` — the digest of a message

## Design Notes

The eighty words that a block is stretched to are never held together. A window of the sixteen
words that come next slides over them: every round uses up the first and adds one at the end.
-/

namespace ReleaseRecovery.Sha1

/-- The five words that a message is folded into. -/
structure State where
  a : UInt32
  b : UInt32
  c : UInt32
  d : UInt32
  e : UInt32
deriving DecidableEq

/-- The state before the first block. -/
def initial : State := ⟨0x67452301, 0xEFCDAB89, 0x98BADCFE, 0x10325476, 0xC3D2E1F0⟩

/-- The bits of a word moved to the left, those at the end coming back at the start. -/
def rotate (x : UInt32) (n : UInt32) : UInt32 := (x <<< n) ||| (x >>> (32 - n))

/-- How a round mixes three words, and the constant that it adds. -/
def mix (round : Nat) (b c d : UInt32) : UInt32 × UInt32 :=
  if round < 20 then ((b &&& c) ||| (~~~b &&& d), 0x5A827999)
  else if round < 40 then (b ^^^ c ^^^ d, 0x6ED9EBA1)
  else if round < 60 then ((b &&& c) ||| (b &&& d) ||| (c &&& d), 0x8F1BBCDC)
  else (b ^^^ c ^^^ d, 0xCA62C1D6)

/-- One round with the next word of the block. -/
def step (round : Nat) (word : UInt32) (s : State) : State :=
  let (mixed, constant) := mix round s.b s.c s.d
  ⟨rotate s.a 5 + mixed + s.e + constant + word, s.a, rotate s.b 30, s.c, s.d⟩

/-- The word that follows a window of sixteen. -/
def nextWord (window : List UInt32) : UInt32 :=
  let word := fun i => (window[i]?).getD 0
  rotate (word 0 ^^^ word 2 ^^^ word 8 ^^^ word 13) 1

/-- Runs the last `due` of eighty rounds over the window of words to come. -/
def rounds : Nat → List UInt32 → State → State
  | 0, _, s => s
  | due + 1, window, s =>
    rounds due (window.drop 1 ++ [nextWord window]) (step (79 - due) ((window[0]?).getD 0) s)

/-- The words of a block, four bytes each, the highest first. -/
def words : Bytes → List UInt32
  | a :: b :: c :: d :: rest =>
    ((a.toUInt32 <<< 24) ||| (b.toUInt32 <<< 16) ||| (c.toUInt32 <<< 8) ||| d.toUInt32) ::
      words rest
  | _ => []

/-- Folds one block into a state. -/
def absorb (s : State) (block : Bytes) : State :=
  let t := rounds 80 (words block) s
  ⟨s.a + t.a, s.b + t.b, s.c + t.c, s.d + t.d, s.e + t.e⟩

/-- The last `count` bytes of a number, the highest first. -/
def bigEndian : Nat → Nat → Bytes
  | 0, _ => []
  | count + 1, n => UInt8.ofNat (n / Nat.pow 256 count) :: bigEndian count n

@[simp] theorem length_bigEndian (count n : Nat) : (bigEndian count n).length = count := by
  induction count with
  | zero => rfl
  | succ count ih => rw [bigEndian, List.length_cons, ih]

/-- A message filled up to whole blocks of 64 bytes: a one bit, zeros, and its length in bits. -/
def padded (message : Bytes) : Bytes :=
  message ++ 0x80 :: List.replicate ((119 - message.length % 64) % 64) 0 ++
    bigEndian 8 (8 * message.length)

/-- Folds `count` blocks into a state. -/
def absorbAll : Nat → Bytes → State → State
  | 0, _, s => s
  | count + 1, message, s => absorbAll count (message.drop 64) (absorb s (message.take 64))

/-- The bytes of a state. -/
def State.bytes (s : State) : Bytes :=
  [s.a, s.b, s.c, s.d, s.e].flatMap fun word => bigEndian 4 word.toNat

@[simp] theorem State.length_bytes (s : State) : s.bytes.length = 20 := by
  simp [State.bytes]

/-- The digest of a message. -/
def digest (message : Bytes) : Bytes :=
  let text := padded message
  (absorbAll (text.length / 64) text initial).bytes

/-- A digest has twenty bytes. -/
@[simp] theorem length_digest (message : Bytes) : (digest message).length = 20 :=
  State.length_bytes _

end ReleaseRecovery.Sha1
