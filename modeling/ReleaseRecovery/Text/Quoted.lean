import ReleaseRecovery.Text.Unprintable

/-!
# Quoted text

How a message shows a text that was given by the user: between double quotes, with everything
that could not be told from its surroundings spelled out.

## Main Definitions

* `Text.quoteChar` — one character
* `Text.quote` — a whole text
-/

namespace ReleaseRecovery.Text

/-- The number of a character in lower-case hexadecimal digits, without leading zeros. -/
def hexNumber (n : Nat) : List Char := Nat.toDigits 16 n

/-- A character of a quoted text: quotes, backslashes and the usual control characters have an
escape of their own, and other unprintable characters are spelled by their number. -/
def quoteChar (c : Char) : List Char :=
  match c with
  | '"' => ['\\', '"']
  | '\\' => ['\\', '\\']
  | '\n' => ['\\', 'n']
  | '\r' => ['\\', 'r']
  | '\t' => ['\\', 't']
  | '\x00' => ['\\', '0']
  | c => if isUnprintable c then ['\\', 'u', '\x7b'] ++ hexNumber c.toNat ++ ['\x7d'] else [c]

/-- A text between double quotes. -/
def quote (s : String) : String :=
  String.ofList ('"' :: s.toList.flatMap quoteChar ++ ['"'])

end ReleaseRecovery.Text
