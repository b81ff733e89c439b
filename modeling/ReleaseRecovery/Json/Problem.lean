/-!
# Why a JSON text cannot be read

## Main Definitions

* `Json.Problem` — the three causes
* `Json.Problem.category` — their names in messages
-/

namespace ReleaseRecovery.Json

/-- Why a text does not yield the wanted value. -/
inductive Problem
  /-- The text ends before the value does. -/
  | endOfText
  /-- The text is not JSON, or not what can be held in memory. -/
  | malformed
  /-- The text holds a value of another shape. -/
  | mismatch
deriving DecidableEq

/-- The word for a cause. -/
def Problem.category : Problem → String
  | .endOfText => "eof"
  | .malformed => "syntax"
  | .mismatch => "data"

end ReleaseRecovery.Json
