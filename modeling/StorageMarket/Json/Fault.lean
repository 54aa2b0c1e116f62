/-!
# What can be wrong with a JSON text

A text is refused for one of three reasons: it breaks the grammar, it ends too
early, or what it holds is not what was asked for. Reading stops at the first
fault in the order of the text.

Some faults show only when a value is read for its content: a number beyond the
range of a double, or half a surrogate pair in a string. A value that nobody asked
for is skipped, and skipping is more lenient. Where the text itself goes wrong,
the two can meet the fault differently, so such a place carries a pair.
-/

namespace StorageMarket.Json

inductive Mismatch where
  /-- A value of another type, or out of the range asked for. -/
  | unexpected
  | missingField (name : String)
  | repeatedField (name : String)
  /-- A string that does not stand for a value of the type, and why. -/
  | refused (reason : String)
deriving DecidableEq

inductive Fault where
  /-- The text breaks the grammar. -/
  | malformed
  /-- The text ends too early. -/
  | truncated
  /-- The text holds something else than what was asked for. -/
  | mismatch (why : Mismatch)
deriving DecidableEq

def Mismatch.message : Mismatch → Option String
  | unexpected => none
  | missingField name => some s!"missing field `{name}`"
  | repeatedField name => some s!"duplicate field `{name}`"
  | refused reason => some reason

def Fault.message : Fault → Option String
  | mismatch why => why.message
  | _ => none

/-- The fault that reading meets at some place of a text, and the one that skipping meets. -/
structure Mishap where
  read : Fault
  skip : Fault
deriving DecidableEq

def Mishap.both (fault : Fault) : Mishap := ⟨fault, fault⟩

end StorageMarket.Json
