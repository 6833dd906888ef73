import JsonSelect.Json.Written

/-!
# Reading JSON

A text is read with a limit on nesting and stepwise literals (`Json.read?`), or without that limit,
with exact literals and with words that may have tails (`Json.readLoosely?`).
-/

namespace JsonSelect.Json

/-- The most containers that may be nested in each other. -/
def maxDepth : Nat := 127

/-- The value when nesting is limited and literals are read stepwise. -/
def Written.limitedValue? (w : Written) : Option Json :=
  if w.depth ≤ maxDepth then w.value? Literal.stepwise else none

def read? (text : String) : Option Json := do (← Written.ofChars? text.toList).limitedValue?

/-- Reads a text without a limit on nesting, with exact literals and loose words. -/
def readLoosely? (text : String) : Option Json := do
  (← Written.ofLooseChars? text.toList).value? Literal.exact

end JsonSelect.Json
