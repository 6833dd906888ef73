import JsonSelect.Fault
import JsonSelect.Text.Blank
import JsonSelect.Text.DecimalDigit
import JsonSelect.Text.Integer
import JsonSelect.Text.Pattern
import JsonSelect.Window

/-!
# Subsets

A subset is a window whose array is not yet known: two endpoints, each open, counted from the
front or, if negative, from the end. Selectors write positions from 1; a subset stores them from 0
(`Subset.ofPositions`), and `Subset.window` binds it to the length of an array.

A token names a subset by a bracketed suffix, `name[n]` or `name[a:b]`. A token of another shape
names none, and one that has the shape but no readable number is faulted. The suffix is what two
patterns match, tried in turn (`Subset.parse`). `Subset.ofToken?` reads the same without an engine,
by splitting the token at its brackets and the suffix at its colon.
-/

namespace JsonSelect

/-- The endpoints are inclusive, stored from 0; a negative one counts from the end. -/
structure Subset where
  start : Option Int
  stop : Option Int
  deriving DecidableEq, Repr

namespace Subset

/-- The stored form of a position written from 1; zero stands for the first element. -/
def offset (position : Int) : Int := if position > 0 then position - 1 else position

def ofPositions (start stop : Option Int) : Subset := ⟨start.map offset, stop.map offset⟩

/-- The subset of a single element, which `name[n]` writes. -/
def single (position : Int) : Subset := ofPositions (some position) (some position)

/-- An offset seen from the front of an array of `length` elements. -/
def fromFront (length : Nat) (offset : Int) : Int :=
  if offset < 0 then length + offset else offset

/-- The window of the subset on an array of `length` elements, cut to the array. -/
def window (s : Subset) (length : Nat) : Window :=
  if length = 0 then .empty
  else
    let first := max 0 ((s.start.map (fromFront length)).getD 0)
    let last := min ((length : Int) - 1) ((s.stop.map (fromFront length)).getD (length - 1))
    if last < first then .empty else ⟨first.toNat, last.toNat + 1⟩

/-- The position an endpoint's text stands for; no text is an open end. -/
def readEndpoint (token : String) (text : List Char) : Except Fault (Option Int) :=
  if text.isEmpty then .ok none
  else match Text.readInteger? text with
    | some n => .ok (some n)
    | none => .error (.invalidIndex token)

/-- A name and, in brackets at the end of the token, some content. -/
def bracketedPattern (content : Text.Pattern → Text.Pattern) : Text.Pattern :=
  .atStart <| .dotAll <| .group "name" (.chars .any .many .done) <| .chars (.literal '[') .once <|
    content <| .chars (.literal ']') .once <| .atEnd .done

/-- An endpoint with the given name and number of digits, with blanks around it. -/
def endpointPattern (name : String) (digits : Text.Quantifier) (rest : Text.Pattern) :
    Text.Pattern :=
  .chars .blank .many <|
    .group name (.chars (.literal '-') .optional <| .chars .digit digits .done) <|
    .chars .blank .many rest

def indexPattern : Text.Pattern := bracketedPattern (endpointPattern "index" .atLeastOnce)

def rangePattern : Text.Pattern :=
  bracketedPattern fun rest =>
    endpointPattern "start" .many <| .chars (.literal ':') .once <| endpointPattern "end" .many rest

example : indexPattern.source = "^(?s)(?P<name>.*)\\[\\s*(?P<index>-?\\d+)\\s*\\]$" := by
  decide +kernel

example : rangePattern.source =
    "^(?s)(?P<name>.*)\\[\\s*(?P<start>-?\\d*)\\s*:\\s*(?P<end>-?\\d*)\\s*\\]$" := by
  decide +kernel

/-- The name and the subset that a token writes. The pattern of an index is tried first. -/
def parse (engine : Text.Engine) (token : String) : Except Fault (Option (String × Subset)) :=
  match engine.captures? indexPattern token with
  | some groups => do
    let index ← readEndpoint token (groups.get "index").toList
    return some (Text.trim (groups.get "name"), ofPositions index index)
  | none =>
    match engine.captures? rangePattern token with
    | some groups => do
      let start ← readEndpoint token (groups.get "start").toList
      let stop ← readEndpoint token (groups.get "end").toList
      return some (Text.trim (groups.get "name"), ofPositions start stop)
    | none => return none

/-- The text before the last opening bracket and the text after it, when a closing bracket ends
the token. -/
def bracketed? (cs : List Char) : Option (List Char × List Char) :=
  match cs.reverse with
  | ']' :: before =>
    match before.dropWhile (· != '[') with
    | '[' :: name => some (name.reverse, (before.takeWhile (· != '[')).reverse)
    | _ => none
  | _ => none

/-- An endpoint's text without the blanks around it, when it is an optional minus sign and decimal
digits. -/
def endpoint? (cs : List Char) : Option (List Char) :=
  let text := Text.strip cs
  let digits := match text with
    | '-' :: ds => ds
    | ds => ds
  if digits.all Text.isDecimalDigit then some text else none

/-- The two endpoint texts inside the brackets; a single index is both. -/
def endpoints? (cs : List Char) : Option (List Char × List Char) :=
  match cs.dropWhile (· != ':') with
  | ':' :: after => do
    let start ← endpoint? (cs.takeWhile (· != ':'))
    let stop ← endpoint? after
    some (start, stop)
  | _ => do
    let index ← endpoint? cs
    if index.any Text.isDecimalDigit then some (index, index) else none

/-- The name and the subset that a token writes, split off at its last opening bracket. -/
def ofToken? (token : String) : Except Fault (Option (String × Subset)) :=
  match bracketed? token.toList with
  | none => .ok none
  | some (name, content) =>
    match endpoints? content with
    | none => .ok none
    | some (startText, stopText) => do
      let start ← readEndpoint token startText
      let stop ← readEndpoint token stopText
      return some (String.ofList (Text.strip name), ofPositions start stop)

end Subset

end JsonSelect
