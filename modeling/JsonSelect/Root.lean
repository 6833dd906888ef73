import JsonSelect.Fault
import JsonSelect.Json.Basic
import JsonSelect.Selector.Exclude
import JsonSelect.Text.Blank
import JsonSelect.Text.Integer

/-!
# Roots

A root text moves the root of a tree: an optional bracket picks among the objects of the top-level
array, counted from 0, or negative from the end, and an optional path gathers values out of what
remains. Unlike the endpoints of a subset, the indices of a bracket have to lie within the array.
-/

namespace JsonSelect.Root

/-- A root text cut into the content of its bracket and its path. -/
structure Parts where
  bracket : Option (List Char)
  path : String
  deriving DecidableEq, Repr

def parts (text : String) : Except Fault Parts :=
  match Text.strip text.toList with
  | '[' :: cs =>
    match cs.dropWhile (· != ']') with
    | _ :: after =>
      let path := match Text.strip after with
        | '.' :: path => path
        | path => path
      .ok ⟨some (cs.takeWhile (· != ']')), String.ofList path⟩
    | [] => .error (.malformed 0 .unclosedRootBracket)
  | path => .ok ⟨none, String.ofList path⟩

/-- The index that a text in a bracket stands for, if it is not blank. -/
def readIndex (cs : List Char) : Except Fault (Option Int) :=
  let text := Text.strip cs
  if text.isEmpty then .ok none
  else match Text.readInteger? text with
    | some index => .ok (some index)
    | none => .error (.malformed 1 (.badRootIndex (String.ofList text)))

/-- The position of an index in a list. -/
def position (index : Int) (length : Nat) : Except Fault (Fin length) :=
  let fromFront := if index < 0 then length + index else index
  if h : 0 ≤ fromFront ∧ fromFront < length then
    .ok ⟨fromFront.toNat, (Int.toNat_lt h.1).2 h.2⟩
  else .error (.rootOutOfBounds index length)

/-- The position of an endpoint, if its text is not blank. -/
def endpoint (cs : List Char) (length : Nat) : Except Fault (Option (Fin length)) := do
  match ← readIndex cs with
  | some index => return some (← position index length)
  | none => return none

/-- The objects that a bracket counts. -/
def candidates : Json → List Json
  | .arr items => items.filter Json.isObject
  | tree => [tree]

/-- What a bracket leaves of a tree: one object, or the array of those between two endpoints. -/
def choose (bracket : List Char) (tree : Json) : Except Fault Json := do
  let items := candidates tree
  match bracket.dropWhile (· != ':') with
  | _ :: after =>
    let start ← endpoint (bracket.takeWhile (· != ':')) items.length
    let stop ← endpoint after items.length
    let subset := Subset.ofPositions
      (some ((start.map fun i => (i : Int)).getD 0 + 1)) (stop.map fun i => (i : Int) + 1)
    return .arr ((subset.window items.length).keep items)
  | [] =>
    match ← readIndex bracket with
    | none => throw (.malformed 1 .missingRootIndex)
    | some index => return items.get (← position index items.length)

/-- The tree of gathered values: a single one stands for itself. -/
def ofGathered : List Json → Json
  | [] => .null
  | [value] => value
  | values => .arr values

/-- What a path leaves of a tree. -/
def follow (path : Selector) (tree : Json) : Json := ofGathered (path.gather tree.nodes)

end JsonSelect.Root
