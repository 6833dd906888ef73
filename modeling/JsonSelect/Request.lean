import JsonSelect.Json.Printing
import JsonSelect.Json.Written
import JsonSelect.Text.Blank

/-!
# Requests

A request says what to do with a tree: where its root is moved, what is selected and what is
dropped. A part that is not set or blank asks for nothing; the others count as they are written,
blanks at their ends included.

A request is read from a JSON object, in which each part has two keys and can be given once, or
from an array of the parts in order (`Request.ofText?`). Other keys are passed over, whatever they
hold.
-/

namespace JsonSelect

structure Request where
  root : Option String
  selected : Option String
  dropped : Option String
  deriving DecidableEq, Repr, Inhabited

namespace Request

inductive Part where
  | root
  | selected
  | dropped
  deriving DecidableEq, Repr

/-- The request for nothing. -/
def empty : Request := ⟨none, none, none⟩

def set (r : Request) (part : Part) (text : Option String) : Request :=
  match part with
  | .root => { r with root := text }
  | .selected => { r with selected := text }
  | .dropped => { r with dropped := text }

/-- The request in which only one part is set. -/
def only (part : Part) (text : String) : Request := empty.set part text

/-- A text that asks for something. -/
def asking (text : Option String) : Option String := text.filter fun s => !Text.allBlank s

def rootText (r : Request) : Option String := asking r.root

def selectedText (r : Request) : Option String := asking r.selected

def droppedText (r : Request) : Option String := asking r.dropped

def isEmpty (r : Request) : Bool :=
  r.rootText.isNone && r.selectedText.isNone && r.droppedText.isNone

def Part.key : Part → String
  | root => "root"
  | selected => "include"
  | dropped => "exclude"

def Part.otherKey : Part → String
  | root => "view"
  | selected => "select"
  | dropped => "drop"

def parts : List Part := [.root, .selected, .dropped]

def Part.ofKey? (key : String) : Option Part :=
  parts.find? fun part => key == part.key || key == part.otherKey

def get (r : Request) : Part → Option String
  | .root => r.root
  | .selected => r.selected
  | .dropped => r.dropped

/-- The parts that are set, blank ones included. -/
def toJson (r : Request) : Json :=
  .obj (parts.filterMap fun part => (r.get part).map fun text => (part.key, .str text))

def text (r : Request) : String := r.toJson.compact

/-- A part's value; null leaves it unset. -/
def partText? : Json.Written → Option (Option String)
  | .null => some none
  | .str text => some (some text)
  | _ => none

/-- Reads members into a request in which the parts `given` have been set. -/
def ofMembers? (given : List Part) (r : Request) : List (String × Json.Written) → Option Request
  | [] => some r
  | (key, value) :: members =>
    match Part.ofKey? key with
    | none => ofMembers? given r members
    | some part =>
      if given.contains part then none
      else do ofMembers? (part :: given) (r.set part (← partText? value)) members

/-- Reads the values of the parts in order; the rest stays unset. -/
def ofItems? (r : Request) : List Part → List Json.Written → Option Request
  | _, [] => some r
  | [], _ :: _ => none
  | part :: parts, item :: items => do ofItems? (r.set part (← partText? item)) parts items

def ofWritten? : Json.Written → Option Request
  | .obj members => ofMembers? [] empty members
  | .arr items => ofItems? empty parts items
  | _ => none

def ofText? (text : String) : Option Request := do
  ofWritten? (← Json.Written.ofChars? text.toList)

end Request

end JsonSelect
