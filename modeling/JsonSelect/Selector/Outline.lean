/-!
# The outline of a selector text

A text is cut at its marks, the braces and dots outside brackets, into runs (`Outline.ofChars`),
and a run is cut at its separators outside brackets into tokens (`Outline.tokens`). Space, line
feed and carriage return separate; a tab does not. A bracket opened within a bracket has to be
closed again; a closing bracket outside brackets is a character like any other.
-/

namespace JsonSelect

inductive Mark where
  | openGroup
  | closeGroup
  | dot
  deriving DecidableEq, Repr

def Mark.ofChar? (c : Char) : Option Mark :=
  if c = '\x7b' then some .openGroup
  else if c = '\x7d' then some .closeGroup
  else if c = '.' then some .dot
  else none

/-- The runs of a text; each but the last ends at a mark with its byte offset. -/
inductive Outline where
  | last (run : List Char)
  | marked (run : List Char) (mark : Mark) (offset : Nat) (rest : Outline)
  deriving DecidableEq, Repr

namespace Outline

/-- The number of brackets open after `c`. -/
def depthAfter (depth : Nat) (c : Char) : Nat :=
  if c = '[' then depth + 1 else if c = ']' then depth - 1 else depth

def separates (c : Char) : Bool := c == ' ' || c == '\n' || c == '\r'

/-- The outline with a character in front of its first run. -/
def prepend (c : Char) : Outline → Outline
  | last run => last (c :: run)
  | marked run mark offset rest => marked (c :: run) mark offset rest

/-- The outline of what follows when `depth` brackets are open and `offset` bytes were read. -/
def scan (depth offset : Nat) : List Char → Outline
  | [] => last []
  | c :: cs =>
    match if depth = 0 then Mark.ofChar? c else none with
    | some mark => marked [] mark offset (scan 0 (offset + c.utf8Size) cs)
    | none => (scan (depthAfter depth c) (offset + c.utf8Size) cs).prepend c

def ofChars (cs : List Char) : Outline := scan 0 0 cs

/-- The stretches between separators outside brackets, empty ones included, when `depth` brackets
are open. -/
def stretches (depth : Nat) : List Char → List (List Char)
  | [] => [[]]
  | c :: cs =>
    if depth = 0 && separates c then [] :: stretches 0 cs
    else match stretches (depthAfter depth c) cs with
      | first :: others => (c :: first) :: others
      | [] => [[c]]

/-- The tokens of a run. -/
def tokens (run : List Char) : List String :=
  ((stretches 0 run).filter fun t => !t.isEmpty).map String.ofList

/-- Whether the first token of the run stands apart from what precedes the run. -/
def startsApart (run : List Char) : Bool := run.head?.any separates

end Outline

end JsonSelect
