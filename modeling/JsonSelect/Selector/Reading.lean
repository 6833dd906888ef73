import JsonSelect.Selector.Basic
import JsonSelect.Selector.Outline

/-!
# Reading a selector text

A text is read run by run, with the groups and chains that are open, the innermost first. The
tokens of a run are fields, save that the one in front of an opening brace or a dot is a descent
and opens a group or a chain. A chain lasts until a separator that a token follows, or until a
group is closed: so the first token of a run still belongs to an open chain if nothing separates it
from the dot, and all others stand outside it (`Opening.situate`).

The first fault of the text from the left is the one reported; only a text without one can be
faulted for a group or a chain that is open at its end.
-/

namespace JsonSelect

inductive OpeningKind where
  | group
  | chain
  deriving DecidableEq, Repr

/-- What a mark at `offset` opened; a bare group has no token. -/
structure Opening where
  token : Option String
  kind : OpeningKind
  offset : Nat
  deriving DecidableEq, Repr

namespace Opening

def isChain (o : Opening) : Bool := o.kind == .chain

/-- What stays open when the innermost chains end. -/
def endChains (openings : List Opening) : List Opening := openings.dropWhile isChain

/-- The place inside what is open. -/
def place (openings : List Opening) : List String := (openings.filterMap Opening.token).reverse

/-- The tokens of a run, each with what is open where it stands. -/
def situate (openings : List Opening) (run : List Char) : List (List Opening × String) :=
  match Outline.tokens run with
  | [] => []
  | first :: others =>
    let around := if Outline.startsApart run then endChains openings else openings
    (around, first) :: others.map fun token => (endChains openings, token)

end Opening

def Entry.ofToken (role : Role) (token : List Opening × String) : Except Fault Entry := do
  return ⟨Opening.place token.1, role, ← Pick.ofToken token.2⟩

namespace Outline

/-- The entries of the rest of a text, inside what is open. -/
def entries (openings : List Opening) : Outline → Except Fault (List Entry)
  | last run => do
    let tokens := Opening.situate openings run
    let fields ← tokens.mapM (Entry.ofToken .field)
    match (openings.filter fun o => !o.isChain).getLast? with
    | some outermost => throw (.malformed outermost.offset .unclosedGroup)
    | none =>
      match openings, tokens with
      | innermost :: _, [] => throw (.malformed innermost.offset .danglingDot)
      | _, _ => return fields
  | marked run .closeGroup offset rest => do
    let fields ← (Opening.situate openings run).mapM (Entry.ofToken .field)
    match Opening.endChains openings with
    | [] => throw (.malformed offset .unexpectedClose)
    | _ :: outer => return fields ++ (← rest.entries (Opening.endChains outer))
  | marked run .openGroup offset rest => do
    let tokens := Opening.situate openings run
    let fields ← tokens.dropLast.mapM (Entry.ofToken .field)
    match tokens.getLast? with
    | none => return fields ++ (← rest.entries (⟨none, .group, offset⟩ :: openings))
    | some (around, token) =>
      let descent ← Entry.ofToken .descend (around, token)
      return fields ++ descent :: (← rest.entries (⟨some token, .group, offset⟩ :: around))
  | marked run .dot offset rest => do
    let tokens := Opening.situate openings run
    let fields ← tokens.dropLast.mapM (Entry.ofToken .field)
    match tokens.getLast? with
    | none => throw (.malformed offset .missingName)
    | some (around, token) =>
      let descent ← Entry.ofToken .descend (around, token)
      return fields ++ descent :: (← rest.entries (⟨some token, .chain, offset⟩ :: around))

end Outline

/-- The selector that a text writes. -/
def Selector.parse (text : String) : Except Fault Selector :=
  (Outline.entries [] (Outline.ofChars text.toList)).map Selector.ofEntries

end JsonSelect
