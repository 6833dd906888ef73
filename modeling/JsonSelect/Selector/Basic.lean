import JsonSelect.Selector.Pick

/-!
# Selectors

A selector is a sequence of picks on one container: fields, and descents that hold the selector of
the container they lead to. A place is the list of tokens from the root to a container.

A selector is gathered from entries, picks with their places, in the order of the text
(`Selector.ofEntries`). A pick that stands already at its place is not repeated. At the end each
place is arranged: fields first, then descents by the number of occupied places they lead to,
fewest first, in the order of the text where that number is the same (`Selector.arrange`).

There are only the places that descents lead to. An entry at another place is lost when it is added
(`Selector.modifyInner`), where a table from addresses to picks would keep it out of reach. A text
has no such entry: it opens a place with the descent to it (`Outline.inOrder_entries`), so all its
picks are kept (`Selector.exists_entries_of_parse`).
-/

namespace JsonSelect

inductive Selector where
  | nil
  | field (pick : Pick) (rest : Selector)
  | descend (pick : Pick) (inner rest : Selector)
  deriving DecidableEq, Repr, Inhabited

/-- A pick at the place where a text puts it. -/
structure Entry where
  place : List String
  role : Role
  pick : Pick
  deriving DecidableEq, Repr

namespace Selector

def isEmpty : Selector → Bool
  | nil => true
  | _ => false

/-- The picks at the root, in order. -/
def picks : Selector → List (Role × Pick)
  | nil => []
  | field pick rest => (.field, pick) :: rest.picks
  | descend pick _ rest => (.descend, pick) :: rest.picks

/-- The number of occupied places below the root. -/
def countBelow : Selector → Nat
  | nil => 0
  | field _ rest => rest.countBelow
  | descend _ inner rest =>
    (if inner.isEmpty then 0 else inner.countBelow + 1) + rest.countBelow

/-- The number of occupied places. -/
def count (s : Selector) : Nat := if s.isEmpty then 0 else s.countBelow + 1

def addField (pick : Pick) : Selector → Selector
  | nil => field pick nil
  | field p rest => if p = pick then field p rest else field p (rest.addField pick)
  | descend p inner rest => descend p inner (rest.addField pick)

def addDescent (pick : Pick) : Selector → Selector
  | nil => descend pick nil nil
  | field p rest => field p (rest.addDescent pick)
  | descend p inner rest =>
    if p = pick then descend p inner rest else descend p inner (rest.addDescent pick)

def addPick : Role → Pick → Selector → Selector
  | .field => addField
  | .descend => addDescent

/-- The selector with `f` applied to the one behind the descent of `token`, or as it is if there is
no such descent. -/
def modifyInner (token : String) (f : Selector → Selector) : Selector → Selector
  | nil => nil
  | field p rest => field p (rest.modifyInner token f)
  | descend p inner rest =>
    if p.token = token then descend p (f inner) rest
    else descend p inner (rest.modifyInner token f)

def modifyAt : List String → (Selector → Selector) → Selector → Selector
  | [], f, s => f s
  | token :: place, f, s => s.modifyInner token (modifyAt place f)

def addEntry (s : Selector) (e : Entry) : Selector :=
  s.modifyAt e.place (addPick e.role e.pick)

/-- Puts a descent in front of the first one that leads to no fewer places. -/
def insertDescent (pick : Pick) (inner : Selector) : Selector → Selector
  | nil => descend pick inner nil
  | field p rest => field p (insertDescent pick inner rest)
  | descend p i rest =>
    if inner.count ≤ i.count then descend pick inner (descend p i rest)
    else descend p i (insertDescent pick inner rest)

def arrange : Selector → Selector
  | nil => nil
  | field p rest => field p rest.arrange
  | descend p inner rest => insertDescent p inner.arrange rest.arrange

def ofEntries (entries : List Entry) : Selector := (entries.foldl addEntry nil).arrange

end Selector

end JsonSelect
