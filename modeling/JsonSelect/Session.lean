import JsonSelect.Projection
import JsonSelect.Request
import JsonSelect.Root
import JsonSelect.Selector.Reading

/-!
# Sessions

A session reads selectors through a cache and projects trees. The cache keeps the selector of each
text that was read without a fault, until it is cleared; a forgetful one reads every time. A
selector that is kept is shared: `Shared.reading` numbers the readings of a session, so two results
with one number are one selector.

`Session.project` takes the parts of a request in order. The root is moved first; then the selected
and the dropped text are read, in this order and even if the root is no container; then each object
of the tree is projected. The cache keeps what was read before a fault.
-/

namespace JsonSelect

/-- A selector with the number of the reading it came from. -/
structure Shared where
  reading : Nat
  selector : Selector
  deriving DecidableEq, Repr

structure Cache where
  entries : List (String × Shared)
  keeps : Bool
  readings : Nat
  deriving Repr

namespace Cache

def empty : Cache := ⟨[], true, 0⟩

/-- The cache that keeps nothing. -/
def forgetful : Cache := ⟨[], false, 0⟩

def contains (c : Cache) (text : String) : Bool := (c.entries.lookup text).isSome

def size (c : Cache) : Nat := c.entries.length

def clear (c : Cache) : Cache := { c with entries := [] }

/-- The cache after one more reading. -/
def add (c : Cache) (text : String) (selector : Selector) : Cache :=
  { c with
    entries := if c.keeps then (text, ⟨c.readings, selector⟩) :: c.entries else c.entries
    readings := c.readings + 1 }

end Cache

/-- A computation that reads selectors through a cache and keeps it when it fails. -/
abbrev Session := ExceptT Fault (StateM Cache)

namespace Session

/-- A result that does not depend on the cache. -/
def ofExcept {α : Type} (result : Except Fault α) : Session α := ExceptT.mk (pure result)

/-- The selector of a text: the one in the cache, or a new one. -/
def parse (text : String) : Session Shared := do
  let cache ← get
  match cache.entries.lookup text with
  | some shared => return shared
  | none =>
    let selector ← ofExcept (Selector.parse text)
    set (cache.add text selector)
    return ⟨cache.readings, selector⟩

/-- The selector of a text, if there is one. -/
def parseOption : Option String → Session (Option Selector)
  | some text => return some (← parse text).selector
  | none => return none

def moveRoot (text : String) (tree : Json) : Session Json := do
  let parts ← ofExcept (Root.parts text)
  let tree ← match parts.bracket with
    | some bracket => ofExcept (Root.choose bracket tree)
    | none => pure tree
  if parts.path.isEmpty then return tree
  else return Root.follow (← parse parts.path).selector tree

/-- A tree that is no container stays as it is, and nothing is read. -/
def project (tree : Json) (request : Request) : Session Projection := do
  if !tree.isContainer then return ⟨tree, 0⟩
  let tree ← match request.rootText with
    | some text => moveRoot text tree
    | none => pure tree
  let selected ← parseOption request.selectedText
  let dropped ← parseOption request.droppedText
  return Projection.ofTree selected dropped tree

end Session

/-- The projection of a tree in a session of its own. -/
def project (tree : Json) (request : Request) : Except Fault Json :=
  ((Session.project tree request).run Cache.forgetful).1.map Projection.tree

end JsonSelect
