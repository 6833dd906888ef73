import JsonSelect.Selector.Exclude
import JsonSelect.Selector.Retain

/-!
# Projections

The projection of a tree by two selectors: each object at the top of the tree is cut down to what
one selects and then loses what the other drops. Elements of a top-level array that are no objects
are left out and counted. Of the resulting objects a single one stands for itself, any other number
for an array.
-/

namespace JsonSelect

/-- A projected tree, with the number of elements of its array that were no objects and left out. -/
structure Projection where
  tree : Json
  skipped : Nat

namespace Projection

/-- The tree of a list of objects: a single one stands for itself. -/
def ofNodes : List Object → Json
  | [node] => .obj node
  | nodes => .arr (nodes.map .obj)

def skippedItems : Json → Nat
  | .arr items => items.length - (Json.objects items).length
  | _ => 0

/-- Objects after selecting, one by one, and dropping, from all of them together. -/
def nodes (selected dropped : Option Selector) (objects : List Object) : List Object :=
  let kept := match selected with
    | some s => objects.map s.retain
    | none => objects
  match dropped with
  | some s => s.pruneAll kept
  | none => kept

def ofTree (selected dropped : Option Selector) (tree : Json) : Projection :=
  if !tree.isContainer || (selected.isNone && dropped.isNone) then ⟨tree, 0⟩
  else ⟨ofNodes (nodes selected dropped tree.nodes), skippedItems tree⟩

end Projection

end JsonSelect
