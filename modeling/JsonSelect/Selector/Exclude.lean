import JsonSelect.Selector.Basic
import JsonSelect.Selector.Reach

/-!
# Excluding

`Selector.exclude` walks over what a selector picks in a list of objects, pick by pick. A field of
an object is deleted, or of an array the elements within the field's subset; all objects are visited
before the next pick, and each pick meets what the picks before it have left. A descent takes the
objects that it leads to out of all of them, walks over these together and puts them back. If the
walk has a collector, what would be deleted is copied there instead, and nothing changes.

`Selector.pruneAll` is the walk without a collector, and `Selector.gather` what is collected.
-/

namespace JsonSelect.Selector

/-- The copies that a walk has collected, if it collects. -/
abbrev Collector := Option (List Json)

/-- Deletes from an object what a field names, or copies it to the collector. -/
def excludeField (pick : Pick) (node : Object) : StateM Collector Object := do
  match pick.subset, node.get? pick.name with
  | some s, some (.arr items) =>
    let w := s.window items.length
    match ← get with
    | some copies =>
      set (some (copies ++ w.slice items))
      return node
    | none => return node.modify pick.name fun _ => .arr (w.remove items)
  | _, value =>
    match ← get with
    | some copies =>
      set (some (copies ++ value.toList))
      return node
    | none => return node.erase pick.name

/-- The objects that a descent leads to in some nodes. -/
def childrenOf (pick : Pick) (nodes : List Object) : List Object :=
  nodes.flatMap fun node => node.flatMap fun m =>
    if m.1 = pick.name then Subset.children pick.subset m.2 else []

/-- The nodes with the objects that a descent leads to replaced in order by the objects at hand. -/
def putChildren (pick : Pick) (nodes : List Object) : StateM (List Object) (List Object) :=
  nodes.mapM fun node => node.mapM fun m =>
    if m.1 = pick.name then (m.1, ·) <$> Subset.putChildren pick.subset m.2 else pure m

def exclude : Selector → List Object → StateM Collector (List Object)
  | nil, nodes => return nodes
  | field pick rest, nodes => do rest.exclude (← nodes.mapM (excludeField pick))
  | descend pick inner rest, nodes => do
    let children ← inner.exclude (childrenOf pick nodes)
    rest.exclude ((putChildren pick nodes).run children).1

/-- The nodes without what the selector picks. -/
def pruneAll (s : Selector) (nodes : List Object) : List Object := ((s.exclude nodes).run none).1

/-- Copies of what the selector picks in the nodes. -/
def gather (s : Selector) (nodes : List Object) : List Json :=
  ((s.exclude nodes).run (some [])).2.getD []

end JsonSelect.Selector
