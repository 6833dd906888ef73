import JsonSelect.Selector.Exclude

/-!
# Pruning an object

What pruning does to each object, whatever others are pruned with it (`Selector.pruneAll_eq_map`): a
field is erased, or loses the elements within its subset, and a descent prunes the objects that it
leads to where they stand.
-/

namespace JsonSelect.Selector

/-- The object without what a field pick names. -/
def pruneField (pick : Pick) (node : Object) : Object :=
  match pick.subset, node.get? pick.name with
  | some s, some (.arr items) =>
    node.modify pick.name fun _ => .arr ((s.window items.length).remove items)
  | _, _ => node.erase pick.name

def prune : Selector → Object → Object
  | nil, node => node
  | field pick rest, node => rest.prune (pruneField pick node)
  | descend pick inner rest, node =>
    rest.prune (node.modify pick.name (Subset.updateChildren pick.subset inner.prune))

end JsonSelect.Selector
