import JsonSelect.Json.Merge
import JsonSelect.Selector.Basic
import JsonSelect.Selector.Reach

/-!
# Retaining

`Selector.retain` copies what a selector picks in an object to a fresh object. A field gives its
value, cut to the subset if it is an array; a descent gives an object, or the array of the objects
that it leads to, each retained by the inner selector (`parts_descend`). What several picks give
under one key is merged in their order. A descent into a field that is taken whole gives nothing.
-/

namespace JsonSelect.Selector

/-- The names of the fields that are taken without a subset. -/
def wholeNames : Selector → List String
  | nil => []
  | field pick rest =>
    if pick.subset.isNone then pick.name :: rest.wholeNames else rest.wholeNames
  | descend _ _ rest => rest.wholeNames

/-- A field's value, cut to the subset if it is an array. -/
def cut (subset : Option Subset) : Json → Json
  | .arr items => .arr (Subset.covered subset items)
  | value => value

/-- What the picks give, each under its key, when the fields in `whole` are taken whole. -/
def parts (whole : List String) (node : Object) : Selector → List (String × Json)
  | nil => []
  | field pick rest =>
    ((node.get? pick.name).map (cut pick.subset)).toList.map (pick.name, ·)
      ++ rest.parts whole node
  | descend pick inner rest =>
    (if whole.contains pick.name then []
      else ((node.get? pick.name).bind (Subset.copyChildren pick.subset fun child =>
        Object.addAll [] (inner.parts inner.wholeNames child))).toList.map (pick.name, ·))
      ++ rest.parts whole node

/-- The fresh object of what the selector picks in `node`. -/
def retain (s : Selector) (node : Object) : Object :=
  Object.addAll [] (s.parts s.wholeNames node)

theorem parts_descend (whole : List String) (node : Object) (pick : Pick)
    (inner rest : Selector) :
    (descend pick inner rest).parts whole node =
      (if whole.contains pick.name then []
        else ((node.get? pick.name).bind
          (Subset.copyChildren pick.subset inner.retain)).toList.map (pick.name, ·))
        ++ rest.parts whole node := rfl

end JsonSelect.Selector
