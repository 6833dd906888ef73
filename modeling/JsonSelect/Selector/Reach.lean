import JsonSelect.Json.Object
import JsonSelect.Subset

/-!
# What a pick leads to

A pick names a value in an object and, by its subset, a stretch of that value if it is an array. A
descent leads into the value itself, if it is an object, or into the objects among its covered
elements; anything else it passes by. These objects are changed where they stand
(`Subset.updateChildren`), or taken out (`Subset.children`) and put back (`Subset.putChildren`).
-/

namespace JsonSelect.Subset

/-- The elements of an array that a subset covers, all of them without a subset. -/
def covered (subset : Option Subset) (items : List Json) : List Json :=
  match subset with
  | some s => (s.window items.length).slice items
  | none => items

/-- The objects that a descent leads to in a value. -/
def children (subset : Option Subset) : Json → List Object
  | .obj child => [child]
  | .arr items => Json.objects (covered subset items)
  | _ => []

/-- What a descent copies of a value, if `f` copies the objects that it leads to: an object for an
object, an array of objects for an array. -/
def copyChildren (subset : Option Subset) (f : Object → Object) : Json → Option Json
  | .obj child => some (.obj (f child))
  | .arr items =>
    some (.arr ((Json.objects (covered subset items)).map fun child => .obj (f child)))
  | _ => none

/-- An element of an array with `f` applied to it if it is an object. -/
def updateItem (f : Object → Object) : Json → Json
  | .obj child => .obj (f child)
  | item => item

/-- A value with `f` applied to the objects that a descent leads to. -/
def updateChildren (subset : Option Subset) (f : Object → Object) : Json → Json
  | .obj child => .obj (f child)
  | .arr items =>
    .arr (match subset with
      | some s => (s.window items.length).update (updateItem f) items
      | none => items.map (updateItem f))
  | value => value

/-- An element of an array or, if it is an object, the next of the objects at hand. -/
def putItem : Json → StateM (List Object) Json
  | .obj child => do
    match ← get with
    | next :: others =>
      set others
      return .obj next
    | [] => return .obj child
  | item => return item

/-- A value with the objects that a descent leads to replaced in order by the objects at hand. -/
def putChildren (subset : Option Subset) : Json → StateM (List Object) Json
  | .arr items =>
    match subset with
    | some s => do
      let w := s.window items.length
      return .arr (w.replace (← (w.slice items).mapM putItem) items)
    | none => return .arr (← items.mapM putItem)
  | value => putItem value

end JsonSelect.Subset
