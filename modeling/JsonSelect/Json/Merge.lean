import JsonSelect.Json.Object

/-!
# Merging

Two values under one key become one: arrays are appended, objects are merged member by member, and
of any other two the later one stays. Merging one object into another adds its members in turn
(`Object.mergeMembers_eq_addAll`).
-/

namespace JsonSelect

namespace Json

mutual

def merge (existing : Json) : Json → Json
  | arr more =>
    match existing with
    | arr items => arr (items ++ more)
    | _ => arr more
  | obj more =>
    match existing with
    | obj members => obj (mergeMembers members more)
    | _ => obj more
  | later => later

def mergeMembers (members : Object) : List (String × Json) → Object
  | [] => members
  | (key, value) :: more =>
    mergeMembers
      (members.insert key (match members.get? key with
        | some existing => merge existing value
        | none => value))
      more

end

end Json

namespace Object

/-- The object with `value` merged into what is under `key`. -/
def add (o : Object) (key : String) (value : Json) : Object :=
  o.insert key (match o.get? key with
    | some existing => existing.merge value
    | none => value)

/-- The object with all of `parts` added in order. -/
def addAll (o : Object) (parts : List (String × Json)) : Object :=
  parts.foldl (fun (o : Object) part => o.add part.1 part.2) o

theorem mergeMembers_eq_addAll (o : Object) :
    ∀ more : List (String × Json), Json.mergeMembers o more = o.addAll more
  | [] => by simp [Json.mergeMembers, addAll]
  | (key, value) :: more => by
    rw [Json.mergeMembers, mergeMembers_eq_addAll, addAll, addAll, List.foldl_cons]
    rfl

end Object

end JsonSelect
