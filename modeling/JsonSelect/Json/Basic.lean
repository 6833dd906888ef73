/-!
# JSON values

A value is a scalar, an array or an object; an object lists its members in the order of insertion.
Equality of values is decidable (`Json.decEq`); an integer and a double are never equal.
-/

namespace JsonSelect

/-- An integer of 64 bits, signed or unsigned, or a double given by its bits. -/
inductive Number where
  | int (value : Int)
  | double (bits : UInt64)
  deriving DecidableEq, Repr

inductive Json where
  | null
  | bool (value : Bool)
  | num (value : Number)
  | str (value : String)
  | arr (items : List Json)
  | obj (members : List (String × Json))
  deriving Inhabited

abbrev Object := List (String × Json)

namespace Json

mutual

def decEq : (a b : Json) → Decidable (a = b)
  | null, null => isTrue rfl
  | bool a, bool b => decidable_of_iff (a = b) (by simp)
  | num a, num b => decidable_of_iff (a = b) (by simp)
  | str a, str b => decidable_of_iff (a = b) (by simp)
  | arr a, arr b => let := decEqItems a b; decidable_of_iff (a = b) (by simp)
  | obj a, obj b => let := decEqMembers a b; decidable_of_iff (a = b) (by simp)
  | null, bool _ | null, num _ | null, str _ | null, arr _ | null, obj _
  | bool _, null | bool _, num _ | bool _, str _ | bool _, arr _ | bool _, obj _
  | num _, null | num _, bool _ | num _, str _ | num _, arr _ | num _, obj _
  | str _, null | str _, bool _ | str _, num _ | str _, arr _ | str _, obj _
  | arr _, null | arr _, bool _ | arr _, num _ | arr _, str _ | arr _, obj _
  | obj _, null | obj _, bool _ | obj _, num _ | obj _, str _ | obj _, arr _ => isFalse nofun

def decEqItems : (a b : List Json) → Decidable (a = b)
  | [], [] => isTrue rfl
  | a :: as, b :: bs =>
    let := decEq a b
    let := decEqItems as bs
    decidable_of_iff (a = b ∧ as = bs) (by simp)
  | [], _ :: _ | _ :: _, [] => isFalse nofun

def decEqMembers : (a b : List (String × Json)) → Decidable (a = b)
  | [], [] => isTrue rfl
  | (k, a) :: as, (l, b) :: bs =>
    let := decEq a b
    let := decEqMembers as bs
    decidable_of_iff (k = l ∧ a = b ∧ as = bs) (by simp [and_assoc])
  | [], _ :: _ | _ :: _, [] => isFalse nofun

end

instance : DecidableEq Json := decEq

def isContainer : Json → Bool
  | arr _ | obj _ => true
  | _ => false

def object? : Json → Option Object
  | obj members => some members
  | _ => none

/-- Whether the value is an object. -/
def isObject (v : Json) : Bool := v.object?.isSome

/-- The objects among the elements of an array. -/
def objects (items : List Json) : List Object := items.filterMap object?

/-- The objects a tree holds at its top: itself, or the object elements of an array. -/
def nodes : Json → List Object
  | obj members => [members]
  | arr items => objects items
  | _ => []

end Json

end JsonSelect
