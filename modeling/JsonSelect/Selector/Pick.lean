import JsonSelect.Subset

/-!
# Picks

A pick is one token of a selector, with the field name and the subset it stands for. An address
names a container by the tokens that lead to it, joined by dots; the root is the empty address.
-/

namespace JsonSelect

/-- A field is taken as a whole, a descent leads into a container. -/
inductive Role where
  | field
  | descend
  deriving DecidableEq, Repr

structure Pick where
  token : String
  name : String
  subset : Option Subset
  deriving DecidableEq, Repr

/-- The pick a token writes: its name has lost the suffix of a subset. -/
def Pick.ofToken (token : String) : Except Fault Pick := do
  match ← Subset.ofToken? token with
  | some (name, subset) => return ⟨token, name, some subset⟩
  | none => return ⟨token, token, none⟩

namespace Address

/-- The address one segment below `address`. -/
def child (address segment : String) : String :=
  if address.isEmpty then segment else address ++ "." ++ segment

/-- The address of a list of tokens, from the root on. -/
def ofPath (path : List String) : String := String.intercalate "." path

/-- Whether `other` is `address` or lies below it. -/
def isAtOrBelow (address other : String) : Bool :=
  other == address || (address ++ ".").toList.isPrefixOf other.toList

end Address

end JsonSelect
