import JsonSelect.Selector.Basic

/-!
# The places of a selector

Every occupied place of a selector with the selector found there (`Selector.places`), and the same
by address (`Selector.atAddress`, `Selector.addresses`). `Selector.sharedCount` counts the addresses
at or below one; for the address of a descent it is the count that `Selector.arrange` orders by.
-/

namespace JsonSelect.Selector

/-- The occupied places below the root, which itself is at `place`. -/
def placesBelow (place : List String) : Selector → List (List String × Selector)
  | nil => []
  | field _ rest => rest.placesBelow place
  | descend pick inner rest =>
    let below := place ++ [pick.token]
    (if inner.isEmpty then [] else (below, inner) :: inner.placesBelow below)
      ++ rest.placesBelow place

/-- The occupied places, each before those below it. -/
def places (s : Selector) : List (List String × Selector) :=
  if s.isEmpty then [] else ([], s) :: s.placesBelow []

/-- The selector at each occupied place, by address. -/
def index (s : Selector) : List (String × Selector) :=
  s.places.map fun (place, inner) => (Address.ofPath place, inner)

/-- The addresses of the occupied places, in ascending order. -/
def addresses (s : Selector) : List String :=
  (s.index.map (·.1)).mergeSort fun a b => decide (a ≤ b)

/-- The selector at an address; it is empty where no place is occupied. -/
def atAddress (s : Selector) (address : String) : Selector := (s.index.lookup address).getD nil

def sharedCount (s : Selector) (address : String) : Nat :=
  s.index.countP fun (other, _) => Address.isAtOrBelow address other

end JsonSelect.Selector
