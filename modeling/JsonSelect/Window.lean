/-!
# Windows

A window is a half-open stretch of the positions of an array. The operations that read, change or
remove the covered elements do so only when the window ends within the array; `keep` cuts the
array to what it shares with the window. The positions outside are `complement`.
-/

namespace JsonSelect

/-- The positions from `start` up to, and without, `stop`. -/
structure Window where
  start : Nat
  stop : Nat
  deriving DecidableEq, Repr

namespace Window

/-- The window that covers nothing. -/
def empty : Window := ⟨0, 0⟩

def size (w : Window) : Nat := w.stop - w.start

def isEmpty (w : Window) : Bool := w.size == 0

/-- Whether position `i` is covered. -/
def covers (w : Window) (i : Nat) : Bool := w.start ≤ i && i < w.stop

variable {α : Type}

/-- The covered elements, none if the window reaches beyond the array. -/
def slice (w : Window) (items : List α) : List α :=
  if w.stop ≤ items.length then (items.take w.stop).drop w.start else []

/-- The array without the covered elements. -/
def remove (w : Window) (items : List α) : List α :=
  if w.stop ≤ items.length then items.take w.start ++ items.drop w.stop else items

/-- The array with other elements in the place of the covered ones. -/
def replace (w : Window) (covered items : List α) : List α :=
  if w.stop ≤ items.length then items.take w.start ++ covered ++ items.drop w.stop else items

/-- The array with `f` applied to each covered element. -/
def update (w : Window) (f : α → α) (items : List α) : List α :=
  if w.stop ≤ items.length then items.take w.start ++ (w.slice items).map f ++ items.drop w.stop
  else items

/-- What is left when the elements outside the window are removed. -/
def keep (w : Window) (items : List α) : List α :=
  if w.isEmpty then [] else (items.take w.stop).drop w.start

/-- The positions of an array of `length` elements that are not covered. -/
def complement (w : Window) (length : Nat) : List Nat :=
  (List.range length).filter fun i => !w.covers i

/-- How many positions of an array of `length` elements a window of this size leaves over. -/
def complementCount (w : Window) (length : Nat) : Nat := length - w.size

end Window

end JsonSelect
