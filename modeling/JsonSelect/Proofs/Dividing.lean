import JsonSelect.Proofs.Bounds
import Mathlib.Data.List.Induction
import Mathlib.Data.List.Sort

/-!
# Windows divide arrays

A window is sized for one array and may meet another. Where it fits, its elements and the others
are the array, each once and in order (`Window.Divides`). Where it reaches beyond, nothing is read
or removed, and keeping only drops what stands in front of it (`Window.PassesBy`). Either way
nothing is lost on the way from one array to another, and no stretch is deleted that is not one of
the array (`Window.Moves`).
-/

namespace JsonSelect

namespace Window

variable {α : Type}

/-- The covered positions, in order. -/
def positions (w : Window) : List Nat := List.range' w.start w.size

/-- The elements at some positions of an array. -/
def elementsAt (items : List α) (positions : List Nat) : List α := positions.filterMap (items[·]?)

/-- The target with the covered elements behind it. -/
def extractInto (w : Window) (items target : List α) : List α := target ++ w.slice items

/-- The array without the stretch from `start` up to `stop`, if that is a stretch of it. -/
def drain? (start stop : Nat) (items : List α) : Option (List α) :=
  if start ≤ stop ∧ stop ≤ items.length then some (items.take start ++ items.drop stop) else none

def remove? (w : Window) (items : List α) : Option (List α) :=
  if w.stop ≤ items.length then drain? w.start w.stop items else some items

def keep? (w : Window) (items : List α) : Option (List α) :=
  if w.isEmpty then some []
  else drain? 0 (min w.start (items.take w.stop).length) (items.take w.stop)

/-- What a window makes of an array that it fits. -/
structure Divides (w : Window) (items : List α) : Prop where
  slice_eq : w.slice items = elementsAt items w.positions
  extractInto_eq : ∀ target, w.extractInto items target = target ++ elementsAt items w.positions
  remove_eq : w.remove items = elementsAt items (w.complement items.length)
  keep_eq : w.keep items = w.slice items
  perm_range : (w.positions ++ w.complement items.length).Perm (List.range items.length)
  complementCount_eq : w.complementCount items.length = (w.complement items.length).length
  size_add : w.size + w.complementCount items.length = items.length

/-- What a window makes of an array that it reaches beyond. -/
structure PassesBy (w : Window) (items : List α) : Prop where
  slice_eq : w.slice items = []
  extractInto_eq : ∀ target, w.extractInto items target = target
  remove_eq : w.remove items = items
  keep_eq : w.keep items = elementsAt items
    (List.range' (min w.start items.length) (items.length - min w.start items.length))

/-- What is read of an array and what is left of it stand in its order, no stretch is deleted that
it does not have, and what is extracted and then removed has moved to the target. -/
structure Moves (w : Window) (items : List α) : Prop where
  slice_sublist : (w.slice items).Sublist items
  remove_sublist : (w.remove items).Sublist items
  keep_sublist : (w.keep items).Sublist items
  complement_sublist : (w.complement items.length).Sublist (List.range items.length)
  remove?_eq : w.remove? items = some (w.remove items)
  keep?_eq : w.keep? items = some (w.keep items)
  extractInto_remove_perm : ∀ target,
    (w.extractInto items target ++ w.remove items).Perm (target ++ items)

theorem elementsAt_range (items : List α) :
    elementsAt items (List.range items.length) = items := by
  induction items with
  | nil => rfl
  | cons item items ih =>
    have htail : elementsAt (item :: items) ((List.range items.length).map Nat.succ) =
        elementsAt items (List.range items.length) := by
      unfold elementsAt
      rw [List.filterMap_map]
      rfl
    rw [List.length_cons, List.range_succ_eq_map]
    exact congrArg (item :: ·) (htail.trans ih)

theorem elementsAt_append (items : List α) (ps qs : List Nat) :
    elementsAt items (ps ++ qs) = elementsAt items ps ++ elementsAt items qs :=
  List.filterMap_append

/-- The elements whose positions are chosen, as they are met along the array. -/
theorem filterMap_zipIdx (items : List α) (p : Nat → Bool) :
    (items.zipIdx.filterMap fun x => if p x.2 then some x.1 else none) =
      elementsAt items ((List.range items.length).filter p) := by
  induction items using List.reverseRecOn with
  | nil => rfl
  | append_singleton items item ih =>
    have hbefore : elementsAt (items ++ [item]) ((List.range items.length).filter p) =
        elementsAt items ((List.range items.length).filter p) := by
      refine List.filterMap_congr fun i hi => ?_
      exact List.getElem?_append_left (List.mem_range.1 (List.mem_of_mem_filter hi))
    rw [List.zipIdx_append, List.filterMap_append, ih, List.length_append, List.length_singleton,
      List.range_succ, List.filter_append, elementsAt_append, hbefore]
    refine congrArg _ ?_
    cases hp : p items.length <;> simp [hp, elementsAt]

theorem filter_range_sublist (p : Nat → Bool) (items : List α) :
    (elementsAt items ((List.range items.length).filter p)).Sublist items := by
  have h : (elementsAt items ((List.range items.length).filter p)).Sublist
      (elementsAt items (List.range items.length)) := List.filter_sublist.filterMap _
  rwa [elementsAt_range] at h

theorem filter_covers_range (w : Window) (length : Nat) :
    (List.range length).filter w.covers =
      List.range' (min w.start length) (min w.stop length - min w.start length) := by
  refine (List.pairwise_lt_range.filter _).eq_of_mem_iff List.pairwise_lt_range' fun i => ?_
  rw [List.mem_filter, List.mem_range, covers_iff, List.mem_range'_1]
  omega

section Fits

variable {w : Window} {length : Nat}

theorem filter_covers_range_of_le (hs : w.start ≤ w.stop) (h : w.stop ≤ length) :
    (List.range length).filter w.covers = w.positions := by
  have hmin : min w.start length = w.start ∧ min w.stop length = w.stop := by omega
  rw [filter_covers_range, hmin.1, hmin.2]
  rfl

theorem positions_append_complement_perm (hs : w.start ≤ w.stop) (h : w.stop ≤ length) :
    (w.positions ++ w.complement length).Perm (List.range length) := by
  rw [← filter_covers_range_of_le hs h]
  exact List.filter_append_perm _ _

theorem size_add_length_complement (hs : w.start ≤ w.stop) (h : w.stop ≤ length) :
    w.size + (w.complement length).length = length := by
  have hlength := (positions_append_complement_perm hs h).length_eq
  rwa [List.length_append, positions, List.length_range', List.length_range] at hlength

theorem complementCount_eq (hs : w.start ≤ w.stop) (h : w.stop ≤ length) :
    w.complementCount length = (w.complement length).length := by
  have hadd := size_add_length_complement hs h
  unfold complementCount
  omega

end Fits

variable {w : Window} {items : List α}

theorem slice_eq_elementsAt (hs : w.start ≤ w.stop) (h : w.stop ≤ items.length) :
    w.slice items = elementsAt items w.positions := by
  rw [slice_eq_filterMap h, filterMap_zipIdx, filter_covers_range_of_le hs h]

theorem remove_eq_elementsAt (hs : w.start ≤ w.stop) (h : w.stop ≤ items.length) :
    w.remove items = elementsAt items (w.complement items.length) := by
  rw [remove_eq_filterMap hs h, complement, ← filterMap_zipIdx]
  refine List.filterMap_congr fun x _ => ?_
  cases w.covers x.2 <;> rfl

theorem divides (hs : w.start ≤ w.stop) (h : w.stop ≤ items.length) : w.Divides items where
  slice_eq := slice_eq_elementsAt hs h
  extractInto_eq target := congrArg (target ++ ·) (slice_eq_elementsAt hs h)
  remove_eq := remove_eq_elementsAt hs h
  keep_eq := keep_eq_slice h
  perm_range := positions_append_complement_perm hs h
  complementCount_eq := complementCount_eq hs h
  size_add := by rw [complementCount_eq hs h, size_add_length_complement hs h]

theorem slice_of_lt (h : items.length < w.stop) : w.slice items = [] := if_neg (Nat.not_le.2 h)

theorem remove_of_lt (h : items.length < w.stop) : w.remove items = items :=
  if_neg (Nat.not_le.2 h)

/-- A window beyond an array is not empty if no empty window is. -/
theorem keep_of_lt (hempty : w.isEmpty → w = .empty) (h : items.length < w.stop) :
    w.keep items = items.drop w.start := by
  have hfull : ¬ w.isEmpty := fun he => by
    rw [hempty he] at h
    exact absurd h (Nat.not_lt_zero _)
  rw [keep, if_neg hfull, List.take_of_length_le (Nat.le_of_lt h)]

theorem drop_eq_elementsAt (start : Nat) (items : List α) : items.drop start = elementsAt items
    (List.range' (min start items.length) (items.length - min start items.length)) := by
  have h := drop_take_eq_filterMap ⟨start, max start items.length⟩ 0 items
  have hmin : min (max start items.length) items.length = items.length := by omega
  rw [filterMap_zipIdx, filter_covers_range, hmin] at h
  rw [← h]
  exact congrArg (List.drop start) (List.take_of_length_le (Nat.le_max_right _ _)).symm

theorem passesBy (hempty : w.isEmpty → w = .empty) (h : items.length < w.stop) :
    w.PassesBy items where
  slice_eq := slice_of_lt h
  extractInto_eq target := by rw [extractInto, slice_of_lt h, List.append_nil]
  remove_eq := remove_of_lt h
  keep_eq := by rw [keep_of_lt hempty h, drop_eq_elementsAt]

theorem keep_sublist (w : Window) (items : List α) : (w.keep items).Sublist items := by
  unfold keep
  split
  · exact List.nil_sublist _
  · exact (List.drop_sublist _ _).trans (List.take_sublist _ _)

theorem remove?_eq (hs : w.start ≤ w.stop) : w.remove? items = some (w.remove items) := by
  unfold remove? remove
  split
  · next h => exact if_pos ⟨hs, h⟩
  · rfl

theorem keep?_eq (w : Window) (items : List α) : w.keep? items = some (w.keep items) := by
  unfold keep? keep
  split
  · rfl
  · rw [drain?, if_pos ⟨Nat.zero_le _, Nat.min_le_right _ _⟩, List.take_zero, List.nil_append]
    rcases Nat.le_total w.start (items.take w.stop).length with h | h
    · rw [Nat.min_eq_left h]
    · rw [Nat.min_eq_right h, List.drop_length, List.drop_eq_nil_of_le h]

theorem Divides.slice_append_remove_perm (h : w.Divides items) :
    (w.slice items ++ w.remove items).Perm items := by
  have hperm : (elementsAt items (w.positions ++ w.complement items.length)).Perm
      (elementsAt items (List.range items.length)) := h.perm_range.filterMap _
  rwa [elementsAt_range, elementsAt_append, ← h.slice_eq, ← h.remove_eq] at hperm

theorem slice_append_remove_perm (hs : w.start ≤ w.stop) :
    (w.slice items ++ w.remove items).Perm items := by
  rcases Nat.lt_or_ge items.length w.stop with h | h
  · rw [slice_of_lt h, remove_of_lt h]
    exact .refl _
  · exact (divides hs h).slice_append_remove_perm

theorem slice_sublist (w : Window) (items : List α) : (w.slice items).Sublist items := by
  unfold slice
  split
  · exact (List.drop_sublist _ _).trans (List.take_sublist _ _)
  · exact List.nil_sublist _

theorem remove_sublist (hs : w.start ≤ w.stop) : (w.remove items).Sublist items := by
  rcases Nat.lt_or_ge items.length w.stop with h | h
  · rw [remove_of_lt h]
  · rw [remove_eq_elementsAt hs h]
    exact filter_range_sublist _ items

theorem moves (hs : w.start ≤ w.stop) : w.Moves items where
  slice_sublist := slice_sublist w items
  remove_sublist := remove_sublist hs
  keep_sublist := keep_sublist w items
  complement_sublist := List.filter_sublist
  remove?_eq := remove?_eq hs
  keep?_eq := keep?_eq w items
  extractInto_remove_perm target := by
    rw [extractInto, List.append_assoc]
    exact (slice_append_remove_perm hs).append_left target

end Window

namespace Subset

/-- The window of a subset, sized for any length, on an array of any other. -/
theorem window_divides {α : Type} (s : Subset) (length : Nat) (items : List α) :
    ((s.window length).stop ≤ items.length → (s.window length).Divides items)
      ∧ (items.length < (s.window length).stop → (s.window length).PassesBy items)
      ∧ (s.window length).Moves items :=
  ⟨Window.divides (s.window_start_le_stop length), Window.passesBy window_eq_empty,
    Window.moves (s.window_start_le_stop length)⟩

/-- Sized for five elements, the window fits six and reaches beyond three. -/
theorem window_divides_stale :
    ∃ w, w = (ofPositions (some 2) (some (-2))).window 5 ∧ w = ⟨1, 4⟩
      ∧ w.stop ≤ ['a', 'b', 'c', 'd', 'e', 'f'].length
      ∧ w.remove ['a', 'b', 'c', 'd', 'e', 'f'] = ['a', 'e', 'f']
      ∧ w.keep ['a', 'b', 'c', 'd', 'e', 'f'] = ['b', 'c', 'd']
      ∧ w.complementCount 6 = 3
      ∧ ['a', 'b', 'c'].length < w.stop ∧ w.remove ['a', 'b', 'c'] = ['a', 'b', 'c']
      ∧ w.keep ['a', 'b', 'c'] = ['b', 'c'] := by
  obtain ⟨hfits, -, -⟩ := window_divides (ofPositions (some 2) (some (-2))) 5
    ['a', 'b', 'c', 'd', 'e', 'f']
  obtain ⟨-, hstale, -⟩ := window_divides (ofPositions (some 2) (some (-2))) 5 ['a', 'b', 'c']
  have hfits := hfits (by decide)
  have hstale := hstale (by decide)
  exact ⟨_, rfl, by decide, by decide, hfits.remove_eq, hfits.keep_eq, by decide, by decide,
    hstale.remove_eq, hstale.keep_eq⟩

end Subset

end JsonSelect
