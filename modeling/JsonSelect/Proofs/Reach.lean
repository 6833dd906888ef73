import JsonSelect.Selector.Reach
import Mathlib.Tactic.Common

/-!
# What a descent leads to, by position

A step leads from an object to the value under a key, or from an array to an element. A descent
leads into a value that is an object, and into the objects at the positions of an array that its
subset covers (`Subset.Leads`). Copying and updating go by this (`Subset.mem_children`,
`Subset.updateChildren_arr`), since the window of a subset always ends within its array
(`Subset.window_stop_le`). The covered elements and the others are those at the positions that are
covered and not covered (`Window.slice_eq_filterMap`, `Window.remove_eq_filterMap`).
-/

namespace JsonSelect

inductive Step where
  | key (key : String)
  | item (index : Nat)
  deriving DecidableEq, Repr

namespace Window

variable {α : Type}

theorem covers_iff {w : Window} {i : Nat} : w.covers i ↔ w.start ≤ i ∧ i < w.stop := by
  simp [covers]

theorem getElem?_slice {w : Window} {items : List α} (h : w.stop ≤ items.length) (i : Nat) :
    (w.slice items)[i]? = if w.start + i < w.stop then items[w.start + i]? else none := by
  unfold slice
  rw [if_pos h, List.getElem?_drop, List.getElem?_take]

theorem mem_slice {w : Window} {items : List α} {x : α} (h : w.stop ≤ items.length) :
    x ∈ w.slice items ↔ ∃ i, w.covers i ∧ items[i]? = some x := by
  rw [List.mem_iff_getElem?]
  constructor
  · intro ⟨i, hi⟩
    rw [getElem?_slice h] at hi
    split at hi
    · next hlt => exact ⟨w.start + i, covers_iff.2 ⟨Nat.le_add_right _ _, hlt⟩, hi⟩
    · simp at hi
  · intro ⟨i, hc, hi⟩
    obtain ⟨hs, hlt⟩ := covers_iff.1 hc
    refine ⟨i - w.start, ?_⟩
    rw [getElem?_slice h, Nat.add_sub_cancel' hs, if_pos hlt, hi]

theorem update_eq_mapIdx {w : Window} {items : List α} (f : α → α) (hs : w.start ≤ w.stop)
    (h : w.stop ≤ items.length) :
    w.update f items = items.mapIdx fun i x => if w.covers i then f x else x := by
  refine List.ext_getElem? fun i => ?_
  have hbefore : (items.take w.start).length = w.start := by
    rw [List.length_take]
    omega
  have hinside : ((w.slice items).map f).length = w.stop - w.start := by
    rw [List.length_map, slice, if_pos h, List.length_drop, List.length_take]
    omega
  unfold update
  rw [if_pos h, List.getElem?_mapIdx, List.append_assoc]
  by_cases hl : i < w.start
  · have hc : ¬ w.covers i := fun hc => by
      have := covers_iff.1 hc
      omega
    rw [List.getElem?_append_left (by omega), List.getElem?_take_of_lt hl]
    simp [hc]
  · rw [List.getElem?_append_right (by omega), hbefore]
    by_cases hr : i < w.stop
    · have hc : w.covers i := covers_iff.2 ⟨by omega, hr⟩
      have hadd : w.start + (i - w.start) = i := by omega
      rw [List.getElem?_append_left (by omega), List.getElem?_map, getElem?_slice h, hadd,
        if_pos hr]
      simp [hc]
    · have hc : ¬ w.covers i := fun hc => by
        have := covers_iff.1 hc
        omega
      have hadd : w.stop + (i - w.start - (w.stop - w.start)) = i := by omega
      rw [List.getElem?_append_right (by omega), hinside, List.getElem?_drop, hadd]
      simp [hc]

theorem drop_take_eq_filterMap (w : Window) (i : Nat) (items : List α) :
    (items.take (w.stop - i)).drop (w.start - i) =
      (items.zipIdx i).filterMap fun x => if w.covers x.2 then some x.1 else none := by
  induction items generalizing i with
  | nil => simp
  | cons item items ih =>
    rw [List.zipIdx_cons, List.filterMap_cons, ← ih]
    by_cases hstop : i < w.stop
    · have hnext : w.stop - i = w.stop - (i + 1) + 1 := by omega
      rw [hnext, List.take_succ_cons]
      by_cases hstart : w.start ≤ i
      · have hc : w.covers i := covers_iff.2 ⟨hstart, hstop⟩
        have hzero : w.start - i = 0 ∧ w.start - (i + 1) = 0 := by omega
        rw [hzero.1, hzero.2, if_pos hc]
        rfl
      · have hc : ¬ w.covers i := fun hc => hstart (covers_iff.1 hc).1
        have hnext : w.start - i = w.start - (i + 1) + 1 := by omega
        rw [hnext, List.drop_succ_cons, if_neg hc]
    · have hc : ¬ w.covers i := fun hc => hstop (covers_iff.1 hc).2
      have hzero : w.stop - i = 0 ∧ w.stop - (i + 1) = 0 := by omega
      rw [hzero.1, hzero.2, if_neg hc]
      simp

theorem take_append_drop_eq_filterMap {w : Window} (hs : w.start ≤ w.stop) (i : Nat)
    (items : List α) : items.take (w.start - i) ++ items.drop (w.stop - i) =
      (items.zipIdx i).filterMap fun x => if w.covers x.2 then none else some x.1 := by
  induction items generalizing i with
  | nil => simp
  | cons item items ih =>
    rw [List.zipIdx_cons, List.filterMap_cons, ← ih]
    by_cases hstart : i < w.start
    · have hc : ¬ w.covers i := fun hc => absurd (covers_iff.1 hc).1 (by omega)
      have hnext : w.start - i = w.start - (i + 1) + 1 ∧ w.stop - i = w.stop - (i + 1) + 1 := by
        omega
      rw [hnext.1, hnext.2, List.take_succ_cons, List.drop_succ_cons, if_neg hc]
      rfl
    · have hzero : w.start - i = 0 ∧ w.start - (i + 1) = 0 := by omega
      rw [hzero.1, hzero.2, List.take_zero, List.take_zero, List.nil_append, List.nil_append]
      by_cases hstop : i < w.stop
      · have hc : w.covers i := covers_iff.2 ⟨by omega, hstop⟩
        have hnext : w.stop - i = w.stop - (i + 1) + 1 := by omega
        rw [hnext, List.drop_succ_cons, if_pos hc]
      · have hc : ¬ w.covers i := fun hc => hstop (covers_iff.1 hc).2
        have hzero : w.stop - i = 0 ∧ w.stop - (i + 1) = 0 := by omega
        rw [hzero.1, hzero.2, if_neg hc]
        rfl

theorem slice_eq_filterMap {w : Window} {items : List α} (h : w.stop ≤ items.length) :
    w.slice items = items.zipIdx.filterMap fun x => if w.covers x.2 then some x.1 else none := by
  unfold slice
  rw [if_pos h]
  exact w.drop_take_eq_filterMap 0 items

theorem remove_eq_filterMap {w : Window} {items : List α} (hs : w.start ≤ w.stop)
    (h : w.stop ≤ items.length) :
    w.remove items = items.zipIdx.filterMap fun x => if w.covers x.2 then none else some x.1 := by
  unfold remove
  rw [if_pos h]
  exact take_append_drop_eq_filterMap hs 0 items

theorem keep_eq_slice {w : Window} {items : List α} (h : w.stop ≤ items.length) :
    w.keep items = w.slice items := by
  unfold keep slice
  rw [if_pos h]
  split
  · next hempty =>
    have hle : w.stop - w.start = 0 := by simpa [isEmpty, size] using hempty
    refine (List.drop_eq_nil_of_le ?_).symm
    rw [List.length_take]
    omega
  · rfl

end Window

namespace Subset

theorem window_start_le_stop (s : Subset) (length : Nat) :
    (s.window length).start ≤ (s.window length).stop := by
  unfold window
  split
  · exact Nat.le_refl _
  · dsimp only
    split
    · exact Nat.le_refl _
    · dsimp only
      omega

theorem window_stop_le (s : Subset) (length : Nat) : (s.window length).stop ≤ length := by
  unfold window
  split
  · exact Nat.zero_le _
  · dsimp only
    split
    · exact Nat.zero_le _
    · dsimp only
      omega

/-- Whether a pick on an array of `length` elements takes in position `i`. -/
def takesIn (subset : Option Subset) (length i : Nat) : Bool :=
  match subset with
  | some s => (s.window length).covers i
  | none => true

theorem mem_covered {subset : Option Subset} {items : List Json} {x : Json} :
    x ∈ covered subset items ↔ ∃ i, takesIn subset items.length i ∧ items[i]? = some x := by
  cases subset with
  | none => simp [covered, takesIn, List.mem_iff_getElem?]
  | some s => exact Window.mem_slice (s.window_stop_le _)

theorem covered_eq_filterMap (subset : Option Subset) (items : List Json) :
    covered subset items = items.zipIdx.filterMap fun x =>
      if takesIn subset items.length x.2 then some x.1 else none := by
  cases subset with
  | none => simp [covered, takesIn]
  | some s => exact Window.slice_eq_filterMap (s.window_stop_le _)

theorem updateChildren_arr (subset : Option Subset) (f : Object → Object) (items : List Json) :
    updateChildren subset f (.arr items) =
      .arr (items.mapIdx fun i x =>
        if takesIn subset items.length i then updateItem f x else x) := by
  cases subset with
  | none =>
    refine congrArg Json.arr (List.ext_getElem? fun i => ?_)
    simp [takesIn]
  | some s =>
    rw [updateChildren, Window.update_eq_mapIdx _ (s.window_start_le_stop _) (s.window_stop_le _)]
    rfl

/-- A descent leads from a value to an object in it, by the steps `way`. -/
inductive Leads (subset : Option Subset) : Json → List Step → Object → Prop
  | obj {child : Object} : Leads subset (.obj child) [] child
  | arr {items : List Json} {i : Nat} {child : Object} (hi : items[i]? = some (.obj child))
      (hc : takesIn subset items.length i) : Leads subset (.arr items) [.item i] child

theorem object?_eq_some {v : Json} {child : Object} :
    v.object? = some child ↔ v = .obj child := by
  cases v <;> simp [Json.object?]

theorem mem_objects {items : List Json} {child : Object} :
    child ∈ Json.objects items ↔ .obj child ∈ items := by
  simp [Json.objects, object?_eq_some]

theorem mem_children {subset : Option Subset} {v : Json} {child : Object} :
    child ∈ children subset v ↔ ∃ way, Leads subset v way child := by
  cases v with
  | obj members =>
    constructor
    · intro h
      obtain rfl := List.mem_singleton.1 h
      exact ⟨[], .obj⟩
    · rintro ⟨way, ⟨⟩⟩
      exact .head _
  | arr items =>
    unfold children
    rw [mem_objects, mem_covered]
    constructor
    · intro ⟨i, hc, hi⟩
      exact ⟨[.item i], .arr hi hc⟩
    · rintro ⟨way, ⟨⟩ | ⟨hi, hc⟩⟩
      exact ⟨_, hc, hi⟩
  | _ =>
    refine iff_of_false List.not_mem_nil ?_
    rintro ⟨way, ⟨⟩⟩

end Subset

end JsonSelect
