import JsonSelect.Proofs.Reach
import Mathlib.Data.List.Basic

/-!
# Where windows lie

The window of a subset covers the positions of the array that lie between the first and the last one
that its endpoints name, seen from the front (`Subset.covers_window_iff`).

The same arithmetic in signed 64 bits has no result where one of its steps overflows (`Checked`).
No step does when the array has fewer than `2 ^ 63` elements (`Subset.window64_eq`), so a subset
covers what its written positions say, up to the least and the greatest of them
(`Subset.window_ofPositions`).
-/

namespace JsonSelect

namespace Subset

/-- The position that the start names, which may lie outside the array. -/
def first (s : Subset) (length : Nat) : Int := (s.start.map (fromFront length)).getD 0

/-- The position that the end names, which may lie outside the array. -/
def last (s : Subset) (length : Nat) : Int := (s.stop.map (fromFront length)).getD (length - 1)

theorem window_eq {s : Subset} {length : Nat} (h : length ≠ 0) : s.window length =
    if min ((length : Int) - 1) (s.last length) < max 0 (s.first length) then .empty
    else ⟨(max 0 (s.first length)).toNat,
      (min ((length : Int) - 1) (s.last length)).toNat + 1⟩ :=
  if_neg h

theorem covers_window_iff {s : Subset} {length i : Nat} :
    (s.window length).covers i ↔ i < length ∧ s.first length ≤ i ∧ i ≤ s.last length := by
  rw [Window.covers_iff]
  by_cases h : length = 0
  · subst h
    simp [window, Window.empty]
  · rw [window_eq h]
    split
    · simp only [Window.empty]
      omega
    · dsimp only
      omega

/-- The window covers the elements from the first to the last position, as far as there are any. -/
theorem slice_window {α : Type} (s : Subset) (items : List α) :
    (s.window items.length).slice items = items.zipIdx.filterMap fun x =>
      if s.first items.length ≤ x.2 ∧ x.2 ≤ s.last items.length then some x.1 else none := by
  rw [Window.slice_eq_filterMap (s.window_stop_le _)]
  refine List.filterMap_congr fun x hx => if_congr ?_ rfl rfl
  have hlt : x.2 < items.length := List.snd_lt_of_mem_zipIdx hx
  rw [covers_window_iff]
  exact ⟨And.right, fun h => ⟨hlt, h⟩⟩

end Subset

theorem inSigned64_iff {n : Int} :
    Text.inSigned64 n ↔ -(Text.signedBound64 : Int) ≤ n ∧ n < Text.signedBound64 := by
  simp [Text.inSigned64]

/-- A computation in signed 64 bits, which has no result where a step overflows. -/
abbrev Checked := ExceptT Fault Option

namespace Checked

variable {α β : Type}

/-- What a step of the arithmetic gives. -/
def fit (n : Int) : Checked Int := ExceptT.lift ((some n).filter Text.inSigned64)

def ofExcept (result : Except Fault α) : Checked α := ExceptT.mk (some result)

theorem fit_eq {n : Int} (hn : Text.inSigned64 n) : fit n = pure n := by
  unfold fit
  rw [Option.filter_some_pos hn]
  rfl

theorem fit_bind {n : Int} (hn : Text.inSigned64 n) (f : Int → Checked β) :
    (fit n >>= f) = f n := by
  rw [fit_eq hn, pure_bind]

theorem ofExcept_bind (a : α) (f : α → Checked β) : (ofExcept (.ok a) >>= f) = f a := rfl

end Checked

namespace Subset

open Checked

def offset64 (position : Int) : Checked Int :=
  if position > 0 then fit (position - 1) else pure position

def fromFront64 (length offset : Int) : Checked Int :=
  if offset < 0 then fit (length + offset) else pure offset

/-- The position that an endpoint names, `free` if the endpoint is open. -/
def endpoint64 (length free : Int) : Option Int → Checked Int
  | some offset => fromFront64 length offset
  | none => pure free

/-- The window of a subset on an array of `length` elements, computed in signed 64 bits. -/
def window64 (s : Subset) (length : Nat) : Checked Window :=
  if length = 0 then return .empty
  else do
    let length ← fit length
    let top ← fit (length - 1)
    let first ← endpoint64 length 0 s.start
    let last ← endpoint64 length top s.stop
    if min top last < max 0 first then return .empty
    else return ⟨(max 0 first).toNat, (← fit (min top last + 1)).toNat⟩

theorem offset64_eq {position : Int} (h : Text.inSigned64 position) :
    offset64 position = pure (offset position) := by
  unfold offset64 offset
  split
  · refine fit_eq (inSigned64_iff.2 ?_)
    have := inSigned64_iff.1 h
    omega
  · rfl

theorem fromFront64_eq {length : Nat} {offset : Int} (hl : length < Text.signedBound64)
    (h : Text.inSigned64 offset) : fromFront64 length offset = pure (fromFront length offset) := by
  unfold fromFront64 fromFront
  split
  · refine fit_eq (inSigned64_iff.2 ?_)
    have := inSigned64_iff.1 h
    omega
  · rfl

theorem endpoint64_eq {length : Nat} {free : Int} {endpoint : Option Int}
    (hl : length < Text.signedBound64) (h : ∀ n ∈ endpoint, Text.inSigned64 n) :
    endpoint64 length free endpoint = pure ((endpoint.map (fromFront length)).getD free) := by
  cases endpoint with
  | none => rfl
  | some offset => exact fromFront64_eq hl (h offset rfl)

/-- No step of the arithmetic overflows, not even for the least of all offsets. -/
theorem window64_eq {s : Subset} {length : Nat} (hl : length < Text.signedBound64)
    (hstart : ∀ n ∈ s.start, Text.inSigned64 n) (hstop : ∀ n ∈ s.stop, Text.inSigned64 n) :
    s.window64 length = pure (s.window length) := by
  by_cases h : length = 0
  · rw [window64, if_pos h, window, if_pos h]
  · have hlength : Text.inSigned64 length := inSigned64_iff.2 (by omega)
    have htop : Text.inSigned64 (length - 1) := inSigned64_iff.2 (by omega)
    rw [window64, if_neg h, fit_bind hlength, fit_bind htop, endpoint64_eq hl hstart, pure_bind,
      endpoint64_eq hl hstop, pure_bind, ← first, ← last, window_eq h]
    split
    · rfl
    · next hle =>
      have hend : Text.inSigned64 (min ((length : Int) - 1) (s.last length) + 1) :=
        inSigned64_iff.2 (by omega)
      rw [fit_bind hend]
      refine congrArg pure (congrArg (Window.mk _) ?_)
      omega

end Subset

/-- The window covers what lies between two indices, as far as they are within an array of `length`
elements. -/
structure Window.Spans (w : Window) (length : Nat) (first last : Int) : Prop where
  covers_iff : ∀ i : Nat, w.covers i ↔ i < length ∧ first ≤ i ∧ i ≤ last
  contiguous : ∀ i j k : Nat, i ≤ j → j ≤ k → w.covers i → w.covers k → w.covers j
  isEmpty_iff : w.isEmpty ↔ ∀ i, ¬ w.covers i
  eq_empty : w.isEmpty → w = .empty

namespace Window

theorem contiguous_covers {w : Window} {i j k : Nat} (hij : i ≤ j) (hjk : j ≤ k)
    (hi : w.covers i) (hk : w.covers k) : w.covers j :=
  covers_iff.2 ⟨Nat.le_trans (covers_iff.1 hi).1 hij, Nat.lt_of_le_of_lt hjk (covers_iff.1 hk).2⟩

theorem isEmpty_iff_not_covers {w : Window} : w.isEmpty ↔ ∀ i, ¬ w.covers i := by
  have hsize : w.isEmpty ↔ w.stop ≤ w.start := by simp [isEmpty, size, Nat.sub_eq_zero_iff_le]
  rw [hsize]
  constructor
  · intro hle i hi
    have := covers_iff.1 hi
    omega
  · intro h
    by_contra hlt
    exact h w.start (covers_iff.2 ⟨Nat.le_refl _, Nat.not_le.1 hlt⟩)

end Window

namespace Subset

open Checked

/-- The index that a written position names in an array of `length` elements: positions count from
1, zero stands for the first element, and a negative one counts from the end. -/
def index (length : Nat) (position : Int) : Int :=
  if position > 0 then position - 1 else if position = 0 then 0 else length + position

theorem fromFront_offset (length : Nat) (position : Int) :
    fromFront length (offset position) = index length position := by
  unfold fromFront offset index
  split_ifs <;> omega

section Positions

variable {a b : Option Int} {length : Nat}

theorem map_offset (a : Option Int) (length : Nat) :
    (a.map offset).map (fromFront length) = a.map (index length) := by
  rw [Option.map_map]
  exact congrArg (Option.map · a) (funext (fromFront_offset length))

theorem first_ofPositions :
    (ofPositions a b).first length = (a.map (index length)).getD 0 := by
  rw [first, ofPositions, map_offset]

theorem last_ofPositions :
    (ofPositions a b).last length = (b.map (index length)).getD (length - 1) := by
  rw [last, ofPositions, map_offset]

/-- A window that covers nothing starts at the front. -/
theorem window_eq_empty {s : Subset} (h : (s.window length).isEmpty) :
    s.window length = .empty := by
  by_cases hl : length = 0
  · exact if_pos hl
  · have hcovers := Window.isEmpty_iff_not_covers.1 h
    rw [window_eq hl] at hcovers ⊢
    refine if_pos ?_
    by_contra hle
    rw [if_neg hle] at hcovers
    refine hcovers (max 0 (s.first length)).toNat (Window.covers_iff.2 ⟨Nat.le_refl _, ?_⟩)
    dsimp only
    omega

theorem spans_window (s : Subset) (length : Nat) :
    (s.window length).Spans length (s.first length) (s.last length) where
  covers_iff _ := covers_window_iff
  contiguous _ _ _ := Window.contiguous_covers
  isEmpty_iff := Window.isEmpty_iff_not_covers
  eq_empty := window_eq_empty

/-- The stored form of written positions, computed in signed 64 bits. -/
def ofPositions64 (start stop : Option Int) : Checked Subset := do
  return ⟨← start.mapM offset64, ← stop.mapM offset64⟩

theorem mapM_offset64 (h : ∀ n ∈ a, Text.inSigned64 n) :
    a.mapM offset64 = pure (a.map offset) := by
  cases a with
  | none => rfl
  | some n =>
    rw [Option.mapM_some, offset64_eq (h n rfl)]
    rfl

theorem ofPositions64_eq (ha : ∀ n ∈ a, Text.inSigned64 n) (hb : ∀ n ∈ b, Text.inSigned64 n) :
    ofPositions64 a b = pure (ofPositions a b) := by
  rw [ofPositions64, mapM_offset64 ha, pure_bind, mapM_offset64 hb, pure_bind]
  rfl

theorem inSigned64_offset {position : Int} (h : Text.inSigned64 position) :
    Text.inSigned64 (offset position) := by
  rw [inSigned64_iff] at h ⊢
  unfold offset
  split <;> omega

theorem inSigned64_of_mem_map_offset (h : ∀ n ∈ a, Text.inSigned64 n) :
    ∀ n ∈ a.map offset, Text.inSigned64 n := by
  intro n hn
  obtain ⟨position, hposition, rfl⟩ := Option.map_eq_some_iff.1 hn
  exact inSigned64_offset (h position hposition)

end Positions

/-- The window between two written positions, each open or of signed 64 bits, covers what lies
between the indices that they name, and no step to it overflows. -/
theorem window_ofPositions {a b : Option Int} {length : Nat} (hl : length < Text.signedBound64)
    (ha : ∀ n ∈ a, Text.inSigned64 n) (hb : ∀ n ∈ b, Text.inSigned64 n) :
    ((ofPositions a b).window length).Spans length ((a.map (index length)).getD 0)
        ((b.map (index length)).getD (length - 1))
      ∧ (ofPositions64 a b >>= fun s => s.window64 length) =
        pure ((ofPositions a b).window length) := by
  constructor
  · have hspans := spans_window (ofPositions a b) length
    rwa [first_ofPositions, last_ofPositions] at hspans
  · rw [ofPositions64_eq ha hb, pure_bind]
    exact window64_eq hl (inSigned64_of_mem_map_offset ha) (inSigned64_of_mem_map_offset hb)

/-- From the least position to the greatest, in the longest array. -/
theorem window_ofPositions_extreme :
    ∃ (a b : Int) (length : Nat), a = -9223372036854775808 ∧ b = 9223372036854775807
      ∧ length = 9223372036854775807 ∧ length < Text.signedBound64 ∧ Text.inSigned64 a
      ∧ Text.inSigned64 b
      ∧ ((ofPositions (some a) (some b)).window length).Spans length (-1) 9223372036854775806
      ∧ (ofPositions64 (some a) (some b) >>= fun s => s.window64 length) =
        pure ⟨0, 9223372036854775807⟩ := by
  have hl : 9223372036854775807 < Text.signedBound64 := by decide
  have ha : Text.inSigned64 (-9223372036854775808) := by decide
  have hb : Text.inSigned64 9223372036854775807 := by decide
  obtain ⟨hspans, hchecked⟩ := window_ofPositions (a := some (-9223372036854775808))
    (b := some 9223372036854775807) hl (by rintro _ ⟨⟩; exact ha) (by rintro _ ⟨⟩; exact hb)
  exact ⟨_, _, _, rfl, rfl, rfl, hl, ha, hb, hspans, hchecked⟩

end Subset

end JsonSelect
