import JsonSelect.Proofs.Bounds
import JsonSelect.Proofs.Numerals
import JsonSelect.Proofs.Stages

/-!
# Brackets of a root

A bracket narrows a tree to one of its objects, counted from 0 or, if negative, from the end, or to
the array of those between two of them. An index outside is a fault, and a fault at the start of a
range is found before its end is read (`Root.Narrows`, `Root.narrows_project`). The range is what a
subset covers whose positions, counted from 1, are one more.
-/

namespace JsonSelect

namespace Root

open Text

/-- Whether an index names an element of a list of `length` elements. -/
def InRange (length : Nat) (index : Int) : Prop := -(length : Int) ≤ index ∧ index < length

instance {length : Nat} {index : Int} : Decidable (InRange length index) :=
  inferInstanceAs (Decidable (_ ∧ _))

theorem toList_bracket (s : String) : ("[" ++ s ++ "]").toList = '[' :: (s.toList ++ [']']) := by
  simp

theorem not_allBlank_bracket (s : String) : allBlank ("[" ++ s ++ "]") = false := by
  rw [allBlank, toList_bracket]
  rfl

theorem strip_bracket (cs : List Char) : strip ('[' :: (cs ++ [']'])) = '[' :: (cs ++ [']']) := by
  refine strip_eq_self (fun c hc => ?_) fun c hc => ?_
  · obtain rfl := Option.some.inj hc
    rfl
  · have hlast : ('[' :: (cs ++ [']'])).getLast? = some ']' := by
      rw [← List.cons_append, List.getLast?_append]
      rfl
    obtain rfl := Option.some.inj (hlast.symm.trans hc)
    rfl

theorem parts_bracket {s : String} (h : ']' ∉ s.toList) :
    parts ("[" ++ s ++ "]") = .ok ⟨some s.toList, ""⟩ := by
  have hdrop : (s.toList ++ [']']).dropWhile (· != ']') = [']'] := dropWhile_ne_append h
  have htake : (s.toList ++ [']']).takeWhile (· != ']') = s.toList := takeWhile_ne_append h
  unfold parts
  rw [toList_bracket, strip_bracket]
  simp only [hdrop, htake]
  rfl

theorem not_mem_of_writes {s : String} {n : Option Int} (h : Writes s n) :
    ']' ∉ s.toList ∧ ':' ∉ s.toList := by
  constructor <;> intro hc <;> exact absurd (h.isBlank_or hc) (by decide)

theorem readIndex_eq_ok {cs : List Char} {n : Int} (h : readInteger? (strip cs) = some n) :
    readIndex cs = .ok (some n) := by
  unfold readIndex
  dsimp only
  split
  · next hempty =>
    rw [List.isEmpty_iff.1 hempty] at h
    exact absurd h nofun
  · rw [h]

theorem readIndex_of_writes {s : String} {n : Option Int} (h : Writes s n) :
    readIndex s.toList = .ok n := by
  cases h with
  | blank h =>
    unfold readIndex
    rw [strip_eq_nil (List.all_eq_true.1 h)]
    rfl
  | decimal hbefore hn hbehind =>
    exact readIndex_eq_ok (readInteger?_strip_decimal hbefore hn hbehind)

theorem fromFront_iff {length : Nat} {index : Int} :
    0 ≤ Subset.fromFront length index ∧ Subset.fromFront length index < length ↔
      InRange length index := by
  unfold Subset.fromFront InRange
  split <;> omega

theorem position_of_inRange {length : Nat} {index : Int} (h : InRange length index) :
    ∃ i : Fin length, position index length = .ok i ∧ (i : Int) = Subset.fromFront length index :=
  have hrange := fromFront_iff.2 h
  ⟨_, dif_pos hrange, Int.toNat_of_nonneg hrange.1⟩

theorem position_of_not_inRange {length : Nat} {index : Int} (h : ¬ InRange length index) :
    position index length = .error (.rootOutOfBounds index length) :=
  dif_neg (mt fromFront_iff.1 h)

section Endpoint

variable {length : Nat} {cs : List Char}

theorem endpoint_of_error {fault : Fault} (h : readIndex cs = .error fault) :
    endpoint cs length = .error fault := by
  rw [endpoint, h]
  rfl

theorem endpoint_of_not_inRange {n : Int} (h : readIndex cs = .ok (some n))
    (hn : ¬ InRange length n) : endpoint cs length = .error (.rootOutOfBounds n length) := by
  rw [endpoint, h, ok_bind]
  dsimp only
  rw [position_of_not_inRange hn]
  rfl

/-- An endpoint in range stands for its position from the front. -/
theorem endpoint_of_inRange {n : Option Int} (h : readIndex cs = .ok n)
    (hn : ∀ i ∈ n, InRange length i) : ∃ i, endpoint cs length = .ok i
      ∧ (i.map fun i : Fin length => (i : Int)) = n.map (Subset.fromFront length) := by
  rw [endpoint, h, ok_bind]
  cases n with
  | none => exact ⟨none, rfl, rfl⟩
  | some n =>
    obtain ⟨i, hposition, hi⟩ := position_of_inRange (hn n rfl)
    dsimp only
    rw [hposition]
    exact ⟨some i, rfl, congrArg some hi⟩

end Endpoint

theorem filter_isObject (items : List Json) :
    items.filter Json.isObject = (Json.objects items).map .obj := by
  induction items with
  | nil => rfl
  | cons item items ih =>
    rw [List.filter_cons, ih]
    cases item <;> rfl

theorem candidates_eq {tree : Json} (h : tree.isContainer) :
    candidates tree = tree.nodes.map .obj := by
  cases tree with
  | arr items => exact filter_isObject items
  | obj members => rfl
  | _ => exact absurd h Bool.false_ne_true

section Choose

variable {cs ds : List Char} {tree : Json}

theorem choose_of_not_mem (h : ':' ∉ cs) : choose cs tree = do
    match ← readIndex cs with
    | none => throw (.malformed 1 .missingRootIndex)
    | some index =>
      return (candidates tree).get (← position index (candidates tree).length) := by
  unfold choose
  split
  · next hdrop => exact absurd ((dropWhile_ne_eq_nil h).symm.trans hdrop) nofun
  · rfl

theorem choose_append (h : ':' ∉ cs) : choose (cs ++ ':' :: ds) tree = do
    let start ← endpoint cs (candidates tree).length
    let stop ← endpoint ds (candidates tree).length
    let subset := Subset.ofPositions
      (some ((start.map fun i => (i : Int)).getD 0 + 1)) (stop.map fun i => (i : Int) + 1)
    return .arr ((subset.window (candidates tree).length).keep (candidates tree)) := by
  unfold choose
  rw [dropWhile_ne_append h, takeWhile_ne_append h]

end Choose

theorem fromFront_offset {length : Nat} {i : Int} (h : 0 ≤ i) :
    Subset.fromFront length (Subset.offset (i + 1)) = i := by
  have hpos : i + 1 > 0 := by omega
  rw [Subset.offset, if_pos hpos, Subset.fromFront, if_neg (by omega)]
  omega

section Range

variable (length : Nat)

/-- The position from the front at which a range starts; without an index at the first element. -/
def startOf (index : Option Int) : Int := (index.map (Subset.fromFront length)).getD 0

/-- The position from the front at which a range ends; without an index at the last element. -/
def stopOf (index : Option Int) : Int := (index.map (Subset.fromFront length)).getD (length - 1)

end Range

/-- The elements from one index of a list to another, both included. -/
def range {α : Type} (items : List α) (a b : Option Int) : List α :=
  items.zipIdx.filterMap fun x =>
    if startOf items.length a ≤ x.2 ∧ x.2 ≤ stopOf items.length b then some x.1 else none

theorem map_range {α β : Type} (f : α → β) (items : List α) (a b : Option Int) :
    range (items.map f) a b = (range items a b).map f := by
  unfold range
  rw [List.length_map, List.zipIdx_map, List.filterMap_map, List.map_filterMap]
  refine List.filterMap_congr fun x _ => ?_
  rw [Function.comp_apply]
  split <;> simp_all

section Covered

variable {α : Type} {items : List α} {a b : Option Int}

theorem startOf_nonneg {length : Nat} (h : ∀ n ∈ a, InRange length n) : 0 ≤ startOf length a := by
  cases a with
  | none => exact Int.le_refl 0
  | some n => exact (fromFront_iff.2 (h n rfl)).1

/-- A subset counts from 1 what a range counts from 0. -/
theorem first_ofPositions {length : Nat} (ha : ∀ n ∈ a, InRange length n) (stop : Option Int) :
    (Subset.ofPositions (some (startOf length a + 1)) stop).first length = startOf length a :=
  fromFront_offset (startOf_nonneg ha)

theorem keep_eq_range (ha : ∀ n ∈ a, InRange items.length n)
    (hb : ∀ n ∈ b, InRange items.length n) :
    ((Subset.ofPositions (some (startOf items.length a + 1))
      (b.map fun n => Subset.fromFront items.length n + 1)).window items.length).keep items =
        range items a b := by
  have hlast : (Subset.ofPositions (some (startOf items.length a + 1))
      (b.map fun n => Subset.fromFront items.length n + 1)).last items.length =
        stopOf items.length b := by
    cases b with
    | none => rfl
    | some n => exact fromFront_offset (fromFront_iff.2 (hb n rfl)).1
  rw [Window.keep_eq_slice (Subset.window_stop_le _ _), Subset.slice_window, first_ofPositions ha,
    hlast, range]

/-- The end may be given by its position too, unless there is none in an empty list. -/
theorem slice_eq_range (ha : ∀ n ∈ a, InRange items.length n)
    (hb : ∀ n ∈ b, InRange items.length n) :
    ((Subset.ofPositions (some (startOf items.length a + 1))
      (some (stopOf items.length b + 1))).window items.length).slice items = range items a b := by
  rw [Subset.slice_window, first_ofPositions ha, range]
  refine List.filterMap_congr fun x hx => if_congr (and_congr_right fun _ => ?_) rfl rfl
  have hlt : x.2 < items.length := List.snd_lt_of_mem_zipIdx hx
  have hstop : 0 ≤ stopOf items.length b := by
    cases b with
    | none =>
      show (0 : Int) ≤ items.length - 1
      omega
    | some n => exact (fromFront_iff.2 (hb n rfl)).1
  have hlast : (Subset.ofPositions (some (startOf items.length a + 1))
      (some (stopOf items.length b + 1))).last items.length = stopOf items.length b :=
    fromFront_offset hstop
  rw [hlast]

end Covered

theorem choose_range {s t : String} {a b : Option Int} {tree : Json} (htree : tree.isContainer)
    (hs : Writes s a) (ht : Writes t b) (ha : ∀ n ∈ a, InRange tree.nodes.length n)
    (hb : ∀ n ∈ b, InRange tree.nodes.length n) :
    choose (s.toList ++ ':' :: t.toList) tree = .ok (.arr ((range tree.nodes a b).map .obj)) := by
  have hlength : (candidates tree).length = tree.nodes.length := by
    rw [candidates_eq htree, List.length_map]
  rw [← hlength] at ha hb
  obtain ⟨i, hi, hfirst⟩ := endpoint_of_inRange (readIndex_of_writes hs) ha
  obtain ⟨j, hj, hlast⟩ := endpoint_of_inRange (readIndex_of_writes ht) hb
  rw [choose_append (not_mem_of_writes hs).2, hi, ok_bind, hj, ok_bind, ← map_range,
    ← candidates_eq htree, ← keep_eq_range ha hb, startOf, ← hfirst]
  have hstop : (b.map fun n => Subset.fromFront (candidates tree).length n + 1) =
      (j.map fun j : Fin _ => (j : Int)).map (· + 1) := by
    rw [hlast, Option.map_map]
    rfl
  rw [hstop]
  cases i <;> cases j <;> rfl

section Index

variable {s : String} {n : Int} {tree : Json}

theorem choose_index {i : Nat} {o : Object} (htree : tree.isContainer) (hs : Writes s (some n))
    (hn : n = i ∨ n = i - tree.nodes.length) (ho : tree.nodes[i]? = some o) :
    choose s.toList tree = .ok (.obj o) := by
  have hitem : (candidates tree)[i]? = some (.obj o) := by
    rw [candidates_eq htree, List.getElem?_map, ho]
    rfl
  have hlength : (candidates tree).length = tree.nodes.length := by
    rw [candidates_eq htree, List.length_map]
  obtain ⟨hlt, hget⟩ := List.getElem?_eq_some_iff.1 hitem
  have hfront : Subset.fromFront (candidates tree).length n = i := by
    unfold Subset.fromFront
    split <;> omega
  obtain ⟨j, hj, hji⟩ := position_of_inRange (fromFront_iff.1 (by omega) :
    InRange (candidates tree).length n)
  obtain rfl : (j : Nat) = i := by omega
  rw [choose_of_not_mem (not_mem_of_writes hs).2, readIndex_of_writes hs, ok_bind]
  dsimp only
  rw [hj, ok_bind, List.get_eq_getElem, hget]
  rfl

theorem choose_outside (htree : tree.isContainer) (hs : Writes s (some n))
    (hn : ¬ InRange tree.nodes.length n) :
    choose s.toList tree = .error (.rootOutOfBounds n tree.nodes.length) := by
  have hlength : tree.nodes.length = (candidates tree).length := by
    rw [candidates_eq htree, List.length_map]
  rw [hlength] at hn ⊢
  rw [choose_of_not_mem (not_mem_of_writes hs).2, readIndex_of_writes hs, ok_bind]
  dsimp only
  rw [position_of_not_inRange hn]
  rfl

end Index

section Signed

def position64 (index : Int) (length : Nat) : Checked (Fin length) := do
  let fromFront ← Subset.fromFront64 (← Checked.fit length) index
  if h : 0 ≤ fromFront ∧ fromFront < length then
    return ⟨fromFront.toNat, (Int.toNat_lt h.1).2 h.2⟩
  else throw (.rootOutOfBounds index length)

def endpoint64 (cs : List Char) (length : Nat) : Checked (Option (Fin length)) := do
  match ← Checked.ofExcept (readIndex cs) with
  | some index => return some (← position64 index length)
  | none => return none

/-- The subset between two positions, counted from 1. -/
def between {length : Nat} (start stop : Option (Fin length)) : Subset :=
  .ofPositions (some ((start.map fun i : Fin length => (i : Int)).getD 0 + 1))
    (stop.map fun i : Fin length => (i : Int) + 1)

def between64 {length : Nat} (start stop : Option (Fin length)) : Checked Subset := do
  let first ← Checked.fit ((start.map fun i : Fin length => (i : Int)).getD 0 + 1)
  let last ← stop.mapM fun i : Fin length => Checked.fit (i + 1)
  return ⟨some (← Subset.offset64 first), ← last.mapM Subset.offset64⟩

/-- What a bracket leaves of a tree, computed in signed 64 bits. -/
def choose64 (bracket : List Char) (tree : Json) : Checked Json := do
  let items := candidates tree
  match bracket.dropWhile (· != ':') with
  | _ :: after =>
    let start ← endpoint64 (bracket.takeWhile (· != ':')) items.length
    let stop ← endpoint64 after items.length
    let subset ← between64 start stop
    return .arr ((← subset.window64 items.length).keep items)
  | [] =>
    match ← Checked.ofExcept (readIndex bracket) with
    | none => throw (.malformed 1 .missingRootIndex)
    | some index => return items.get (← position64 index items.length)

variable {length : Nat}

theorem inSigned64_of_readIndex {cs : List Char} {n : Int} (h : readIndex cs = .ok (some n)) :
    inSigned64 n := by
  unfold readIndex at h
  dsimp only at h
  split at h
  · exact absurd h nofun
  · cases hn : readInteger? (strip cs) with
    | none => rw [hn] at h; exact absurd h nofun
    | some m =>
      rw [hn] at h
      obtain rfl := Option.some.inj (Except.ok.inj h)
      exact inSigned64_of_readInteger? hn

theorem position64_eq {index : Int} (hl : length < signedBound64) (hi : inSigned64 index) :
    position64 index length = Checked.ofExcept (position index length) := by
  have hlength : inSigned64 length := inSigned64_iff.2 (by omega)
  rw [position64, Checked.fit_bind hlength, Subset.fromFront64_eq hl hi, pure_bind]
  by_cases h : 0 ≤ Subset.fromFront length index ∧ Subset.fromFront length index < length
  · have hposition : position index length =
        .ok ⟨(Subset.fromFront length index).toNat, (Int.toNat_lt h.1).2 h.2⟩ := dif_pos h
    rw [dif_pos h, hposition]
    rfl
  · rw [dif_neg h, position_of_not_inRange (mt fromFront_iff.2 h)]
    rfl

theorem endpoint64_eq {cs : List Char} (hl : length < signedBound64) :
    endpoint64 cs length = Checked.ofExcept (endpoint cs length) := by
  unfold endpoint64 endpoint
  cases h : readIndex cs with
  | error fault => rfl
  | ok n =>
    rw [Checked.ofExcept_bind, ok_bind]
    cases n with
    | none => rfl
    | some n =>
      dsimp only
      rw [position64_eq hl (inSigned64_of_readIndex h)]
      cases position n length <;> rfl

theorem inSigned64_succ (hl : length < signedBound64) (i : Fin length) :
    inSigned64 ((i : Int) + 1) :=
  inSigned64_iff.2 (by omega)

theorem between64_eq (hl : length < signedBound64) (start stop : Option (Fin length)) :
    between64 start stop = pure (between start stop) := by
  have hfirst : inSigned64 ((start.map fun i : Fin length => (i : Int)).getD 0 + 1) := by
    cases start with
    | none =>
      rw [Option.map_none, Option.getD_none, Int.zero_add]
      decide
    | some i => exact inSigned64_succ hl i
  rw [between64, Checked.fit_bind hfirst, Subset.offset64_eq hfirst]
  cases stop with
  | none => rfl
  | some i =>
    have hlast := inSigned64_succ hl i
    rw [Option.mapM_some, Checked.fit_eq hlast, map_pure, pure_bind, pure_bind, Option.mapM_some,
      Subset.offset64_eq hlast]
    rfl

/-- The endpoints between two positions are positions again. -/
theorem window64_between (hl : length < signedBound64) (start stop : Option (Fin length)) :
    (between start stop).window64 length = pure ((between start stop).window length) := by
  have hoffset : ∀ i : Fin length, inSigned64 (Subset.offset ((i : Int) + 1)) := by
    intro i
    rw [inSigned64_iff, Subset.offset]
    split <;> omega
  refine Subset.window64_eq hl (fun n hn => ?_) fun n hn => ?_
  · obtain rfl := Option.some.inj hn
    cases start with
    | none => exact (by decide : inSigned64 (Subset.offset 1) = true)
    | some i => exact hoffset i
  · cases stop with
    | none => exact absurd hn nofun
    | some i =>
      obtain rfl := Option.some.inj hn
      exact hoffset i

/-- Choosing never overflows, in a list of fewer than `2 ^ 63` objects. -/
theorem choose64_eq {bracket : List Char} {tree : Json}
    (hl : (candidates tree).length < signedBound64) :
    choose64 bracket tree = Checked.ofExcept (choose bracket tree) := by
  unfold choose64 choose
  cases bracket.dropWhile (· != ':') with
  | nil =>
    dsimp only
    cases h : readIndex bracket with
    | error fault => rfl
    | ok n =>
      rw [Checked.ofExcept_bind, ok_bind]
      cases n with
      | none => rfl
      | some n =>
        dsimp only
        rw [position64_eq hl (inSigned64_of_readIndex h)]
        cases position n (candidates tree).length <;> rfl
  | cons _ after =>
    dsimp only
    rw [endpoint64_eq hl, endpoint64_eq hl]
    cases endpoint (bracket.takeWhile (· != ':')) (candidates tree).length with
    | error fault => rfl
    | ok start =>
      rw [Checked.ofExcept_bind, ok_bind]
      cases endpoint after (candidates tree).length with
      | error fault => rfl
      | ok stop =>
        rw [Checked.ofExcept_bind, ok_bind, between64_eq hl, pure_bind,
          window64_between hl, pure_bind]
        cases start <;> cases stop <;> rfl

end Signed

theorem move_bracket {s : String} (h : ']' ∉ s.toList) (tree : Json) :
    move ("[" ++ s ++ "]") tree = choose s.toList tree := by
  unfold move
  rw [parts_bracket h, ok_bind]
  dsimp only
  cases choose s.toList tree <;> rfl

theorem moveRoot_bracket {s : String} (h : ']' ∉ s.toList) (tree : Json) :
    (Request.only .root ("[" ++ s ++ "]")).moveRoot tree = choose s.toList tree := by
  have hasking : (Request.only .root ("[" ++ s ++ "]")).rootText = some ("[" ++ s ++ "]") := by
    show Request.asking (some ("[" ++ s ++ "]")) = _
    rw [Request.asking, Option.filter_some_pos (by rw [not_allBlank_bracket]; rfl)]
  rw [Request.moveRoot, hasking]
  exact move_bracket h tree

theorem toList_range (s t : String) : (s ++ ":" ++ t).toList = s.toList ++ ':' :: t.toList := by
  simp

theorem not_mem_range {s t : String} (hs : ']' ∉ s.toList) (ht : ']' ∉ t.toList) :
    ']' ∉ (s ++ ":" ++ t).toList := by
  rw [toList_range, List.mem_append, List.mem_cons]
  rintro (h | h | h)
  · exact hs h
  · exact absurd h (by decide)
  · exact ht h

/-- A text that is neither blank nor an integer of signed 64 bits. -/
def Unread (s : String) : Prop := strip s.toList ≠ [] ∧ readInteger? (strip s.toList) = none

theorem readIndex_of_unread {s : String} (h : Unread s) : readIndex s.toList =
    .error (.malformed 1 (.badRootIndex (String.ofList (strip s.toList)))) := by
  unfold readIndex
  dsimp only
  rw [if_neg (mt List.isEmpty_iff.1 h.1), h.2]

end Root

/-- The brackets leave of some objects what their indices say: a single index one of them, two
indices those from one to the other. A fault at the start of a range is found first, whatever is
written behind the colon. -/
structure Root.Narrows (os : List Object) (move : String → Except Fault Json) : Prop where
  index : ∀ {s : String} {n : Int} {i : Nat} {o : Object}, Text.Writes s (some n) →
    n = i ∨ n = i - os.length → os[i]? = some o → move ("[" ++ s ++ "]") = .ok (.obj o)
  outside : ∀ {s : String} {n : Int}, Text.Writes s (some n) → ¬ InRange os.length n →
    move ("[" ++ s ++ "]") = .error (.rootOutOfBounds n os.length)
  startUnread : ∀ {s t : String}, ']' ∉ (s ++ t).toList → ':' ∉ s.toList → Unread s →
    move ("[" ++ (s ++ ":" ++ t) ++ "]") =
      .error (.malformed 1 (.badRootIndex (String.ofList (Text.strip s.toList))))
  startOutside : ∀ {s t : String} {n : Int}, Text.Writes s (some n) → ']' ∉ t.toList →
    ¬ InRange os.length n →
    move ("[" ++ (s ++ ":" ++ t) ++ "]") = .error (.rootOutOfBounds n os.length)
  stopUnread : ∀ {s t : String} {a : Option Int}, Text.Writes s a → ']' ∉ t.toList →
    (∀ n ∈ a, InRange os.length n) → Unread t →
    move ("[" ++ (s ++ ":" ++ t) ++ "]") =
      .error (.malformed 1 (.badRootIndex (String.ofList (Text.strip t.toList))))
  stopOutside : ∀ {s t : String} {a : Option Int} {n : Int}, Text.Writes s a →
    Text.Writes t (some n) → (∀ n ∈ a, InRange os.length n) → ¬ InRange os.length n →
    move ("[" ++ (s ++ ":" ++ t) ++ "]") = .error (.rootOutOfBounds n os.length)
  between : ∀ {s t : String} {a b : Option Int}, Text.Writes s a → Text.Writes t b →
    (∀ n ∈ a, InRange os.length n) → (∀ n ∈ b, InRange os.length n) →
    move ("[" ++ (s ++ ":" ++ t) ++ "]") = .ok (.arr ((range os a b).map .obj))
      ∧ (stopOf os.length b < startOf os.length a → range os a b = [])
      ∧ range os a b = ((Subset.ofPositions (some (startOf os.length a + 1))
        (some (stopOf os.length b + 1))).window os.length).slice os

namespace Root

theorem range_of_lt {α : Type} {items : List α} {a b : Option Int}
    (h : stopOf items.length b < startOf items.length a) : range items a b = [] := by
  refine List.filterMap_eq_nil_iff.2 fun x _ => if_neg fun hx => ?_
  omega

section Faults

variable {s t : String} {tree : Json}

theorem choose_startFault {fault : Fault} (hs : ':' ∉ s.toList)
    (h : endpoint s.toList (candidates tree).length = .error fault) :
    choose (s.toList ++ ':' :: t.toList) tree = .error fault := by
  rw [choose_append hs, h]
  rfl

theorem choose_stopFault {fault : Fault} {a : Option Int} (hs : Text.Writes s a)
    (ha : ∀ n ∈ a, InRange (candidates tree).length n)
    (h : endpoint t.toList (candidates tree).length = .error fault) :
    choose (s.toList ++ ':' :: t.toList) tree = .error fault := by
  obtain ⟨i, hi, -⟩ := endpoint_of_inRange (readIndex_of_writes hs) ha
  rw [choose_append (not_mem_of_writes hs).2, hi, ok_bind, h]
  rfl

end Faults

theorem length_candidates {tree : Json} (h : tree.isContainer) :
    (candidates tree).length = tree.nodes.length := by
  rw [candidates_eq h, List.length_map]

theorem narrows_moveRoot {tree : Json} (htree : tree.isContainer) :
    Narrows tree.nodes fun text => (Request.only .root text).moveRoot tree := by
  have hlength := length_candidates htree
  constructor
  · intro s n i o hs hn ho
    exact (moveRoot_bracket (not_mem_of_writes hs).1 tree).trans (choose_index htree hs hn ho)
  · intro s n hs hn
    exact (moveRoot_bracket (not_mem_of_writes hs).1 tree).trans (choose_outside htree hs hn)
  · intro s t hst hs hunread
    rw [String.toList_append, List.mem_append, not_or] at hst
    rw [moveRoot_bracket (not_mem_range hst.1 hst.2), toList_range]
    exact choose_startFault hs (endpoint_of_error (readIndex_of_unread hunread))
  · intro s t n hs ht hn
    rw [moveRoot_bracket (not_mem_range (not_mem_of_writes hs).1 ht), toList_range, ← hlength]
    exact choose_startFault (not_mem_of_writes hs).2
      (endpoint_of_not_inRange (readIndex_of_writes hs) (hlength ▸ hn))
  · intro s t a hs ht ha hunread
    rw [moveRoot_bracket (not_mem_range (not_mem_of_writes hs).1 ht), toList_range]
    exact choose_stopFault hs (hlength ▸ ha) (endpoint_of_error (readIndex_of_unread hunread))
  · intro s t a n hs ht ha hn
    rw [moveRoot_bracket (not_mem_range (not_mem_of_writes hs).1 (not_mem_of_writes ht).1),
      toList_range, ← hlength]
    exact choose_stopFault hs (hlength ▸ ha)
      (endpoint_of_not_inRange (readIndex_of_writes ht) (hlength ▸ hn))
  · intro s t a b hs ht ha hb
    rw [moveRoot_bracket (not_mem_range (not_mem_of_writes hs).1 (not_mem_of_writes ht).1),
      toList_range]
    exact ⟨choose_range htree hs ht ha hb, range_of_lt, (slice_eq_range ha hb).symm⟩

/-- Brackets narrow every object or array, on an engine in any state, and fewer than `2 ^ 63`
objects leave the arithmetic within signed 64 bits, whatever is in the bracket. -/
theorem narrows_project {c : Cache} (hc : c.Reachable) {tree : Json} (htree : tree.isContainer) :
    Narrows tree.nodes (fun text => c.project tree (.only .root text))
      ∧ (tree.nodes.length < Text.signedBound64 → ∀ bracket,
        choose64 bracket tree = Checked.ofExcept (choose bracket tree)) := by
  have hproject : (fun text => c.project tree (.only .root text)) =
      fun text => (Request.only .root text).moveRoot tree :=
    funext fun text => hc.project_root htree (.only .root text)
  rw [hproject]
  exact ⟨narrows_moveRoot htree, fun hl _ => choose64_eq ((length_candidates htree).trans_lt hl)⟩

theorem narrows_project_mixed :
    ∃ (c : Cache) (tree : Json) (o₀ o₁ o₂ : Object),
      c.Reachable ∧ tree.isContainer ∧ tree = .arr [.null, .obj o₀, .str "x", .obj o₁, .obj o₂]
      ∧ o₀ = [("a", .null)] ∧ o₁ = [("b", .null)] ∧ o₂ = []
      ∧ tree.nodes.length < Text.signedBound64
      ∧ c.project tree (.only .root "[-1]") = .ok (.obj o₂)
      ∧ c.project tree (.only .root "[3]") = .error (.rootOutOfBounds 3 3)
      ∧ c.project tree (.only .root "[-4:z]") = .error (.rootOutOfBounds (-4) 3)
      ∧ c.project tree (.only .root "[ 1 :]") = .ok (.arr [.obj o₁, .obj o₂])
      ∧ c.project tree (.only .root "[2:-3]") = .ok (.arr [])
      ∧ choose64 "-9223372036854775808".toList tree =
        Checked.ofExcept (.error (.rootOutOfBounds (-9223372036854775808) 3)) := by
  have hc : Cache.forgetful.Reachable := ⟨.forgetful, [], .inr rfl, rfl⟩
  have htree : (Json.arr [.null, .obj [("a", .null)], .str "x", .obj [("b", .null)],
    .obj []]).isContainer := rfl
  obtain ⟨h, h64⟩ := narrows_project hc htree
  have hdecimal : ∀ {s : String} {n : Int}, Text.inSigned64 n → "" ++ toString n ++ "" = s →
      Text.Writes s (some n) := by
    rintro _ n hn rfl
    exact .decimal rfl hn rfl
  have hpadded : Text.Writes " 1 " (some 1) :=
    (by decide +kernel : " " ++ toString (1 : Int) ++ " " = " 1 ") ▸
      .decimal (by decide) (by decide) (by decide)
  have hrange : ∀ {n : Int}, InRange 3 n → ∀ m ∈ some n, InRange 3 m := by
    rintro n hn _ ⟨⟩
    exact hn
  have hlast : Text.Writes "-1" (some (-1)) := hdecimal (by decide) (by decide +kernel)
  have houtside : Text.Writes "3" (some 3) := hdecimal (by decide) (by decide +kernel)
  have hbefore : Text.Writes "-4" (some (-4)) := hdecimal (by decide) (by decide +kernel)
  have htwo : Text.Writes "2" (some 2) := hdecimal (by decide) (by decide +kernel)
  have hfirst : Text.Writes "-3" (some (-3)) := hdecimal (by decide) (by decide +kernel)
  have hindex := h.index hlast (i := 2) (.inr rfl) rfl
  have hbeyond := h.outside houtside (by decide)
  have hstart := h.startOutside (t := "z") hbefore (by decide) (by decide)
  have hopen := (h.between (t := "") hpadded (.blank rfl) (hrange (by decide)) nofun).1
  have hcrossed := (h.between htwo hfirst (hrange (by decide)) (hrange (by decide))).1
  exact ⟨_, _, _, _, _, hc, htree, rfl, rfl, rfl, rfl, by decide, hindex, hbeyond, hstart, hopen,
    hcrossed, (h64 (by decide) _).trans (congrArg Checked.ofExcept (by decide +kernel))⟩

end Root

end JsonSelect
