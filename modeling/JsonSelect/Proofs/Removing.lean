import JsonSelect.Proofs.Batches
import JsonSelect.Proofs.Bounds
import JsonSelect.Proofs.Occurrences
import Mathlib.Data.Nat.Count

/-!
# Windows removed one after the other

Pruning resolves each subset on what the subsets before it have left of the array, while gathering
resolves all of them on the array as it was. The two agree as long as no endpoint is counted past
an element that is gone by then (`Subset.Steady`); then pruning removes just the elements that the
subsets cover in the array as it was (`Selector.get?_prune_of_fields`).
-/

namespace JsonSelect

namespace Window

variable {α : Type} (gone : Nat → Bool)

/-- An element, unless its position is gone. -/
def spare (x : α × Nat) : Option α := if gone x.2 then none else some x.1

/-- The elements whose positions are not gone. -/
def remains (items : List α) : List α := items.zipIdx.filterMap (spare gone)

/-- The number of positions before `i` that are not gone. -/
def rank (i : Nat) : Nat := Nat.count (fun j => gone j = false) i

variable {gone}

theorem rank_succ_of_gone {i : Nat} (h : gone i) : rank gone (i + 1) = rank gone i := by
  rw [rank, Nat.count_succ, if_neg (by rw [h]; exact Bool.true_eq_false.mp)]
  rfl

theorem rank_succ_of_not_gone {i : Nat} (h : gone i = false) :
    rank gone (i + 1) = rank gone i + 1 := by
  rw [rank, Nat.count_succ, if_pos h]
  rfl

theorem rank_le (i : Nat) : rank gone i ≤ i := Nat.count_le _

theorem rank_mono {i j : Nat} (h : i ≤ j) : rank gone i ≤ rank gone j := Nat.count_monotone _ h

theorem rank_lt {i j : Nat} (hi : gone i = false) (h : i < j) : rank gone i < rank gone j :=
  Nat.count_strict_mono (p := fun j => gone j = false) hi h

theorem rank_le_add {i j : Nat} (h : i ≤ j) : rank gone j ≤ rank gone i + (j - i) := by
  obtain ⟨d, rfl⟩ := Nat.exists_eq_add_of_le h
  rw [rank, Nat.count_add, Nat.add_sub_cancel_left]
  exact Nat.add_le_add_left (Nat.count_le _) _

/-- Ranks go up one by one where nothing is gone. -/
theorem rank_eq_add {i j : Nat} (h : i ≤ j) (hgone : ∀ k, i ≤ k → k < j → gone k = false) :
    rank gone j = rank gone i + (j - i) := by
  obtain ⟨d, rfl⟩ := Nat.exists_eq_add_of_le h
  rw [rank, Nat.count_add, Nat.add_sub_cancel_left]
  refine congrArg _ (Nat.count_of_forall fun k hk => hgone _ (Nat.le_add_right i k) ?_)
  omega

theorem length_filterMap_spare (items : List α) (i : Nat) :
    ((items.zipIdx i).filterMap (spare gone)).length + rank gone i =
      rank gone (i + items.length) := by
  induction items generalizing i with
  | nil => simp
  | cons item items ih =>
    have hnext : i + (item :: items).length = i + 1 + items.length := by
      rw [List.length_cons]
      omega
    rw [List.zipIdx_cons, List.filterMap_cons, hnext, ← ih, spare]
    cases hi : gone i with
    | true =>
      rw [rank_succ_of_gone hi]
      rfl
    | false =>
      rw [rank_succ_of_not_gone hi, if_neg Bool.false_ne_true, List.length_cons]
      omega

/-- What has a position among the elements that remain has had another one before. -/
theorem filterMap_spare_spare (gone' : Nat → Bool) (items : List α) (i : Nat) :
    ((((items.zipIdx i).filterMap (spare gone)).zipIdx (rank gone i)).filterMap (spare gone')) =
      (items.zipIdx i).filterMap (spare fun j => gone j || gone' (rank gone j)) := by
  induction items generalizing i with
  | nil => rfl
  | cons item items ih =>
    have ih := ih (i + 1)
    rw [List.zipIdx_cons, List.filterMap_cons, List.filterMap_cons, spare, spare]
    cases hi : gone i with
    | true =>
      rw [rank_succ_of_gone hi] at ih
      exact ih
    | false =>
      rw [rank_succ_of_not_gone hi] at ih
      rw [if_neg Bool.false_ne_true]
      dsimp only
      rw [List.zipIdx_cons, List.filterMap_cons, spare, ih, Bool.false_or]

theorem remains_none (items : List α) : remains (fun _ => false) items = items := by
  have hspare : (spare fun _ => false : α × Nat → Option α) = some ∘ Prod.fst := rfl
  rw [remains, hspare, List.filterMap_eq_map, List.zipIdx_map_fst]

theorem length_remains (items : List α) :
    (remains gone items).length = rank gone items.length := by
  have h : (remains gone items).length + 0 = rank gone (0 + items.length) :=
    length_filterMap_spare items 0
  rwa [Nat.zero_add] at h

theorem remains_congr {gone' : Nat → Bool} {items : List α}
    (h : ∀ i < items.length, gone i = gone' i) : remains gone items = remains gone' items :=
  List.filterMap_congr fun x hx => by rw [spare, spare, h x.2 (List.snd_lt_of_mem_zipIdx hx)]

theorem remains_remains (gone' : Nat → Bool) (items : List α) :
    remains gone' (remains gone items) =
      remains (fun i => gone i || gone' (rank gone i)) items :=
  filterMap_spare_spare gone' items 0

/-- A cut counted from the front divides what remains where it divided the whole, if nothing is gone
in front of it. -/
theorem le_rank_iff {length i : Nat} (cut : Int) (h : cut < length → ∀ j, gone j → cut ≤ j)
    (hi : i < length) : cut ≤ rank gone i ↔ cut ≤ i := by
  have hle : rank gone i ≤ i := rank_le i
  refine ⟨fun hrank => by omega, fun hcut => ?_⟩
  have hfront : rank gone cut.toNat = rank gone 0 + (cut.toNat - 0) := by
    refine rank_eq_add (Nat.zero_le _) fun k _ hk => Bool.eq_false_iff.2 fun hgone => ?_
    have := h (by omega) k hgone
    omega
  have hmono : rank gone cut.toNat ≤ rank gone i := rank_mono (by omega)
  omega

/-- A cut counted from the end does, if nothing is gone behind it. -/
theorem rank_sub_le_rank_iff {length i : Nat} (cut : Int) (hcut : cut ≤ length)
    (h : 0 < cut → ∀ j, j < length → gone j → j < cut) (hi : i < length)
    (hleft : gone i = false) : rank gone length - (length - cut) ≤ rank gone i ↔ cut ≤ i := by
  constructor
  · intro hrank
    by_contra hlt
    have hback : rank gone length = rank gone cut.toNat + (length - cut.toNat) := by
      refine rank_eq_add (by omega) fun k hk hkl => Bool.eq_false_iff.2 fun hgone => ?_
      have := h (by omega) k hkl hgone
      omega
    have hmono : rank gone i < rank gone cut.toNat := rank_lt hleft (by omega)
    omega
  · intro hle
    have hadd : rank gone length ≤ rank gone i + (length - i) := rank_le_add (by omega)
    omega

end Window

namespace Subset

/-- No endpoint is counted past a position that is gone: none from the front, unless the array ends
before it gets there, and none from the end, unless the array begins before. -/
structure Steady (s : Subset) (length : Nat) (gone : Nat → Bool) : Prop where
  startFront : ∀ a ∈ s.start, 0 ≤ a → a < length → ∀ i, gone i → a ≤ i
  startBack : ∀ a ∈ s.start, a < 0 → 0 < length + a → ∀ i, i < length → gone i → i < length + a
  stopFront : ∀ b ∈ s.stop, 0 ≤ b → b + 1 < length → ∀ i, gone i → b < i
  stopBack : ∀ b ∈ s.stop, b < 0 → 0 ≤ length + b → ∀ i, i < length → gone i → i ≤ length + b

variable {s : Subset} {length : Nat} {gone gone' : Nat → Bool}

theorem Steady.of_none (h : ∀ i, gone i = false) : s.Steady length gone := by
  have habsurd : ∀ {P : Prop} i, gone i → P := fun i hi =>
    absurd ((h i).symm.trans hi) Bool.false_ne_true
  exact ⟨fun _ _ _ _ i hi => habsurd i hi, fun _ _ _ _ i _ hi => habsurd i hi,
    fun _ _ _ _ i hi => habsurd i hi, fun _ _ _ _ i _ hi => habsurd i hi⟩

theorem Steady.or (h : s.Steady length gone) (h' : s.Steady length gone') :
    s.Steady length fun i => gone i || gone' i where
  startFront a ha ha₀ hl i hi :=
    (Bool.or_eq_true_iff.1 hi).elim (h.startFront a ha ha₀ hl i) (h'.startFront a ha ha₀ hl i)
  startBack a ha ha₀ hl i hlt hi :=
    (Bool.or_eq_true_iff.1 hi).elim (h.startBack a ha ha₀ hl i hlt) (h'.startBack a ha ha₀ hl i hlt)
  stopFront b hb hb₀ hl i hi :=
    (Bool.or_eq_true_iff.1 hi).elim (h.stopFront b hb hb₀ hl i) (h'.stopFront b hb hb₀ hl i)
  stopBack b hb hb₀ hl i hlt hi :=
    (Bool.or_eq_true_iff.1 hi).elim (h.stopBack b hb hb₀ hl i hlt) (h'.stopBack b hb hb₀ hl i hlt)

open Window

/-- Counted from the front, stretches can be removed from the last to the first. -/
theorem steady_of_lt_start {start : Option Int} {stop : Int} {w : Window}
    (hstart : ∀ a ∈ start, 0 ≤ a ∧ a ≤ stop) (hstop : 0 ≤ stop) (h : stop < w.start) :
    Steady ⟨start, some stop⟩ length w.covers where
  startFront a ha _ _ i hi := by
    have := (hstart a ha).2
    have := (covers_iff.1 hi).1
    omega
  startBack a ha ha₀ := absurd (hstart a ha).1 (by omega)
  stopFront b hb _ _ i hi := by
    obtain rfl := Option.some.inj hb
    have := (covers_iff.1 hi).1
    omega
  stopBack b hb hb₀ := by
    obtain rfl := Option.some.inj hb
    omega

theorem Steady.first_le_iff (h : s.Steady length gone) {i : Nat} (hi : i < length)
    (hleft : gone i = false) : s.first (rank gone length) ≤ rank gone i ↔ s.first length ≤ i := by
  unfold first
  cases hstart : s.start with
  | none =>
    show (0 : Int) ≤ _ ↔ (0 : Int) ≤ _
    omega
  | some a =>
    show fromFront _ a ≤ _ ↔ fromFront _ a ≤ _
    unfold fromFront
    split
    · next ha =>
      have hback := rank_sub_le_rank_iff (length + a) (by omega)
        (h.startBack a hstart ha) hi hleft
      rw [← hback]
      omega
    · next ha => exact le_rank_iff a (h.startFront a hstart (by omega)) hi

theorem Steady.le_last_iff (h : s.Steady length gone) {i : Nat} (hi : i < length)
    (hleft : gone i = false) : rank gone i ≤ s.last (rank gone length) ↔ i ≤ s.last length := by
  unfold last
  cases hstop : s.stop with
  | none =>
    have hlt : rank gone i < rank gone length := rank_lt hleft hi
    show (_ : Int) ≤ rank gone length - 1 ↔ (_ : Int) ≤ length - 1
    omega
  | some b =>
    show (_ : Int) ≤ fromFront _ b ↔ (_ : Int) ≤ fromFront _ b
    unfold fromFront
    split
    · next hb =>
      have hback := rank_sub_le_rank_iff (length + b + 1) (by omega)
        (fun hcut j hj hgone => by have := h.stopBack b hstop hb (by omega) j hj hgone; omega)
        hi hleft
      omega
    · next hb =>
      have hfront := le_rank_iff (b + 1)
        (fun hcut j hgone => by have := h.stopFront b hstop (by omega) hcut j hgone; omega) hi
      omega

theorem Steady.covers_iff (h : s.Steady length gone) {i : Nat} (hi : i < length)
    (hleft : gone i = false) :
    (s.window (rank gone length)).covers (rank gone i) = (s.window length).covers i := by
  have hlt : rank gone i < rank gone length := rank_lt hleft hi
  rw [Bool.eq_iff_iff, covers_window_iff, covers_window_iff, h.first_le_iff hi hleft,
    h.le_last_iff hi hleft]
  exact and_congr_left fun _ => iff_of_true hlt hi

/-- The array without the elements that the subset covers. -/
def removed {α : Type} (items : List α) (s : Subset) : List α :=
  (s.window items.length).remove items

theorem removed_eq_remains {α : Type} (items : List α) (s : Subset) :
    removed items s = remains (s.window items.length).covers items :=
  Window.remove_eq_filterMap (s.window_start_le_stop _) (s.window_stop_le _)

theorem Steady.removed_remains {α : Type} {items : List α} (h : s.Steady items.length gone) :
    removed (remains gone items) s =
      remains (fun i => gone i || (s.window items.length).covers i) items := by
  rw [removed_eq_remains, length_remains, remains_remains]
  refine remains_congr fun i hi => ?_
  cases hgone : gone i with
  | true => rfl
  | false => exact h.covers_iff hi hgone

/-- Subsets that are steady against those before them. -/
theorem foldl_removed {α : Type} {items : List α} : ∀ {subsets : List Subset} {gone : Nat → Bool},
    (∀ s ∈ subsets, s.Steady items.length gone) →
    subsets.Pairwise (fun u s => s.Steady items.length (u.window items.length).covers) →
      subsets.foldl removed (remains gone items) =
        remains (fun i => gone i || subsets.any fun s => (s.window items.length).covers i) items
  | [], gone, _, _ => by simp
  | s :: subsets, gone, hgone, hpairwise => by
    -- For the subsets behind, what `s` covers is gone as well.
    obtain ⟨hs, hsubsets⟩ := List.forall_mem_cons.1 hgone
    obtain ⟨hfirst, hpairwise⟩ := List.pairwise_cons.1 hpairwise
    rw [List.foldl_cons, hs.removed_remains,
      foldl_removed (fun t ht => (hsubsets t ht).or (hfirst t ht)) hpairwise]
    refine remains_congr fun i _ => ?_
    rw [List.any_cons, Bool.or_assoc]

end Subset

namespace Selector

section Fields

variable {pick : Pick} {key : String}

theorem get?_pruneField_of_ne (h : pick.name ≠ key) (node : Object) :
    (pruneField pick node).get? key = node.get? key := by
  unfold pruneField
  split
  · rw [Object.get?_modify, if_neg h.symm]
  · rw [Object.get?_erase, if_neg h.symm]

theorem get?_pruneField_of_subset {node : Object} {items : List Json} {subset : Subset}
    (hname : pick.name = key) (hsubset : pick.subset = some subset)
    (hkey : node.get? key = some (.arr items)) :
    (pruneField pick node).get? key = some (.arr (subset.removed items)) := by
  unfold pruneField
  rw [hsubset, hname, hkey]
  dsimp only
  rw [Object.get?_modify, if_pos rfl, hkey]
  rfl

end Fields

/-- Each field meets what the fields before it have left. -/
theorem get?_prune_eq_foldl {key : String} : ∀ {s : Selector} {node : Object} {items : List Json}
    {subsets : List Subset}, s.subsetsOn key = subsets.map some →
    (∀ d ∈ s.descents, d.1.name ≠ key) → node.get? key = some (.arr items) →
      (s.prune node).get? key = some (.arr (subsets.foldl Subset.removed items))
  | nil, _, _, [], _, _, hkey => hkey
  | field pick rest, node, items, subsets, hsubsets, hdescents, hkey => by
    rw [prune]
    by_cases hname : pick.name = key
    · rw [subsetsOn_field_of_name hname] at hsubsets
      obtain ⟨subset, subsets, rfl, hsubset, hrest⟩ := List.map_eq_cons_iff.1 hsubsets.symm
      rw [List.foldl_cons]
      exact get?_prune_eq_foldl hrest.symm hdescents
        (get?_pruneField_of_subset hname hsubset.symm hkey)
    · rw [subsetsOn_field_of_ne hname] at hsubsets
      exact get?_prune_eq_foldl hsubsets hdescents
        ((get?_pruneField_of_ne hname node).trans hkey)
  | descend pick inner rest, node, items, subsets, hsubsets, hdescents, hkey => by
    obtain ⟨hname, hrest⟩ := List.forall_mem_cons.1 hdescents
    rw [prune]
    refine get?_prune_eq_foldl (s := rest) hsubsets hrest ?_
    rw [Object.get?_modify, if_neg (Ne.symm hname), hkey]

/-- Gathering resolves every subset on the whole array. -/
theorem gather_eq_flatMap_covered {key : String} {node : Object} {items : List Json} :
    ∀ {s : Selector} {subsets : List Subset}, s.subsetsOn key = subsets.map some →
    (∀ x ∈ s.picks, x.1 = .field ∧ x.2.name = key) → node.get? key = some (.arr items) →
      s.gather [node] = subsets.flatMap fun subset => Subset.covered (some subset) items
  | nil, [], _, _, _ => rfl
  | field pick rest, subsets, hsubsets, hpicks, hkey => by
    obtain ⟨⟨-, hname⟩, hrest⟩ := List.forall_mem_cons.1 hpicks
    rw [subsetsOn_field_of_name hname] at hsubsets
    obtain ⟨subset, subsets, rfl, hsubset, hsubsets⟩ := List.map_eq_cons_iff.1 hsubsets.symm
    have hvalues : ([node].filterMap (·.get? pick.name)).flatMap (fieldValues pick.subset) =
        Subset.covered (some subset) items := by
      rw [hname, List.filterMap_cons, hkey, ← hsubset]
      exact List.append_nil _
    rw [gather_field, hvalues, gather_eq_flatMap_covered hsubsets.symm hrest hkey,
      List.flatMap_cons]
  | descend pick inner rest, _, _, hpicks, _ =>
    absurd (List.forall_mem_cons.1 hpicks).1.1 nofun

/-- Of an array of which fields pick stretches, pruning removes stretch by stretch, each resolved on
what is left of the array, and gathering copies stretch by stretch, each resolved on the whole of
it. If each subset is steady against those before it, pruning leaves just the elements that no
subset covers in the array as it was. -/
theorem get?_prune_of_fields {s : Selector} {key : String} {subsets : List Subset} {node : Object}
    {items : List Json} (hsubsets : s.subsetsOn key = subsets.map some)
    (hdescents : ∀ d ∈ s.descents, d.1.name ≠ key) (hkey : node.get? key = some (.arr items)) :
    (s.prune node).get? key = some (.arr (subsets.foldl Subset.removed items))
      ∧ ((∀ x ∈ s.picks, x.2.name = key) →
        s.gather [node] = subsets.flatMap fun subset => Subset.covered (some subset) items)
      ∧ (subsets.Pairwise (fun u t => t.Steady items.length (u.window items.length).covers) →
        (s.prune node).get? key = some (.arr (items.zipIdx.filterMap fun x =>
          if ∃ t ∈ subsets, (t.window items.length).covers x.2 then none else some x.1))) := by
  have hprune := get?_prune_eq_foldl hsubsets hdescents hkey
  refine ⟨hprune, fun hnames => ?_, fun hpairwise => ?_⟩
  · refine gather_eq_flatMap_covered hsubsets (fun x hx => ⟨?_, hnames x hx⟩) hkey
    obtain ⟨role, pick⟩ := x
    cases role with
    | field => rfl
    | descend =>
      obtain ⟨inner, hd⟩ := mem_picks_iff_mem_descents.1 hx
      exact absurd (hnames _ hx) (hdescents _ hd)
  · have hfold : subsets.foldl Subset.removed (Window.remains (fun _ => false) items) = _ :=
      Subset.foldl_removed (fun _ _ => .of_none fun _ => rfl) hpairwise
    rw [Window.remains_none] at hfold
    rw [hprune, hfold, Window.remains]
    refine congrArg (some ∘ Json.arr) (List.filterMap_congr fun x _ => ?_)
    simp [Window.spare]

theorem get?_prune_of_fields_backwards :
    ∃ (s : Selector) (subsets : List Subset) (node : Object) (items : List Json),
      parse "a[-2:] a[3] a[:1]" = .ok s
      ∧ items = [.str "1", .str "2", .str "3", .str "4", .str "5"]
      ∧ node = [("b", .null), ("a", .arr items)]
      ∧ s.subsetsOn "a" = subsets.map some ∧ (∀ d ∈ s.descents, d.1.name ≠ "a")
      ∧ node.get? "a" = some (.arr items)
      ∧ s.gather [node] = [.str "4", .str "5", .str "3", .str "1"]
      ∧ (s.prune node).get? "a" = some (.arr [.str "2"])
      ∧ (s.prune node).get? "a" = some (.arr (items.zipIdx.filterMap fun x =>
        if ∃ t ∈ subsets, (t.window items.length).covers x.2 then none else some x.1)) := by
  have hparse : parse "a[-2:] a[3] a[:1]" = .ok (.field ⟨"a[-2:]", "a", some ⟨some (-2), none⟩⟩
      (.field ⟨"a[3]", "a", some ⟨some 2, some 2⟩⟩
        (.field ⟨"a[:1]", "a", some ⟨none, some 0⟩⟩ .nil))) := by
    decide
  have hsubsets : subsetsOn (.field ⟨"a[-2:]", "a", some ⟨some (-2), none⟩⟩
      (.field ⟨"a[3]", "a", some ⟨some 2, some 2⟩⟩
        (.field ⟨"a[:1]", "a", some ⟨none, some 0⟩⟩ .nil))) "a" =
      [(⟨some (-2), none⟩ : Subset), ⟨some 2, some 2⟩, ⟨none, some 0⟩].map some := by
    decide
  have hkey : Object.get? [("b", .null),
      ("a", .arr [.str "1", .str "2", .str "3", .str "4", .str "5"])] "a" =
        some (.arr [.str "1", .str "2", .str "3", .str "4", .str "5"]) := rfl
  have hpairwise : [(⟨some (-2), none⟩ : Subset), ⟨some 2, some 2⟩, ⟨none, some 0⟩].Pairwise
      fun u t => t.Steady 5 (u.window 5).covers := by
    have hlast : (⟨some (-2), none⟩ : Subset).window 5 = ⟨3, 5⟩ := by decide
    have hthird : (⟨some 2, some 2⟩ : Subset).window 5 = ⟨2, 3⟩ := by decide
    simp only [List.pairwise_cons, List.forall_mem_cons, hlast, hthird]
    have hnil : ∀ {P : Subset → Prop}, ∀ t ∈ [], P t := fun _ ht => absurd ht List.not_mem_nil
    refine ⟨⟨Subset.steady_of_lt_start ?_ (by decide) (by decide),
      Subset.steady_of_lt_start nofun (by decide) (by decide), hnil⟩,
      ⟨Subset.steady_of_lt_start nofun (by decide) (by decide), hnil⟩, hnil, .nil⟩
    rintro _ ⟨⟩
    decide
  obtain ⟨hprune, hgather, hremoved⟩ := get?_prune_of_fields hsubsets
    (fun _ hd => absurd hd List.not_mem_nil) hkey
  exact ⟨_, _, _, _, hparse, rfl, rfl, hsubsets, fun _ hd => absurd hd List.not_mem_nil, hkey,
    (hgather (by decide)).trans (by decide), hprune.trans (by decide), hremoved hpairwise⟩

/-- Of `a[1] a[2]` the second stretch is resolved on the two elements that the first one leaves. -/
example : prune (.field ⟨"a[1]", "a", some ⟨some 0, some 0⟩⟩
    (.field ⟨"a[2]", "a", some ⟨some 1, some 1⟩⟩ .nil))
    [("a", .arr [.str "1", .str "2", .str "3"])] = [("a", .arr [.str "2"])] := by
  decide

end Selector

end JsonSelect
