import JsonSelect.Proofs.Batches
import JsonSelect.Proofs.Marking
import JsonSelect.Proofs.Places

/-!
# What pruning deletes

A selector marks the parts of an object that its fields take, in the object as it was
(`Selector.marks`). Pruning deletes just these, although each pick meets what the picks before it
have left, in two cases: if no two picks at one place have the same name, since then every pick
finds its member whole (`Selector.prune_unmarked`), and if no field has a subset, since what is
deleted then neither moves nor hides the objects that later descents lead to
(`Selector.prune_unmarked_of_takesWhole`).

In the second case a second pruning deletes nothing more (`Selector.prune_prune`), the order of the
picks is of no account (`Selector.Reordered.marks_eq`), and nothing that is selected is left
(`Selector.gather_unmarked`).
-/

namespace JsonSelect

namespace Subset

/-- A field takes the part of a value at a way: the value itself, or, if there is a subset and the
value is an array, an element that is covered. -/
inductive Takes : Option Subset → Json → List Step → Prop
  | whole (v : Json) : Takes none v []
  | item {s : Subset} {items : List Json} {i : Nat} (hi : i < items.length)
      (hc : (s.window items.length).covers i) : Takes (some s) (.arr items) [.item i]
  | other {s : Subset} {v : Json} (hv : ∀ items, v ≠ .arr items) : Takes (some s) v []

/-- What a field marks in a value. -/
def marksOf : Option Subset → Json → Marks
  | some s, .arr items => Marks.items (s.window items.length).covers
  | _, _ => Marks.whole

/-- What a descent marks in a value, if `f` marks parts of the objects that it leads to. -/
def marksIn (subset : Option Subset) (f : Object → Marks) : Json → Marks
  | .obj child => f child
  | .arr items => fun
    | .item i :: way =>
      takesIn subset items.length i && (items[i]?.bind Json.object?).elim Marks.none f way
    | _ => false
  | _ => Marks.none

theorem marksOf_none (v : Json) : marksOf none v = Marks.whole := rfl

theorem marksOf_eq_whole {subset : Option Subset} {v : Json}
    (h : ∀ s items, subset = some s → v ≠ .arr items) : marksOf subset v = Marks.whole := by
  unfold marksOf
  split
  · next s items => exact absurd rfl (h s items rfl)
  · rfl

theorem marksOf_iff {subset : Option Subset} {v : Json} {way : List Step} :
    marksOf subset v way ↔ Takes subset v way := by
  constructor
  · intro h
    cases subset with
    | none =>
      obtain rfl := List.isEmpty_iff.1 h
      exact .whole v
    | some s =>
      cases v with
      | arr items =>
        rcases way with _ | ⟨_ | i, _ | ⟨_, _⟩⟩
        · exact absurd h Bool.false_ne_true
        · exact absurd h Bool.false_ne_true
        · exact absurd h Bool.false_ne_true
        · have hstop := (Window.covers_iff.1 h).2
          exact .item (Nat.lt_of_lt_of_le hstop (s.window_stop_le _)) h
        · exact absurd h Bool.false_ne_true
      | _ =>
        obtain rfl := List.isEmpty_iff.1 h
        exact .other nofun
  · intro h
    cases h with
    | whole => exact rfl
    | item _ hc => exact hc
    | other hv =>
      cases v with
      | arr items => exact absurd rfl (hv items)
      | _ => rfl

theorem marksIn_iff {subset : Option Subset} {f : Object → Marks} {v : Json} {way : List Step} :
    marksIn subset f v way ↔
      ∃ way₁ child way₂, Leads subset v way₁ child ∧ way = way₁ ++ way₂ ∧ f child way₂ := by
  constructor
  · intro h
    cases v with
    | obj child => exact ⟨[], child, way, .obj, rfl, h⟩
    | arr items =>
      rcases way with _ | ⟨_ | i, way⟩
      · simp [marksIn] at h
      · simp [marksIn] at h
      · simp only [marksIn, Bool.and_eq_true] at h
        obtain ⟨hc, h⟩ := h
        cases hi : items[i]?.bind Json.object? with
        | none => simp [hi, Marks.none] at h
        | some child =>
          rw [hi] at h
          obtain ⟨item, hitem, hobj⟩ := Option.bind_eq_some_iff.1 hi
          obtain rfl := object?_eq_some.1 hobj
          exact ⟨[.item i], child, way, .arr hitem hc, rfl, h⟩
    | _ => simp [marksIn, Marks.none] at h
  · rintro ⟨way₁, child, way₂, hl, rfl, h⟩
    cases hl with
    | obj => exact h
    | arr hi hc => simp [marksIn, hi, hc, Json.object?, h]

section MarksIn

variable {subset : Option Subset} {f : Object → Marks}

theorem marksIn_root (hf : ∀ o, f o [] = false) (v : Json) : marksIn subset f v [] = false := by
  cases v with
  | obj child => exact hf child
  | _ => rfl

/-- No object is marked itself, so no element of an array is. -/
theorem marksIn_item (hf : ∀ o, f o [] = false) (items : List Json) (i : Nat) :
    marksIn subset f (.arr items) [.item i] = false := by
  cases hi : items[i]?.bind Json.object? <;> simp [marksIn, hi, hf, Marks.none]

theorem below_marksIn_arr {items : List Json} {i : Nat} {item : Json} (hi : items[i]? = some item) :
    (marksIn subset f (.arr items)).below (.item i) =
      if takesIn subset items.length i then item.object?.elim Marks.none f else Marks.none := by
  funext way
  by_cases hc : takesIn subset items.length i <;> simp [Marks.below, Marks.none, marksIn, hi, hc]

theorem sparesItems_marksIn (hroot : ∀ o, f o [] = false) (hf : ∀ o, (f o).SparesItems)
    (v : Json) : (marksIn subset f v).SparesItems := by
  cases v with
  | obj child => exact hf child
  | arr items =>
    intro way i
    rcases way with _ | ⟨_ | j, way⟩
    · exact marksIn_item hroot items i
    · rfl
    · cases hj : items[j]?.bind Json.object? with
      | none => simp [marksIn, hj, Marks.none]
      | some child => simp [marksIn, hj, hf child way i]
  | _ => exact Marks.sparesItems_none

/-- The objects that a descent leads to are changed in place, if no element has moved. -/
theorem updateChildren_unmarked {g : Object → Object} {v : Json} {m : Marks}
    (hroot : ∀ o, f o [] = false) (hm : ∀ i, m [.item i] = false)
    (h : ∀ way child, Leads subset v way child →
      g (child.unmarked (m.behind way)) = child.unmarked ((m.behind way).or (f child))) :
    updateChildren subset g (v.unmarked m) = v.unmarked (m.or (marksIn subset f v)) := by
  cases v with
  | obj child => exact congrArg Json.obj (h [] child .obj)
  | arr items =>
    have hor : ∀ i, m.or (marksIn subset f (.arr items)) [.item i] = false := by
      intro i
      unfold Marks.or
      rw [hm, marksIn_item hroot, Bool.or_false]
    rw [Json.unmarked_arr hm, Json.unmarked_arr hor, updateChildren_arr, List.length_mapIdx]
    refine congrArg Json.arr (List.ext_getElem? fun i => ?_)
    rw [List.getElem?_mapIdx, List.getElem?_mapIdx, List.getElem?_mapIdx, Option.map_map]
    cases hi : items[i]? with
    | none => rfl
    | some item =>
      refine congrArg some ?_
      rw [Marks.below_or, below_marksIn_arr hi, Function.comp_apply]
      by_cases hc : takesIn subset items.length i
      · rw [if_pos hc, if_pos hc]
        cases item with
        | obj child => exact congrArg Json.obj (h [.item i] child (.arr hi hc))
        | _ => exact congrArg (Json.unmarked · _) (Marks.or_none _).symm
      · rw [if_neg hc, if_neg hc, Marks.or_none]
  | _ => rfl

end MarksIn

theorem unmarked_marksOf_arr (s : Subset) (items : List Json) :
    (Json.arr items).unmarked (marksOf (some s) (.arr items)) =
      .arr ((s.window items.length).remove items) := by
  rw [Json.unmarked, Json.unmarkedItems_eq,
    Window.remove_eq_filterMap (s.window_start_le_stop _) (s.window_stop_le _)]
  refine congrArg Json.arr (List.filterMap_congr fun x _ => ?_)
  rw [marksOf, Marks.below_items_item]
  by_cases hc : (s.window items.length).covers x.2
  · rw [if_pos hc, if_pos hc]
    exact if_pos hc
  · rw [if_neg hc, if_neg hc, Json.unmarked_none]
    exact if_neg hc

/-- A descent leads to the same objects where members are deleted, to what is left of them. -/
theorem Leads.of_unmarked {subset : Option Subset} {v : Json} {m : Marks} {way : List Step}
    {node : Object} (hm : ∀ i, m [.item i] = false) (h : Leads subset (v.unmarked m) way node) :
    ∃ child, Leads subset v way child ∧ node = child.unmarked (m.behind way) := by
  cases v with
  | obj child =>
    cases h
    exact ⟨child, .obj, rfl⟩
  | arr items =>
    rw [Json.unmarked_arr hm] at h
    cases h with
    | arr hi hc =>
      rw [List.getElem?_mapIdx] at hi
      rw [List.length_mapIdx] at hc
      obtain ⟨item, hitem, hobj⟩ := Option.map_eq_some_iff.1 hi
      cases item with
      | obj child => exact ⟨child, .arr hitem hc, (Json.obj.inj hobj).symm⟩
      | _ => simp [Json.unmarked] at hobj
  | _ => cases h

end Subset

namespace Selector

/-- The parts of an object that a selector picks. -/
def marks : Selector → Object → Marks
  | nil, _ => Marks.none
  | field pick rest, o => (Marks.member o pick.name (Subset.marksOf pick.subset)).or (rest.marks o)
  | descend pick inner rest, o =>
    (Marks.member o pick.name (Subset.marksIn pick.subset inner.marks)).or (rest.marks o)

theorem marks_root (o : Object) : ∀ s : Selector, s.marks o [] = false
  | nil => rfl
  | field _ rest => marks_root o rest
  | descend _ _ rest => marks_root o rest

theorem below_marks_key {o : Object} {name : String} : ∀ {s : Selector},
    (∀ x ∈ s.picks, x.2.name ≠ name) → (s.marks o).below (.key name) = Marks.none
  | nil, _ => rfl
  | field pick rest, h => by
    obtain ⟨hne, hrest⟩ := List.forall_mem_cons.1 h
    rw [marks, Marks.below_or, below_marks_key hrest, Marks.or_none,
      Marks.below_member_of_ne hne.symm]
  | descend pick inner rest, h => by
    obtain ⟨hne, hrest⟩ := List.forall_mem_cons.1 h
    rw [marks, Marks.below_or, below_marks_key hrest, Marks.or_none,
      Marks.below_member_of_ne hne.symm]

/-- A field erases a member, whatever is deleted of it, or removes elements of an array of which
nothing is. -/
theorem pruneField_unmarked {pick : Pick} {m : Marks} {o : Object} (ho : o.HasDistinctKeys)
    (hm : pick.subset = none ∨ m.below (.key pick.name) = Marks.none) :
    pruneField pick (o.unmarked m) =
      o.unmarked (m.or (Marks.member o pick.name (Subset.marksOf pick.subset))) := by
  unfold pruneField
  rcases hm with hnone | hm
  · rw [hnone]
    exact Object.erase_unmarked_member fun v _ => Subset.marksOf_none v
  · rw [Object.get?_unmarked_of_none hm]
    split
    · next s items hs hget =>
      refine Object.modify_unmarked_member ho fun v hv => ?_
      obtain rfl := Option.some.inj (hget.symm.trans hv)
      rw [hs, hm, Marks.none_or]
      exact ⟨rfl, (Subset.unmarked_marksOf_arr s items).symm⟩
    · next hother =>
      refine Object.erase_unmarked_member fun v hv => Subset.marksOf_eq_whole ?_
      rintro s items hs rfl
      exact hother s items hs hv

section DistinctNames

variable {pick : Pick} {inner rest : Selector}

/-- No two picks of one place have the same name. -/
def HasDistinctNames (s : Selector) : Prop := s.Everywhere fun t => (t.picks.map (·.2.name)).Nodup

theorem nodup_names_of_cons {name : String} (h : (name :: rest.picks.map (·.2.name)).Nodup) :
    (rest.picks.map (·.2.name)).Nodup ∧ ∀ x ∈ rest.picks, x.2.name ≠ name := by
  obtain ⟨hne, hrest⟩ := List.nodup_cons.1 h
  refine ⟨hrest, fun x hx => ?_⟩
  rintro rfl
  exact hne (List.mem_map_of_mem (f := (·.2.name)) hx)

theorem HasDistinctNames.of_field (h : (field pick rest).HasDistinctNames) :
    rest.HasDistinctNames ∧ ∀ x ∈ rest.picks, x.2.name ≠ pick.name :=
  (nodup_names_of_cons h.here).imp_left (Everywhere.rest_field h)

theorem HasDistinctNames.of_descend (h : (descend pick inner rest).HasDistinctNames) :
    inner.HasDistinctNames ∧ rest.HasDistinctNames ∧ ∀ x ∈ rest.picks, x.2.name ≠ pick.name :=
  ⟨Everywhere.of_descend h, (nodup_names_of_cons h.here).imp_left (Everywhere.rest_descend h)⟩

/-- Pruning what is left of an object deletes what the selector marks in the object as it was, if
the members that its picks name are still whole. -/
theorem prune_unmarked : ∀ {s : Selector} {o : Object} (m : Marks), s.HasDistinctNames →
    (Json.obj o).Proper → (∀ x ∈ s.picks, m.below (.key x.2.name) = Marks.none) →
      s.prune (o.unmarked m) = o.unmarked (m.or (s.marks o))
  | nil, o, m, _, _, _ => by rw [prune, marks, Marks.or_none]
  | field pick rest, o, m, h, ho, hm => by
    obtain ⟨hrest, hne⟩ := h.of_field
    obtain ⟨hpick, hm⟩ := List.forall_mem_cons.1 hm
    rw [prune, pruneField_unmarked ho.distinct (.inr hpick), prune_unmarked _ hrest ho,
      Marks.or_assoc, marks]
    -- the picks still to come name other members
    intro x hx
    rw [Marks.below_or, hm x hx, Marks.below_member_of_ne (hne x hx), Marks.none_or]
  | descend pick inner rest, o, m, h, ho, hm => by
    obtain ⟨hinner, hrest, hne⟩ := h.of_descend
    obtain ⟨hpick, hm⟩ := List.forall_mem_cons.1 hm
    have hroot := fun child => marks_root child inner
    have hmodify : (o.unmarked m).modify pick.name (Subset.updateChildren pick.subset inner.prune) =
        o.unmarked (m.or (Marks.member o pick.name (Subset.marksIn pick.subset inner.marks))) := by
      refine Object.modify_unmarked_member ho.distinct fun v hv => ⟨Subset.marksIn_root hroot v, ?_⟩
      rw [hpick]
      exact Subset.updateChildren_unmarked hroot (fun _ => rfl) fun way child hl =>
        prune_unmarked Marks.none hinner ((ho.of_get? hv).of_leads hl) fun _ _ => rfl
    rw [prune, hmodify, prune_unmarked _ hrest ho, Marks.or_assoc, marks]
    intro x hx
    rw [Marks.below_or, hm x hx, Marks.below_member_of_ne (hne x hx), Marks.none_or]

theorem prune_eq_unmarked {s : Selector} {o : Object} (hs : s.HasDistinctNames)
    (ho : (Json.obj o).Proper) : s.prune o = o.unmarked (s.marks o) := by
  have := prune_unmarked Marks.none hs ho fun _ _ => rfl
  rwa [Object.unmarked_none, Marks.none_or] at this

end DistinctNames

/-- No field of the selector, at any place, has a subset. -/
def TakesWhole : Selector → Prop
  | nil => True
  | field pick rest => pick.subset = none ∧ rest.TakesWhole
  | descend _ inner rest => inner.TakesWhole ∧ rest.TakesWhole

theorem sparesItems_member {o : Object} {name : String} {f : Json → Marks}
    (hf : ∀ v, (f v).SparesItems) : (Marks.member o name f).SparesItems := by
  refine Marks.SparesItems.under ?_ name
  cases o.get? name with
  | none => exact Marks.sparesItems_none
  | some v => exact hf v

theorem sparesItems_marks : ∀ {s : Selector}, s.TakesWhole → ∀ o, (s.marks o).SparesItems
  | nil, _, _ => Marks.sparesItems_none
  | field pick rest, h, o => by
    refine (sparesItems_member fun v => ?_).or (sparesItems_marks h.2 o)
    rw [h.1]
    exact Marks.sparesItems_whole
  | descend pick inner rest, h, o => by
    refine (sparesItems_member fun v => ?_).or (sparesItems_marks h.2 o)
    exact Subset.sparesItems_marksIn (fun child => marks_root child inner) (sparesItems_marks h.1) v

/-- Pruning what an earlier deletion of members has left deletes what it would have deleted
before. -/
theorem prune_unmarked_of_takesWhole : ∀ {s : Selector} {o : Object} {m : Marks}, s.TakesWhole →
    (Json.obj o).Proper → m.SparesItems → s.prune (o.unmarked m) = o.unmarked (m.or (s.marks o))
  | nil, o, m, _, _, _ => by rw [prune, marks, Marks.or_none]
  | field pick rest, o, m, hs, ho, hm => by
    have hfield : (Marks.member o pick.name (Subset.marksOf pick.subset)).SparesItems := by
      rw [hs.1]
      exact sparesItems_member fun _ => Marks.sparesItems_whole
    rw [prune, pruneField_unmarked ho.distinct (.inl hs.1),
      prune_unmarked_of_takesWhole hs.2 ho (hm.or hfield), Marks.or_assoc, marks]
  | descend pick inner rest, o, m, hs, ho, hm => by
    have hroot := fun child => marks_root child inner
    have hmodify : (o.unmarked m).modify pick.name (Subset.updateChildren pick.subset inner.prune) =
        o.unmarked (m.or (Marks.member o pick.name (Subset.marksIn pick.subset inner.marks))) := by
      refine Object.modify_unmarked_member ho.distinct fun v hv => ⟨Subset.marksIn_root hroot v, ?_⟩
      exact Subset.updateChildren_unmarked hroot (fun i => hm [.key pick.name] i)
        fun way child hl =>
          prune_unmarked_of_takesWhole hs.1 ((ho.of_get? hv).of_leads hl) ((hm.below _).behind way)
    have hdescent : (Marks.member o pick.name
        (Subset.marksIn pick.subset inner.marks)).SparesItems :=
      sparesItems_member (Subset.sparesItems_marksIn hroot (sparesItems_marks hs.1))
    rw [prune, hmodify, prune_unmarked_of_takesWhole hs.2 ho (hm.or hdescent), Marks.or_assoc,
      marks]

theorem prune_eq_of_takesWhole {s : Selector} {o : Object} (hs : s.TakesWhole)
    (ho : (Json.obj o).Proper) : s.prune o = o.unmarked (s.marks o) := by
  have := prune_unmarked_of_takesWhole hs ho Marks.sparesItems_none
  rwa [Object.unmarked_none, Marks.none_or] at this

/-- A second pruning finds nothing more to delete. -/
theorem prune_prune {s : Selector} {o : Object} (hs : s.TakesWhole) (ho : (Json.obj o).Proper) :
    s.prune (s.prune o) = s.prune o := by
  rw [prune_eq_of_takesWhole hs ho, prune_unmarked_of_takesWhole hs ho (sparesItems_marks hs o),
    Marks.or_self]

/-- The same picks in another order, at every place. -/
inductive Reordered : Selector → Selector → Prop
  | nil : Reordered nil nil
  | field {p : Pick} {s t : Selector} (h : Reordered s t) : Reordered (field p s) (field p t)
  | descend {p : Pick} {i j s t : Selector} (hi : Reordered i j) (h : Reordered s t) :
    Reordered (descend p i s) (descend p j t)
  | fields (p q : Pick) (s : Selector) : Reordered (field p (field q s)) (field q (field p s))
  | descents (p q : Pick) (i j s : Selector) :
    Reordered (descend p i (descend q j s)) (descend q j (descend p i s))
  | mixed (p q : Pick) (i s : Selector) :
    Reordered (field p (descend q i s)) (descend q i (field p s))
  | symm {s t : Selector} (h : Reordered s t) : Reordered t s
  | trans {s t u : Selector} (h : Reordered s t) (h' : Reordered t u) : Reordered s u

theorem Reordered.takesWhole {s t : Selector} (h : Reordered s t) :
    s.TakesWhole ↔ t.TakesWhole := by
  induction h with
  | nil => rfl
  | field _ ih => exact and_congr_right' ih
  | descend _ _ ihi ih => exact and_congr ihi ih
  | fields => exact and_left_comm
  | descents => exact and_left_comm
  | mixed => exact and_left_comm
  | symm _ ih => exact ih.symm
  | trans _ _ ih ih' => exact ih.trans ih'

theorem Reordered.marks_eq {s t : Selector} (h : Reordered s t) : s.marks = t.marks := by
  induction h with
  | nil => rfl
  | field _ ih =>
    funext o
    unfold marks
    rw [ih]
  | descend _ _ ihi ih =>
    funext o
    unfold marks
    rw [ihi, ih]
  | fields | descents | mixed =>
    funext o
    exact Marks.or_left_comm _ _ _
  | symm _ ih => exact ih.symm
  | trans _ _ ih ih' => exact ih.trans ih'

/-- An object from which members are deleted, and with them all that the selector marks. -/
def Cleared (s : Selector) (node : Object) : Prop :=
  ∃ (o : Object) (m : Marks), node = o.unmarked m ∧ (Json.obj o).Proper ∧ m.SparesItems
    ∧ ∀ way, s.marks o way → m way

section Cleared

variable {pick : Pick} {inner rest : Selector} {node child : Object}

theorem Cleared.mono {s t : Selector} (h : s.Cleared node)
    (hle : ∀ o way, t.marks o way → s.marks o way) : t.Cleared node := by
  obtain ⟨o, m, rfl, ho, hspares, hm⟩ := h
  exact ⟨o, m, rfl, ho, hspares, fun way ht => hm way (hle o way ht)⟩

theorem Cleared.of_field (h : (field pick rest).Cleared node) : rest.Cleared node :=
  h.mono fun o way hr => by simp [marks, Marks.or, hr]

theorem Cleared.of_descend (h : (descend pick inner rest).Cleared node) : rest.Cleared node :=
  h.mono fun o way hr => by simp [marks, Marks.or, hr]

theorem Cleared.get?_eq_none (h : (field pick rest).Cleared node) (hpick : pick.subset = none) :
    node.get? pick.name = none := by
  obtain ⟨o, m, rfl, -, -, hm⟩ := h
  rw [Object.get?_unmarked]
  split
  · rfl
  · next hk =>
    rw [Option.map_eq_none_iff]
    by_contra hget
    obtain ⟨v, hv⟩ := Option.ne_none_iff_exists'.1 hget
    refine hk (hm _ ?_)
    simp [marks, Marks.or, Marks.member, Marks.under, hv, hpick, Subset.marksOf, Marks.whole]

/-- Only members were deleted, so the objects that a descent leads to are those that it led to. -/
theorem Cleared.of_child (h : (descend pick inner rest).Cleared node) {v : Json}
    (hv : (pick.name, v) ∈ node) (hc : child ∈ Subset.children pick.subset v) :
    inner.Cleared child := by
  obtain ⟨o, m, rfl, ho, hspares, hm⟩ := h
  obtain ⟨-, v, hw, rfl⟩ := Object.exists_of_mem_unmarked hv
  have hget := ho.distinct.get?_eq hw
  obtain ⟨way, hl⟩ := Subset.mem_children.1 hc
  obtain ⟨child, hl', rfl⟩ := hl.of_unmarked fun i => hspares [.key pick.name] i
  refine ⟨child, _, rfl, (ho.of_get? hget).of_leads hl', (hspares.below _).behind way,
    fun way' hi => hm (.key pick.name :: (way ++ way')) ?_⟩
  have hin := Subset.marksIn_iff.2 ⟨way, child, way', hl', rfl, hi⟩
  simp [marks, Marks.or, Marks.member, Marks.under, hget, hin]

end Cleared

/-- From what is left nothing is gathered. -/
theorem gather_unmarked : ∀ {s : Selector} {nodes : List Object}, s.TakesWhole →
    (∀ node ∈ nodes, s.Cleared node) → s.gather nodes = []
  | nil, _, _, _ => rfl
  | field pick rest, nodes, hs, h => by
    have hfield : nodes.filterMap (·.get? pick.name) = [] :=
      List.filterMap_eq_nil_iff.2 fun node hn => (h node hn).get?_eq_none hs.1
    rw [gather_field, hfield, List.flatMap_nil, List.nil_append]
    exact gather_unmarked hs.2 fun node hn => (h node hn).of_field
  | descend pick inner rest, nodes, hs, h => by
    have hinner : inner.gather (childrenOf pick nodes) = [] := by
      refine gather_unmarked hs.1 fun child hc => ?_
      obtain ⟨node, hn, v, hv, hc⟩ := mem_childrenOf.1 hc
      exact (h node hn).of_child hv hc
    rw [gather_descend, hinner, List.nil_append]
    exact gather_unmarked hs.2 fun node hn => (h node hn).of_descend

end Selector

end JsonSelect
