import JsonSelect.Proofs.Adding
import JsonSelect.Proofs.Marking
import JsonSelect.Proofs.Places
import JsonSelect.Proofs.Stages
import JsonSelect.Selector.Prune
import JsonSelect.Selector.Retain

/-!
# Selecting and dropping in either order

Uniform marks are put on members only, and treat all elements of an array alike (`Marks.Uniform`).
Deleting what they mark can be exchanged with merging (`Json.merge_unmarked`) and so with whatever a
selector retains (`Selector.retain_unmarked`). A selector without subsets prunes by uniform marks
(`Selector.prune_eq_unmarked_drops`): selecting and then dropping by it is dropping and then
selecting (`Selector.pruneAll_retain`).
-/

namespace JsonSelect

namespace Marks

/-- No element of an array is marked, and what is marked behind one is marked behind every other. -/
structure Uniform (m : Marks) : Prop where
  spares : m.SparesItems
  alike : ∀ (before after : List Step) (i j : Nat),
    m (before ++ .item i :: after) = m (before ++ .item j :: after)

/-- What `m` marks in an object, in a value: the value itself, or each of its elements. -/
def inside (m : Marks) : Marks
  | .item _ :: way => m way
  | way => m way

variable {m m' : Marks}

theorem Uniform.below (h : m.Uniform) (step : Step) : (m.below step).Uniform :=
  ⟨h.spares.below step, fun before => h.alike (step :: before)⟩

theorem Uniform.below_item (h : m.Uniform) (i j : Nat) : m.below (.item i) = m.below (.item j) := by
  funext way
  exact h.alike [] way i j

theorem uniform_none : none.Uniform := ⟨sparesItems_none, fun _ _ _ _ => rfl⟩

theorem uniform_whole : whole.Uniform :=
  ⟨sparesItems_whole, fun before _ _ _ => by cases before <;> rfl⟩

theorem Uniform.or (h : m.Uniform) (h' : m'.Uniform) : (m.or m').Uniform := by
  refine ⟨h.spares.or h'.spares, fun before after i j => ?_⟩
  unfold Marks.or
  rw [h.alike before after i j, h'.alike before after i j]

theorem Uniform.under (h : m.Uniform) (name : String) : (under (.key name) m).Uniform := by
  refine ⟨h.spares.under name, fun before after i j => ?_⟩
  cases before with
  | nil => rfl
  | cons step before => exact congrArg (_ && ·) (h.alike before after i j)

theorem Uniform.inside (h : m.Uniform) (hroot : m [] = false) : m.inside.Uniform := by
  refine ⟨fun way i => ?_, fun before after i j => ?_⟩
  · rcases way with _ | ⟨_ | _, way⟩
    · exact hroot
    · exact h.spares (.key _ :: way) i
    · exact h.spares way i
  · rcases before with _ | ⟨_ | _, before⟩
    · rfl
    · exact h.alike (.key _ :: before) after i j
    · exact h.alike before after i j

end Marks

namespace Json

theorem unmarked_arr_of_uniform {m : Marks} (h : m.Uniform) (items : List Json) :
    (arr items).unmarked m = arr (items.map (unmarked (m.below (.item 0)))) := by
  rw [unmarked_arr (h.spares [])]
  refine congrArg arr (List.ext_getElem? fun i => ?_)
  rw [List.getElem?_mapIdx, List.getElem?_map, h.below_item i 0]

/-- What is marked in an array is marked by way of its elements. -/
theorem unmarked_arr_congr {m m' : Marks} (h : ∀ i, m.below (.item i) = m'.below (.item i))
    (items : List Json) : (arr items).unmarked m = (arr items).unmarked m' := by
  have hroot : ∀ i, m [.item i] = m' [.item i] := fun i => congrFun (h i) []
  rw [unmarked, unmarked, unmarkedItems_eq, unmarkedItems_eq]
  simp only [h, hroot]

end Json

namespace Object

/-- What is marked in an object is marked by way of its keys. -/
theorem unmarked_congr {m m' : Marks} (h : ∀ key, m.below (.key key) = m'.below (.key key)) :
    ∀ o : Object, unmarked m o = unmarked m' o
  | [] => rfl
  | (key, value) :: o => by
    have hroot : m [.key key] = m' [.key key] := congrFun (h key) []
    rw [unmarked_cons, unmarked_cons, hroot, h, unmarked_congr h o]

theorem unmarked_append (m : Marks) : ∀ o p : Object,
    unmarked m (o ++ p) = unmarked m o ++ unmarked m p
  | [], _ => rfl
  | (key, value) :: o, p => by
    rw [List.cons_append, unmarked_cons, unmarked_cons, unmarked_append]
    split <;> rfl

theorem unmarked_modify (m : Marks) (key : String) (value : Json) : ∀ o : Object,
    unmarked m (o.modify key fun _ => value) =
      if m [.key key] then unmarked m o
      else (unmarked m o).modify key fun _ => value.unmarked (m.below (.key key))
  | [] => by simp [modify, unmarked_nil]
  | (k, v) :: o => by
    have ih := unmarked_modify m key value o
    rw [modify, List.map_cons, unmarked_cons]
    by_cases hk : k = key
    · subst hk
      rw [if_pos rfl, unmarked_cons]
      by_cases hm : m [.key k]
      · rw [if_pos hm] at ih
        rw [if_pos hm, if_pos hm, if_pos hm]
        exact ih
      · rw [if_neg hm] at ih
        rw [if_neg hm, if_neg hm, if_neg hm, modify, List.map_cons, if_pos rfl]
        exact congrArg _ ih
    · rw [if_neg hk, unmarked_cons]
      by_cases hm : m [.key k]
      · rw [if_pos hm, if_pos hm]
        exact ih
      · rw [if_neg hm, if_neg hm]
        by_cases hkey : m [.key key]
        · rw [if_pos hkey] at ih ⊢
          exact congrArg _ ih
        · rw [if_neg hkey] at ih ⊢
          rw [modify, List.map_cons, if_neg hk]
          exact congrArg _ ih

theorem unmarked_insert (m : Marks) (o : Object) (key : String) (value : Json) :
    unmarked m (o.insert key value) =
      if m [.key key] then unmarked m o
      else (unmarked m o).insert key (value.unmarked (m.below (.key key))) := by
  unfold insert
  rw [get?_unmarked]
  by_cases hm : m [.key key]
  · rw [if_pos hm]
    split
    · rw [unmarked_modify, if_pos hm]
    · rw [unmarked_append, unmarked_cons, if_pos hm, unmarked_nil, List.append_nil]
  · rw [if_neg hm, if_neg hm, Option.isSome_map]
    split
    · rw [unmarked_modify, if_neg hm]
    · rw [unmarked_append, unmarked_cons, if_neg hm, unmarked_nil]

end Object

namespace Json

mutual

theorem merge_unmarked {m : Marks} (h : m.Uniform) : ∀ a b : Json,
    (a.merge b).unmarked m = (a.unmarked m).merge (b.unmarked m)
  | a, arr more => by
    cases a with
    | arr items => simp [merge, unmarked_arr_of_uniform h]
    | _ => rfl
  | a, obj more => by
    cases a with
    | obj members => exact congrArg obj (mergeMembers_unmarked h members more)
    | _ => rfl
  | a, null | a, bool _ | a, num _ | a, str _ => rfl

theorem mergeMembers_unmarked {m : Marks} (h : m.Uniform) : ∀ (members : Object)
    (more : List (String × Json)), Object.unmarked m (mergeMembers members more) =
      mergeMembers (Object.unmarked m members) (Object.unmarked m more)
  | _, [] => rfl
  | members, (key, value) :: more => by
    rw [mergeMembers, mergeMembers_unmarked h, Object.unmarked_insert, Object.unmarked_cons]
    by_cases hm : m [.key key]
    · rw [if_pos hm, if_pos hm]
    · rw [if_neg hm, if_neg hm, mergeMembers, Object.get?_unmarked, if_neg hm]
      cases members.get? key with
      | none => rfl
      | some existing =>
        dsimp only [Option.map_some]
        rw [merge_unmarked (h.below (.key key)) existing value]

end

end Json

theorem Object.addAll_unmarked {m : Marks} (h : m.Uniform) (o : Object)
    (parts : List (String × Json)) :
    unmarked m (o.addAll parts) = (unmarked m o).addAll (unmarked m parts) := by
  rw [← mergeMembers_eq_addAll, ← mergeMembers_eq_addAll, Json.mergeMembers_unmarked h]

theorem Window.slice_map {α β : Type} (w : Window) (f : α → β) (items : List α) :
    w.slice (items.map f) = (w.slice items).map f := by
  unfold slice
  rw [List.length_map]
  split
  · rw [List.map_drop, List.map_take]
  · rfl

namespace Subset

theorem covered_map (subset : Option Subset) (f : Json → Json) (items : List Json) :
    covered subset (items.map f) = (covered subset items).map f := by
  cases subset with
  | none => rfl
  | some s =>
    unfold covered
    dsimp only
    rw [List.length_map, Window.slice_map]

theorem object?_unmarked (m : Marks) (v : Json) :
    (v.unmarked m).object? = v.object?.map (Object.unmarked m) := by
  cases v <;> rfl

theorem objects_map_unmarked (m : Marks) (items : List Json) :
    Json.objects (items.map (Json.unmarked m)) = (Json.objects items).map (Object.unmarked m) := by
  unfold Json.objects
  rw [List.filterMap_map, List.map_filterMap]
  exact congrArg (List.filterMap · items) (funext (object?_unmarked m))

theorem copyChildren_unmarked (subset : Option Subset) {f : Object → Object} {m : Marks}
    (h : m.Uniform)
    (hf : ∀ (m : Marks) (child : Object), m.Uniform → f (child.unmarked m) = (f child).unmarked m)
    (v : Json) :
    copyChildren subset f (v.unmarked m) = (copyChildren subset f v).map (Json.unmarked m) := by
  cases v with
  | obj child => exact congrArg (some ∘ Json.obj) (hf m child h)
  | arr items =>
    rw [Json.unmarked_arr_of_uniform h, copyChildren, copyChildren, Option.map_some,
      Json.unmarked_arr_of_uniform h, covered_map, objects_map_unmarked, List.map_map, List.map_map]
    refine congrArg (some ∘ Json.arr) (List.map_congr_left fun child _ => ?_)
    exact congrArg Json.obj (hf _ child (h.below _))
  | _ => rfl

end Subset

namespace Selector

theorem cut_unmarked {m : Marks} (h : m.Uniform) (subset : Option Subset) (v : Json) :
    cut subset (v.unmarked m) = (cut subset v).unmarked m := by
  cases v with
  | arr items =>
    rw [Json.unmarked_arr_of_uniform h, cut, cut, Json.unmarked_arr_of_uniform h,
      Subset.covered_map]
  | _ => rfl

/-- What `f` copies of the member under a name, in what is left of an object. -/
theorem copied_unmarked {m : Marks} {name : String} {f : Json → Option Json}
    (hf : ∀ v, f (v.unmarked (m.below (.key name))) =
      (f v).map (Json.unmarked (m.below (.key name)))) (o : Object) :
    (((o.unmarked m).get? name).bind f).toList.map (name, ·) =
      Object.unmarked m (((o.get? name).bind f).toList.map (name, ·)) := by
  rw [Object.get?_unmarked]
  by_cases hm : m [.key name]
  · rw [if_pos hm]
    cases (o.get? name).bind f with
    | none => rfl
    | some v => simp [Object.unmarked_cons, Object.unmarked_nil, hm]
  · rw [if_neg hm]
    cases o.get? name with
    | none => rfl
    | some v =>
      rw [Option.map_some, Option.bind_some, Option.bind_some, hf]
      cases f v with
      | none => rfl
      | some v => simp [Object.unmarked_cons, Object.unmarked_nil, hm]

/-- The parts of what is left are what is left of the parts. -/
theorem parts_unmarked : ∀ {s : Selector} (whole : List String) {m : Marks} (o : Object),
    m.Uniform → s.parts whole (o.unmarked m) = Object.unmarked m (s.parts whole o)
  | nil, _, _, _, _ => rfl
  | field pick rest, whole, m, o, h => by
    have hcut := fun v => congrArg some (cut_unmarked (h.below (.key pick.name)) pick.subset v)
    rw [parts, parts, parts_unmarked whole o h, Object.unmarked_append, Option.map_eq_bind,
      copied_unmarked hcut, Option.map_eq_bind]
  | descend pick inner rest, whole, m, o, h => by
    have hinner : ∀ (m : Marks) (child : Object), m.Uniform →
        inner.retain (child.unmarked m) = (inner.retain child).unmarked m := by
      intro m child hm
      rw [retain, retain, parts_unmarked inner.wholeNames child hm, Object.addAll_unmarked hm,
        Object.unmarked_nil]
    have hcopy := Subset.copyChildren_unmarked pick.subset (h.below (.key pick.name)) hinner
    rw [parts_descend, parts_descend, parts_unmarked whole o h, Object.unmarked_append]
    split
    · rfl
    · rw [copied_unmarked hcopy]

theorem retain_unmarked {m : Marks} (h : m.Uniform) (s : Selector) (o : Object) :
    s.retain (o.unmarked m) = (s.retain o).unmarked m := by
  rw [retain, retain, parts_unmarked s.wholeNames o h, Object.addAll_unmarked h,
    Object.unmarked_nil]

/-- What a selector without subsets deletes from every object. -/
def drops : Selector → Marks
  | nil => Marks.none
  | field pick rest => (Marks.under (.key pick.name) Marks.whole).or rest.drops
  | descend pick inner rest => (Marks.under (.key pick.name) inner.drops.inside).or rest.drops

/-- No pick of the selector, at any place, has a subset. -/
def WithoutSubsets (s : Selector) : Prop := s.Everywhere fun t => ∀ x ∈ t.picks, x.2.subset = none

theorem drops_root : ∀ s : Selector, s.drops [] = false
  | nil => rfl
  | field _ rest => drops_root rest
  | descend _ _ rest => drops_root rest

theorem uniform_drops : ∀ s : Selector, s.drops.Uniform
  | nil => Marks.uniform_none
  | field pick rest => (Marks.uniform_whole.under pick.name).or rest.uniform_drops
  | descend pick inner rest =>
    ((inner.uniform_drops.inside inner.drops_root).under pick.name).or rest.uniform_drops

theorem below_drops_item (i : Nat) : ∀ s : Selector, s.drops.below (.item i) = Marks.none
  | nil => rfl
  | field _ rest => below_drops_item i rest
  | descend _ _ rest => below_drops_item i rest

theorem updateChildren_unmarked_inside {inner : Selector} {f : Object → Object}
    (hf : ∀ (m : Marks) (child : Object), m.SparesItems →
      f (child.unmarked m) = child.unmarked (m.or inner.drops))
    {m : Marks} (hm : m.SparesItems) (v : Json) :
    Subset.updateChildren none f (v.unmarked m) = v.unmarked (m.or inner.drops.inside) := by
  cases v with
  | obj child =>
    have hkeys : ∀ key, (m.or inner.drops).below (.key key) =
        (m.or inner.drops.inside).below (.key key) := fun _ => rfl
    exact congrArg Json.obj ((hf m child hm).trans (Object.unmarked_congr hkeys child))
  | arr items =>
    have hinside := inner.uniform_drops.inside inner.drops_root
    rw [Json.unmarked_arr (hm []), Json.unmarked_arr ((hm.or hinside.spares) []),
      Subset.updateChildren]
    refine congrArg Json.arr (List.ext_getElem? fun i => ?_)
    rw [List.getElem?_map, List.getElem?_mapIdx, List.getElem?_mapIdx, Option.map_map]
    refine Option.map_congr fun item _ => ?_
    cases item with
    | obj child => exact congrArg Json.obj (hf (m.below (.item i)) child (hm.below _))
    | arr items =>
      -- an array in an array is left as it is: no way from an object starts with an element
      refine Json.unmarked_arr_congr (fun j => ?_) items
      have hitem : ((m.or inner.drops.inside).below (.item i)).below (.item j) =
        ((m.below (.item i)).below (.item j)).or (inner.drops.below (.item j)) := rfl
      rw [hitem, inner.below_drops_item j, Marks.or_none]
    | _ => rfl
  | _ => rfl

theorem prune_unmarked_drops : ∀ {s : Selector} {m : Marks} (o : Object), s.WithoutSubsets →
    m.SparesItems → s.prune (o.unmarked m) = o.unmarked (m.or s.drops)
  | nil, m, o, _, _ => by rw [prune, drops, Marks.or_none]
  | field pick rest, m, o, h, hm => by
    have hrest : rest.WithoutSubsets := h.rest_field fun x hx => h.here x (.tail _ hx)
    have herase : pruneField pick (o.unmarked m) =
        o.unmarked (m.or (Marks.under (.key pick.name) Marks.whole)) := by
      unfold pruneField
      rw [h.here _ (.head _)]
      exact Object.erase_unmarked m pick.name o
    rw [prune, herase, prune_unmarked_drops o hrest (hm.or (Marks.sparesItems_whole.under _)),
      Marks.or_assoc, drops]
  | descend pick inner rest, m, o, h, hm => by
    have hrest : rest.WithoutSubsets := h.rest_descend fun x hx => h.here x (.tail _ hx)
    have hroot : inner.drops.inside [] = false := inner.drops_root
    have hinside := inner.uniform_drops.inside inner.drops_root
    have hmodify : (o.unmarked m).modify pick.name (Subset.updateChildren pick.subset inner.prune) =
        o.unmarked (m.or (Marks.under (.key pick.name) inner.drops.inside)) := by
      rw [h.here _ (.head _)]
      exact Object.modify_unmarked hroot o fun v _ => updateChildren_unmarked_inside
        (fun _ child => prune_unmarked_drops child h.of_descend) (hm.below _) v
    rw [prune, hmodify, prune_unmarked_drops o hrest (hm.or (hinside.spares.under _)),
      Marks.or_assoc, drops]

theorem prune_eq_unmarked_drops {s : Selector} (h : s.WithoutSubsets) (o : Object) :
    s.prune o = o.unmarked s.drops := by
  have := prune_unmarked_drops o h Marks.sparesItems_none
  rwa [Object.unmarked_none, Marks.none_or] at this

/-- Selecting and then dropping, by a selector that a text writes and that has no subsets, is
dropping and then selecting. So a projection that does both may drop first. -/
theorem pruneAll_retain {text : String} {t : Selector} (ht : parse text = .ok t)
    (hsubsets : ∀ address role pick, (role, pick) ∈ (t.atAddress address).picks →
      pick.subset = none)
    (s : Selector) :
    (∀ nodes : List Object, t.pruneAll (nodes.map s.retain) = (t.pruneAll nodes).map s.retain)
      ∧ ∀ tree : Json, tree.isContainer →
        (Projection.ofTree (some s) (some t) tree).tree =
          (Projection.ofTree (some s) none (Projection.ofTree none (some t) tree).tree).tree := by
  have hwithout : t.WithoutSubsets :=
    (sound_of_parse ht).everywhere fun address x hx => hsubsets address x.1 x.2 hx
  have hnode : ∀ o, t.prune (s.retain o) = s.retain (t.prune o) := fun o => by
    rw [prune_eq_unmarked_drops hwithout, prune_eq_unmarked_drops hwithout,
      retain_unmarked t.uniform_drops]
  have hnodes : ∀ nodes : List Object,
      t.pruneAll (nodes.map s.retain) = (t.pruneAll nodes).map s.retain := fun nodes => by
    rw [pruneAll_eq_map, pruneAll_eq_map, List.map_map, List.map_map]
    exact List.map_congr_left fun o _ => hnode o
  refine ⟨hnodes, fun tree htree => ?_⟩
  have hdropped := Projection.isContainer_ofTree htree none (some t)
  rw [Projection.tree_ofTree htree (.inl rfl), Projection.tree_ofTree hdropped (.inl rfl),
    Projection.tree_ofTree htree (.inr rfl), Projection.nodes_ofNodes]
  have := hnodes tree.nodes
  rw [pruneAll_eq_map, pruneAll_eq_map, List.map_map] at this
  exact congrArg Projection.ofNodes this

theorem pruneAll_retain_windows :
    ∃ (s t : Selector) (nodes : List Object),
      parse "a[2] a{x z} b" = .ok s ∧ parse "a.x b.y" = .ok t
      ∧ nodes = [[("b", .obj [("y", .null)]), ("a", .arr [.obj [("z", .null), ("x", .null)],
        .obj [("x", .null), ("y", .null)]])], [("b", .null)]]
      ∧ t.pruneAll (nodes.map s.retain) = (t.pruneAll nodes).map s.retain
      ∧ t.pruneAll (nodes.map s.retain) =
        [[("a", .arr [.obj [("y", .null)], .obj [("z", .null)], .obj []]), ("b", .obj [])],
          [("b", .null)]] := by
  have hs : parse "a[2] a{x z} b" = .ok
      (.field ⟨"a[2]", "a", some ⟨some 1, some 1⟩⟩ (.field ⟨"b", "b", none⟩
        (.descend ⟨"a", "a", none⟩ (.field ⟨"x", "x", none⟩ (.field ⟨"z", "z", none⟩ .nil))
          .nil))) := by
    decide +kernel
  have ht : parse "a.x b.y" = .ok (.descend ⟨"a", "a", none⟩ (.field ⟨"x", "x", none⟩ .nil)
      (.descend ⟨"b", "b", none⟩ (.field ⟨"y", "y", none⟩ .nil) .nil)) := by
    decide +kernel
  have hindex : ∀ e ∈ index (.descend ⟨"a", "a", none⟩ (.field ⟨"x", "x", none⟩ .nil)
      (.descend ⟨"b", "b", none⟩ (.field ⟨"y", "y", none⟩ .nil) .nil)),
      ∀ x ∈ e.2.picks, x.2.subset = none := by
    decide
  have hsubsets := atAddress_of_index (P := fun t => ∀ x ∈ t.picks, x.2.subset = none)
    (by simp [picks]) hindex
  obtain ⟨hnodes, -⟩ :=
    pruneAll_retain ht (fun address role pick => hsubsets address (role, pick)) _
  exact ⟨_, _, _, hs, ht, rfl, hnodes _, by decide⟩

end Selector

end JsonSelect
