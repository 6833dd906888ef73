import JsonSelect.Proofs.Copying

/-!
# What is retained at the addresses

What a selector that a text writes retains of an object, at any of its addresses, has the keys of
the picks that give something, in the order of the picks, and only what the object has under them;
an array of which no field takes the whole is what its picks take of it, one after the other
(`Selector.content_retain`).
-/

namespace JsonSelect.Selector

/-- Whether a pick finds something to copy in an object. -/
def gives (node : Object) : Role × Pick → Bool
  | (.field, pick) => (node.get? pick.name).isSome
  | (.descend, pick) => (node.get? pick.name).any Json.isContainer

theorem gives_iff {node : Object} {role : Role} {pick : Pick} : gives node (role, pick) ↔
    ∃ v, node.get? pick.name = some v ∧ (role = .field ∨ v.isContainer) := by
  cases role with
  | field => simp [gives, Option.isSome_iff_exists]
  | descend => simp [gives, Option.any_eq_true]

theorem isSome_of_gives {node : Object} : ∀ {x : Role × Pick}, gives node x →
    (node.get? x.2.name).isSome
  | (.field, _), h => h
  | (.descend, pick), h => by
    obtain ⟨v, hv, -⟩ := (Option.any_eq_true _ _).1 h
    exact Option.isSome_iff_exists.2 ⟨v, hv⟩

section Names

variable (whole : List String) (node : Object) (f : Pick → Selector)

theorem names_part_field (pick : Pick) : (part whole node f (.field, pick)).map (·.1) =
    if gives node (.field, pick) then [pick.name] else [] := by
  rw [part, gives]
  cases node.get? pick.name <;> rfl

theorem names_part_descend (pick : Pick) : (part whole node f (.descend, pick)).map (·.1) =
    if gives node (.descend, pick) && !whole.contains pick.name then [pick.name] else [] := by
  rw [part, gives]
  cases whole.contains pick.name with
  | true => simp
  | false =>
    cases node.get? pick.name with
    | none => rfl
    | some v => cases v <;> rfl

theorem names_parts_fields (fields : List Pick) :
    ((fields.map (.field, ·)).flatMap (part whole node f)).map (·.1) =
      ((fields.map (.field, ·)).filter (gives node)).map (·.2.name) := by
  induction fields with
  | nil => rfl
  | cons pick fields ih =>
    rw [List.map_cons, List.flatMap_cons, List.map_append, ih, names_part_field,
      List.filter_cons]
    split <;> rfl

/-- The descents give under all names but those of whole fields. -/
theorem names_parts_descents (descents : List Pick) :
    ((descents.map (.descend, ·)).flatMap (part whole node f)).map (·.1) =
      (((descents.map (.descend, ·)).filter (gives node)).map (·.2.name)).filter
        (!whole.contains ·) := by
  induction descents with
  | nil => rfl
  | cons pick descents ih =>
    rw [List.map_cons, List.flatMap_cons, List.map_append, ih, names_part_descend,
      List.filter_cons]
    cases gives node (.descend, pick) with
    | false => rfl
    | true =>
      rw [if_pos rfl, List.map_cons, List.filter_cons, Bool.true_and]
      split <;> rfl

end Names

theorem eraseDups_append_filter {as bs : List String} {q : String → Bool}
    (h : ∀ b ∈ bs, q b = false → b ∈ as) :
    (as ++ bs.filter q).eraseDups = (as ++ bs).eraseDups := by
  rw [List.eraseDups_append, List.eraseDups_append, List.removeAll, List.removeAll,
    List.filter_filter]
  congr 2
  refine List.filter_congr fun b hb => ?_
  cases hq : q b with
  | true => simp
  | false => simp [h b hb hq]

/-- A descent into a field that is taken whole adds no key: the field is there before it. -/
theorem keys_retain {s : Selector} {f : Pick → Selector} (ha : s.Arranged)
    (hf : ∀ d ∈ s.descents, f d.1 = d.2) (node : Object) :
    (s.retain node).keys = ((s.picks.filter (gives node)).map (·.2.name)).eraseDups := by
  obtain ⟨fields, descents, hpicks⟩ := ha.exists_picks
  unfold retain
  rw [Object.keys_addAll, parts_eq_flatMap _ _ hf, hpicks, List.flatMap_append, List.map_append,
    names_parts_fields, names_parts_descents, eraseDups_append_filter, List.filter_append,
    List.map_append]
  intro name hm hname
  obtain ⟨x, hx, rfl⟩ := List.mem_map.1 hm
  obtain ⟨-, hgives⟩ := List.mem_filter.1 hx
  obtain ⟨taken, ht, -, htaken⟩ := (mem_wholeNames_of_picks hpicks).1 (by simpa using hname)
  refine List.mem_map.2 ⟨(.field, taken),
    List.mem_filter.2 ⟨List.mem_map_of_mem ht, ?_⟩, htaken⟩
  rw [gives, htaken]
  exact isSome_of_gives hgives

theorem within_cut {v : Json} (subset : Option Subset) (h : v.Proper) :
    (cut subset v).Within v := by
  cases v with
  | arr items =>
    refine ⟨items, rfl, Json.withinItems_iff.2 fun item hm => ?_⟩
    obtain ⟨i, -, hi⟩ := Subset.mem_covered.1 hm
    have hmem : item ∈ items := List.mem_of_getElem? hi
    exact ⟨item, hmem, (Json.proper_arr.1 h item hmem).within_self⟩
  | _ => exact h.within_self

theorem within_copyChildren {subset : Option Subset} {f : Object → Object} {v copy : Json}
    (hf : ∀ way child, Subset.Leads subset v way child → Json.WithinMembers (f child) child)
    (h : Subset.copyChildren subset f v = some copy) : copy.Within v := by
  cases v with
  | obj child =>
    obtain rfl := Option.some.inj h
    exact ⟨child, rfl, hf [] child .obj⟩
  | arr items =>
    obtain rfl := Option.some.inj h
    refine ⟨items, rfl, Json.withinItems_iff.2 fun item hm => ?_⟩
    obtain ⟨child, hchild, rfl⟩ := List.mem_map.1 hm
    obtain ⟨i, hc, hi⟩ := Subset.mem_covered.1 (Subset.mem_objects.1 hchild)
    exact ⟨.obj child, List.mem_of_getElem? hi, child, rfl, hf [.item i] child (.arr hi hc)⟩
  | _ => cases h

/-- Every part lies within the member it is a part of, by induction on the selector. -/
theorem within_parts : ∀ {s : Selector} (whole : List String) {node : Object},
    (Json.obj node).Proper →
      ∀ part ∈ s.parts whole node, ∃ w, node.get? part.1 = some w ∧ part.2.Within w
  | nil, _, _, _, _, hm => absurd hm List.not_mem_nil
  | field pick rest, whole, node, h, part, hm => by
    unfold parts at hm
    rcases List.mem_append.1 hm with hm | hm
    · obtain ⟨copy, hcopy, rfl⟩ := List.mem_map.1 hm
      obtain ⟨v, hv, rfl⟩ := Option.map_eq_some_iff.1 (Option.mem_toList.1 hcopy)
      exact ⟨v, hv, within_cut pick.subset (h.of_get? hv)⟩
    · exact within_parts whole h part hm
  | descend pick inner rest, whole, node, h, part, hm => by
    rw [parts_descend] at hm
    rcases List.mem_append.1 hm with hm | hm
    · split at hm
      · exact absurd hm List.not_mem_nil
      · obtain ⟨copy, hcopy, rfl⟩ := List.mem_map.1 hm
        obtain ⟨v, hv, hcopy⟩ := Option.bind_eq_some_iff.1 (Option.mem_toList.1 hcopy)
        refine ⟨v, hv, within_copyChildren (fun way child hl => ?_) hcopy⟩
        exact Object.within_addAll trivial
          (within_parts inner.wholeNames ((h.of_get? hv).of_leads hl))
    · exact within_parts whole h part hm

theorem within_retain (s : Selector) {node : Object} (h : (Json.obj node).Proper) :
    Json.WithinMembers (s.retain node) node :=
  Object.within_addAll trivial (within_parts s.wholeNames h)

theorem retain_eq_joinAll (s : Selector) {node : Object} (h : (Json.obj node).Proper) :
    s.retain node = Object.joinAll [] (s.parts s.wholeNames node) :=
  Object.addAll_eq_joinAll trivial (within_parts s.wholeNames h)

theorem fst_of_mem_part {whole : List String} {node : Object} {f : Pick → Selector}
    {given : String × Json} : ∀ {x : Role × Pick}, given ∈ part whole node f x →
      given.1 = x.2.name
  | (.field, _), h => by
    obtain ⟨_, -, rfl⟩ := List.mem_map.1 h
    rfl
  | (.descend, _), h => by
    rw [part] at h
    split at h
    · exact absurd h List.not_mem_nil
    · obtain ⟨_, -, rfl⟩ := List.mem_map.1 h
      rfl

/-- What a pick takes of the elements of an array, where `inner` is what a descent leads to. -/
def taken (inner : Pick → Selector) (items : List Json) : Role × Pick → List Json
  | (.field, pick) => Subset.covered pick.subset items
  | (.descend, pick) =>
    (Json.objects (Subset.covered pick.subset items)).map fun child =>
      .obj ((inner pick).retain child)

section Elements

variable {whole : List String} {node : Object} {f : Pick → Selector} {key : String}
  {items : List Json}

theorem part_of_array (hwhole : key ∉ whole) (hkey : node.get? key = some (.arr items)) :
    ∀ {x : Role × Pick}, x.2.name = key →
      part whole node f x = [(key, .arr (taken f items x))]
  | (.field, pick), h => by
    obtain rfl : pick.name = key := h
    rw [part, hkey]
    rfl
  | (.descend, pick), h => by
    obtain rfl : pick.name = key := h
    rw [part, if_neg (by simpa using hwhole), hkey]
    rfl

theorem elements_parts (hwhole : key ∉ whole) (hkey : node.get? key = some (.arr items))
    (picks : List (Role × Pick)) :
    ((picks.flatMap (part whole node f)).filter (·.1 == key)).flatMap (·.2.elements) =
      (picks.filter (·.2.name == key)).flatMap (taken f items) := by
  induction picks with
  | nil => rfl
  | cons x picks ih =>
    rw [List.flatMap_cons, List.filter_append, List.flatMap_append, ih, List.filter_cons]
    by_cases hx : x.2.name = key
    · rw [part_of_array hwhole hkey hx, if_pos (by simpa using hx), List.flatMap_cons]
      simp [Json.elements]
    · have hnone : (part whole node f x).filter (·.1 == key) = [] := by
        refine List.filter_eq_nil_iff.2 fun given hm => ?_
        rw [fst_of_mem_part hm]
        simpa using hx
      rw [hnone, if_neg (by simpa using hx)]
      rfl

end Elements

theorem get?_retain_of_array {s : Selector} {f : Pick → Selector} {node : Object} {key : String}
    {items : List Json} (hf : ∀ d ∈ s.descents, f d.1 = d.2) (hwhole : key ∉ s.wholeNames)
    (hkey : node.get? key = some (.arr items)) (hpick : ∃ x ∈ s.picks, x.2.name = key) :
    (s.retain node).get? key =
      some (.arr ((s.picks.filter (·.2.name == key)).flatMap (taken f items))) := by
  unfold retain
  rw [parts_eq_flatMap _ _ hf, ← elements_parts hwhole hkey]
  refine Object.get?_addAll_of_none ?_ ?_ (Object.get?_nil key)
  · intro given hm hgiven
    obtain ⟨x, -, hx⟩ := List.mem_flatMap.1 hm
    rw [part_of_array hwhole hkey ((fst_of_mem_part hx).symm.trans hgiven),
      List.mem_singleton] at hx
    exact ⟨_, congrArg (·.2) hx⟩
  · obtain ⟨x, hx, hname⟩ := hpick
    refine ⟨(key, .arr (taken f items x)), List.mem_flatMap.2 ⟨x, hx, ?_⟩, rfl⟩
    rw [part_of_array hwhole hkey hname]
    exact .head _

/-- That `out` holds what the picks at an address select of `node`, and nothing else. -/
structure Content (s : Selector) (address : String) (node out : Object) : Prop where
  mem_keys : ∀ key, key ∈ out.keys ↔ ∃ role pick, (role, pick) ∈ (s.atAddress address).picks
    ∧ pick.name = key ∧ ∃ v, node.get? key = some v ∧ (role = .field ∨ v.isContainer)
  keys_eq : out.keys =
    (((s.atAddress address).picks.filter (gives node)).map (·.2.name)).eraseDups
  within : ∀ key v, out.get? key = some v →
    ∃ w, node.get? key = some w ∧ v.Within w ∧ (w.isContainer = false → v = w)
  /-- No value is replaced by another one that a later pick gives. -/
  joined : out =
    Object.joinAll [] ((s.atAddress address).parts (s.atAddress address).wholeNames node)
  array : ∀ key items, node.get? key = some (.arr items) →
    (∀ pick, (.field, pick) ∈ (s.atAddress address).picks → pick.name = key → pick.subset ≠ none) →
    (∃ x ∈ (s.atAddress address).picks, x.2.name = key) →
      out.get? key = some (.arr (((s.atAddress address).picks.filter (·.2.name == key)).flatMap
        (taken (fun pick => s.atAddress (Address.child address pick.token)) items)))

end JsonSelect.Selector
