import JsonSelect.Proofs.Entries
import JsonSelect.Proofs.Gathering
import JsonSelect.Proofs.Inclusion

/-!
# Copies that merge nothing

Where no pick has a subset, a key is given by one pick only: a token stands at its place once, and a
field takes the whole of what a descent of the same name would lead into. So nothing is merged
(`Selector.Plain.retain_eq`), and what is retained has under the name of a pick what the pick gives
(`Selector.Plain.get?_retain`). To the selector the copy is as good as the object: copying it gives
the same again (`Selector.map_retain_retain`), and what is gathered from it is what is gathered
from the object (`Selector.gather_map_retain`).
-/

namespace JsonSelect

namespace Object

theorem HasDistinctKeys.get?_eq_some {o : Object} (h : o.HasDistinctKeys) {key : String}
    {v : Json} : o.get? key = some v ↔ (key, v) ∈ o :=
  ⟨mem_of_get?, h.get?_eq⟩

/-- Parts under distinct keys are added as they are. -/
theorem HasDistinctKeys.addAll_nil {parts : Object} (h : parts.HasDistinctKeys) :
    addAll [] parts = parts := by
  induction parts using List.reverseRecOn with
  | nil => rfl
  | append_singleton parts part ih =>
    have hkeys : (keys parts ++ [part.1]).Nodup := by simpa [HasDistinctKeys, keys] using h
    obtain ⟨hparts, -, hdisjoint⟩ := List.nodup_append.1 hkeys
    have hnone : get? parts part.1 = none := by
      by_contra hsome
      have hmem := isSome_get?.1 (Option.isSome_iff_ne_none.2 hsome)
      exact hdisjoint _ hmem _ (.head _) rfl
    rw [addAll_append, ih hparts, addAll_cons, addAll, List.foldl_nil, add, Object.insert, hnone]
    rfl

end Object

namespace Subset

theorem objects_map_obj (f : Object → Object) (children : List Object) :
    Json.objects (children.map fun child => .obj (f child)) = children.map f := by
  rw [Json.objects, List.filterMap_map]
  exact congrFun List.filterMap_eq_map children

theorem copyChildren_bind (f g : Object → Object) (v : Json) :
    (copyChildren none f v).bind (copyChildren none g) = copyChildren none (g ∘ f) v := by
  cases v with
  | arr items =>
    rw [copyChildren, Option.bind_some, copyChildren, covered, objects_map_obj]
    simp [copyChildren]
  | _ => rfl

/-- A descent leads to the copies of what it leads to. -/
theorem flatMap_children_copyChildren (f : Object → Object) (vs : List Json) :
    (vs.filterMap (copyChildren none f)).flatMap (children none) =
      (vs.flatMap (children none)).map f := by
  induction vs with
  | nil => rfl
  | cons v vs ih =>
    rw [List.flatMap_cons, List.map_append, ← ih, List.filterMap_cons]
    cases v with
    | arr items => rw [copyChildren, List.flatMap_cons, children, covered, objects_map_obj]; rfl
    | _ => rfl

end Subset

namespace Selector

theorem cut_none (v : Json) : cut none v = v := by
  cases v <;> rfl

theorem eq_of_subset_eq_none {p q : Pick} (hp : Pick.ofToken p.token = .ok p)
    (hq : Pick.ofToken q.token = .ok q) (hps : p.subset = none) (hqs : q.subset = none)
    (hname : p.name = q.name) : p = q := by
  rw [← (Pick.ofToken_eq_ok hp).2 hps, hname, (Pick.ofToken_eq_ok hq).2 hqs] at hp
  exact Except.ok.inj (hp.symm.trans hq)

/-- The picks at the root are what their tokens stand for, without subsets, each once. -/
structure Plain (s : Selector) : Prop where
  nodup : s.picks.Nodup
  reads : ∀ x ∈ s.picks, Pick.ofToken x.2.token = .ok x.2
  whole : ∀ x ∈ s.picks, x.2.subset = none

theorem nodup_picks_atAddress {text : String} {s : Selector} (hs : parse text = .ok s)
    (address : String) : (s.atAddress address).picks.Nodup := by
  obtain ⟨es, -, -, hnodup⟩ := exists_entries_of_parse hs
  exact (sound_of_parse hs).atAddress_of_follow (P := fun t => t.picks.Nodup) List.nodup_nil
    hnodup address

theorem plain_atAddress {text : String} {s : Selector} (hs : parse text = .ok s)
    (hsubsets : ∀ address role pick, (role, pick) ∈ (s.atAddress address).picks →
      pick.subset = none) (address : String) : (s.atAddress address).Plain where
  nodup := nodup_picks_atAddress hs address
  reads := fun _ hx => ((sound_of_parse hs).atAddress address).ofToken_of_mem_picks hx
  whole := fun x hx => hsubsets address x.1 x.2 hx

section Plain

variable {s : Selector} {f : Pick → Selector} {node : Object}

theorem Plain.eq_of_name (h : s.Plain) {role : Role} {p q : Pick} (hp : (role, p) ∈ s.picks)
    (hq : (role, q) ∈ s.picks) (hname : p.name = q.name) : p = q := by
  have hp' := h.reads _ hp
  have hq' := h.reads _ hq
  exact eq_of_subset_eq_none hp' hq' (h.whole _ hp) (h.whole _ hq) hname

theorem Plain.mem_wholeNames_of_field (h : s.Plain) {pick : Pick}
    (hp : (.field, pick) ∈ s.picks) : pick.name ∈ s.wholeNames :=
  mem_wholeNames.2 ⟨pick, hp, h.whole _ hp, rfl⟩

theorem not_mem_of_mem_part {whole : List String} {pick : Pick} {given : String × Json}
    (h : given ∈ part whole node f (.descend, pick)) : pick.name ∉ whole := by
  intro hm
  simp [part, hm] at h

/-- What is given under the name of a pick is given by this pick, if it is a field or no field has
this name. -/
theorem Plain.eq_of_mem_part (h : s.Plain) {x y : Role × Pick} (hx : x ∈ s.picks)
    (hy : y ∈ s.picks) (hkept : x.1 = .descend → x.2.name ∉ s.wholeNames) {given : String × Json}
    (hg : given ∈ part s.wholeNames node f y) (hname : given.1 = x.2.name) : y = x := by
  obtain ⟨role, p⟩ := x
  obtain ⟨role', q⟩ := y
  have hqp : q.name = p.name := (fst_of_mem_part hg).symm.trans hname
  obtain rfl : role' = role := by
    cases role with
    | field =>
      cases role' with
      | field => rfl
      | descend =>
        have hmem := h.mem_wholeNames_of_field hx
        exact absurd (hqp ▸ hmem) (not_mem_of_mem_part hg)
    | descend =>
      cases role' with
      | descend => rfl
      | field =>
        have hmem := h.mem_wholeNames_of_field hy
        exact absurd (hqp ▸ hmem) (hkept rfl)
  rw [h.eq_of_name hy hx hqp]

theorem hasDistinctKeys_part (whole : List String) (node : Object) (f : Pick → Selector) :
    ∀ x : Role × Pick, Object.HasDistinctKeys (part whole node f x)
  | (.field, pick) => by
    rw [Object.HasDistinctKeys, Object.keys, names_part_field]
    split <;> simp
  | (.descend, pick) => by
    rw [Object.HasDistinctKeys, Object.keys, names_part_descend]
    split <;> simp

theorem Plain.hasDistinctKeys_parts (h : s.Plain) :
    Object.HasDistinctKeys (s.picks.flatMap (part s.wholeNames node f)) := by
  rw [Object.HasDistinctKeys, Object.keys, List.map_flatMap, List.nodup_flatMap]
  refine ⟨fun x _ => hasDistinctKeys_part s.wholeNames node f x,
    h.nodup.pairwise_of_forall_ne fun x hx y hy hne name hnx hny => hne ?_⟩
  obtain ⟨given, hg, rfl⟩ := List.mem_map.1 hnx
  obtain ⟨given', hg', hname⟩ := List.mem_map.1 hny
  refine h.eq_of_mem_part hy hx (fun hrole => ?_) hg ?_
  · obtain ⟨role, pick⟩ := y
    obtain rfl : role = .descend := hrole
    exact not_mem_of_mem_part hg'
  · rw [← hname, fst_of_mem_part hg']

/-- No part is merged into another one. -/
theorem Plain.retain_eq (h : s.Plain) (hf : ∀ d ∈ s.descents, f d.1 = d.2) (node : Object) :
    s.retain node = s.picks.flatMap (part s.wholeNames node f) := by
  rw [retain, parts_eq_flatMap _ _ hf, h.hasDistinctKeys_parts.addAll_nil]

theorem Plain.get?_retain (h : s.Plain) (hf : ∀ d ∈ s.descents, f d.1 = d.2) (node : Object)
    {x : Role × Pick} (hx : x ∈ s.picks) (hkept : x.1 = .descend → x.2.name ∉ s.wholeNames) :
    (s.retain node).get? x.2.name = Object.get? (part s.wholeNames node f x) x.2.name := by
  rw [h.retain_eq hf]
  refine Option.ext fun v => ?_
  rw [h.hasDistinctKeys_parts.get?_eq_some, (hasDistinctKeys_part _ _ _ x).get?_eq_some,
    List.mem_flatMap]
  constructor
  · rintro ⟨y, hy, hg⟩
    obtain rfl := h.eq_of_mem_part hx hy hkept hg rfl
    exact hg
  · exact fun hg => ⟨x, hx, hg⟩

/-- A name of a field keeps its value. -/
theorem Plain.get?_retain_of_mem (h : s.Plain) (hf : ∀ d ∈ s.descents, f d.1 = d.2)
    (node : Object) {name : String} (hname : name ∈ s.wholeNames) :
    (s.retain node).get? name = node.get? name := by
  obtain ⟨pick, hp, hnone, rfl⟩ := mem_wholeNames.1 hname
  rw [h.get?_retain hf node hp (by simp), part, hnone]
  cases node.get? pick.name with
  | none => rfl
  | some v => simp [cut_none, Object.get?_cons]

theorem Plain.get?_retain_of_not_mem (h : s.Plain) (hf : ∀ d ∈ s.descents, f d.1 = d.2)
    (node : Object) {pick : Pick} (hp : (.descend, pick) ∈ s.picks)
    (hname : pick.name ∉ s.wholeNames) : (s.retain node).get? pick.name =
      (node.get? pick.name).bind (Subset.copyChildren none (f pick).retain) := by
  rw [h.get?_retain hf node hp fun _ => hname, part, if_neg (by simpa using hname), h.whole _ hp]
  cases (node.get? pick.name).bind (Subset.copyChildren none (f pick).retain) with
  | none => rfl
  | some v => simp [Object.get?_cons]

/-- From the copy a pick gives what it gives from the object, if what a descent copies stays as it
is when it is copied again. -/
theorem Plain.part_retain (h : s.Plain) (hf : ∀ d ∈ s.descents, f d.1 = d.2)
    (hinner : ∀ pick, (.descend, pick) ∈ s.picks → ∀ child,
      (f pick).retain ((f pick).retain child) = (f pick).retain child) (node : Object) :
    ∀ x ∈ s.picks, part s.wholeNames (s.retain node) f x = part s.wholeNames node f x
  | (.field, pick), hx => by
    rw [part, part, h.get?_retain_of_mem hf node (h.mem_wholeNames_of_field hx)]
  | (.descend, pick), hx => by
    rw [part, part, h.whole _ hx]
    split
    · rfl
    · next hname =>
      have hcopy : (f pick).retain ∘ (f pick).retain = (f pick).retain := funext (hinner pick hx)
      rw [h.get?_retain_of_not_mem hf node hx (by simpa using hname), Option.bind_assoc]
      simp only [Subset.copyChildren_bind, hcopy]

theorem Plain.retain_retain (h : s.Plain) (hf : ∀ d ∈ s.descents, f d.1 = d.2)
    (hinner : ∀ pick, (.descend, pick) ∈ s.picks → ∀ child,
      (f pick).retain ((f pick).retain child) = (f pick).retain child) (node : Object) :
    s.retain (s.retain node) = s.retain node :=
  calc s.retain (s.retain node)
    _ = s.picks.flatMap (part s.wholeNames (s.retain node) f) := h.retain_eq hf _
    _ = s.picks.flatMap (part s.wholeNames node f) :=
      List.flatMap_congr (h.part_retain hf hinner node)
    _ = s.retain node := (h.retain_eq hf node).symm

/-- What a pick gathers from some nodes, where `inner` is what a descent leads to. -/
def gathered (nodes : List Object) (inner : Pick → Selector) : Role × Pick → List Json
  | (.field, pick) => (nodes.filterMap (·.get? pick.name)).flatMap (fieldValues pick.subset)
  | (.descend, pick) => (inner pick).gather
      ((nodes.filterMap (·.get? pick.name)).flatMap (Subset.children pick.subset))

theorem gather_eq_flatMap {nodes : List Object} (hnodes : ∀ node ∈ nodes, node.HasDistinctKeys) :
    ∀ {s : Selector}, (∀ d ∈ s.descents, f d.1 = d.2) →
      s.gather nodes = s.picks.flatMap (gathered nodes f)
  | nil, _ => rfl
  | field pick rest, h => by
    rw [gather_field, gather_eq_flatMap hnodes (s := rest) h, picks, List.flatMap_cons]
    rfl
  | descend pick inner rest, h => by
    obtain ⟨hinner, hrest⟩ := List.forall_mem_cons.1 h
    rw [gather_descend, childrenOf_eq pick hnodes, gather_eq_flatMap hnodes hrest, picks,
      List.flatMap_cons, gathered, hinner]

theorem Plain.filterMap_get?_of_mem (h : s.Plain) (hf : ∀ d ∈ s.descents, f d.1 = d.2)
    (nodes : List Object) {name : String} (hname : name ∈ s.wholeNames) :
    (nodes.map s.retain).filterMap (·.get? name) = nodes.filterMap (·.get? name) := by
  rw [List.filterMap_map]
  exact List.filterMap_congr fun node _ => h.get?_retain_of_mem hf node hname

/-- A descent that is not passed over finds the copies of what it finds in the nodes. -/
theorem Plain.filterMap_get?_of_not_mem (h : s.Plain) (hf : ∀ d ∈ s.descents, f d.1 = d.2)
    (nodes : List Object) {pick : Pick} (hp : (.descend, pick) ∈ s.picks)
    (hname : pick.name ∉ s.wholeNames) : (nodes.map s.retain).filterMap (·.get? pick.name) =
      (nodes.filterMap (·.get? pick.name)).filterMap
        (Subset.copyChildren none (f pick).retain) := by
  rw [List.filterMap_map, List.filterMap_filterMap]
  exact List.filterMap_congr fun node _ => h.get?_retain_of_not_mem hf node hp hname

/-- A pick gathers the same from copies, if the descents do. -/
theorem Plain.gathered_map_retain (h : s.Plain) (hf : ∀ d ∈ s.descents, f d.1 = d.2)
    (hinner : ∀ pick, (.descend, pick) ∈ s.picks → ∀ children,
      (∀ child ∈ children, (Json.obj child).Proper) →
        (f pick).gather (children.map (f pick).retain) = (f pick).gather children)
    {nodes : List Object} (hnodes : ∀ node ∈ nodes, (Json.obj node).Proper) :
    ∀ x ∈ s.picks, gathered (nodes.map s.retain) f x = gathered nodes f x
  | (.field, pick), hx => by
    rw [gathered, gathered, h.filterMap_get?_of_mem hf nodes (h.mem_wholeNames_of_field hx)]
  | (.descend, pick), hx => by
    rw [gathered, gathered]
    by_cases hname : pick.name ∈ s.wholeNames
    · rw [h.filterMap_get?_of_mem hf nodes hname]
    · have hproper := proper_of_mem_childrenOf pick hnodes
      rw [childrenOf_eq pick fun node hn => (hnodes node hn).distinct, h.whole _ hx] at hproper
      rw [h.filterMap_get?_of_not_mem hf nodes hx hname, h.whole _ hx,
        Subset.flatMap_children_copyChildren, hinner pick hx _ hproper]

theorem Plain.hasDistinctKeys_retain (h : s.Plain) (hf : ∀ d ∈ s.descents, f d.1 = d.2)
    (node : Object) : (s.retain node).HasDistinctKeys := by
  rw [h.retain_eq hf]
  exact h.hasDistinctKeys_parts

theorem Plain.gather_copies (h : s.Plain) (hf : ∀ d ∈ s.descents, f d.1 = d.2)
    (hinner : ∀ pick, (.descend, pick) ∈ s.picks → ∀ children,
      (∀ child ∈ children, (Json.obj child).Proper) →
        (f pick).gather (children.map (f pick).retain) = (f pick).gather children)
    {nodes : List Object} (hnodes : ∀ node ∈ nodes, (Json.obj node).Proper) :
    s.gather (nodes.map s.retain) = s.gather nodes := by
  have hcopies : ∀ copy ∈ nodes.map s.retain, copy.HasDistinctKeys := by
    intro copy hc
    obtain ⟨node, -, rfl⟩ := List.mem_map.1 hc
    exact h.hasDistinctKeys_retain hf node
  calc s.gather (nodes.map s.retain)
    _ = s.picks.flatMap (gathered (nodes.map s.retain) f) := gather_eq_flatMap hcopies hf
    _ = s.picks.flatMap (gathered nodes f) :=
      List.flatMap_congr (h.gathered_map_retain hf hinner hnodes)
    _ = s.gather nodes := (gather_eq_flatMap (fun node hn => (hnodes node hn).distinct) hf).symm

end Plain

section Texts

variable {text : String} {s : Selector}

/-- Selecting what was selected changes nothing, not even the order of the keys. -/
theorem map_retain_retain (hs : parse text = .ok s)
    (hsubsets : ∀ address role pick, (role, pick) ∈ (s.atAddress address).picks →
      pick.subset = none) (nodes : List Object) :
    (nodes.map s.retain).map s.retain = nodes.map s.retain := by
  have hsound := sound_of_parse hs
  have hplain := plain_atAddress hs hsubsets
  have hretain : ∀ address node, (s.atAddress address).retain ((s.atAddress address).retain node) =
      (s.atAddress address).retain node := by
    intro address
    induction address using hsound.address_induction with
    | h address ih =>
      refine (hplain address).retain_retain (hsound.innerAt_eq address) fun pick hp => ?_
      obtain ⟨inner, hd⟩ := mem_picks_iff_mem_descents.1 hp
      exact ih _ hd
  rw [List.map_map]
  refine List.map_congr_left fun node _ => ?_
  have := hretain "" node
  rwa [hsound.atAddress_empty] at this

theorem map_retain_retain_overlap :
    ∃ (s : Selector) (node : Object), parse "a\x7bb\x7d c.d a" = .ok s
      ∧ node = [("c", .arr [.obj [("e", .null), ("d", .null)], .null, .obj []]),
          ("a", .obj [("b", .null), ("z", .null)])]
      ∧ s.retain node =
        [("a", .obj [("b", .null), ("z", .null)]), ("c", .arr [.obj [("d", .null)], .obj []])]
      ∧ ([node].map s.retain).map s.retain = [node].map s.retain := by
  have hparse : parse "a\x7bb\x7d c.d a" = .ok (.field ⟨"a", "a", none⟩
      (.descend ⟨"a", "a", none⟩ (.field ⟨"b", "b", none⟩ .nil)
        (.descend ⟨"c", "c", none⟩ (.field ⟨"d", "d", none⟩ .nil) .nil))) := by
    decide
  have hindex : ∀ e ∈ index (.field ⟨"a", "a", none⟩
      (.descend ⟨"a", "a", none⟩ (.field ⟨"b", "b", none⟩ .nil)
        (.descend ⟨"c", "c", none⟩ (.field ⟨"d", "d", none⟩ .nil) .nil))),
      ∀ x ∈ e.2.picks, x.2.subset = none := by
    decide
  exact ⟨_, _, hparse, rfl, by decide, map_retain_retain hparse
    (fun address _ _ hp => picks_atAddress_of_index hindex address _ hp) _⟩

/-- What is selected holds all that can be gathered by the same selector, in the same order. -/
theorem gather_map_retain {nodes : List Object} (hs : parse text = .ok s)
    (hsubsets : ∀ address role pick, (role, pick) ∈ (s.atAddress address).picks →
      pick.subset = none)
    (hnodes : ∀ node ∈ nodes, (Json.obj node).Proper) :
    s.gather (nodes.map s.retain) = s.gather nodes := by
  have hsound := sound_of_parse hs
  have hplain := plain_atAddress hs hsubsets
  have hgather : ∀ address nodes, (∀ node ∈ nodes, (Json.obj node).Proper) →
      (s.atAddress address).gather (nodes.map (s.atAddress address).retain) =
        (s.atAddress address).gather nodes := by
    intro address
    induction address using hsound.address_induction with
    | h address ih =>
      intro nodes hnodes
      refine (hplain address).gather_copies (hsound.innerAt_eq address) (fun pick hp => ?_) hnodes
      obtain ⟨inner, hd⟩ := mem_picks_iff_mem_descents.1 hp
      exact ih _ hd
  have := hgather "" nodes hnodes
  rwa [hsound.atAddress_empty] at this

theorem gather_map_retain_nodes :
    ∃ (s : Selector) (nodes : List Object), parse "a.b a c\x7bd\x7d" = .ok s
      ∧ nodes = [[("c", .arr [.obj [("e", .null), ("d", .bool true)], .null]), ("k", .null)],
          [("a", .obj [("z", .null), ("b", .bool false)]), ("c", .str "d")]]
      ∧ nodes.map s.retain = [[("c", .arr [.obj [("d", .bool true)]])],
          [("a", .obj [("z", .null), ("b", .bool false)])]]
      ∧ s.gather nodes = [.obj [("z", .null), ("b", .bool false)], .bool false, .bool true]
      ∧ s.gather (nodes.map s.retain) = s.gather nodes := by
  have hparse : parse "a.b a c\x7bd\x7d" = .ok (.field ⟨"a", "a", none⟩
      (.descend ⟨"a", "a", none⟩ (.field ⟨"b", "b", none⟩ .nil)
        (.descend ⟨"c", "c", none⟩ (.field ⟨"d", "d", none⟩ .nil) .nil))) := by
    decide
  have hindex : ∀ e ∈ index (.field ⟨"a", "a", none⟩
      (.descend ⟨"a", "a", none⟩ (.field ⟨"b", "b", none⟩ .nil)
        (.descend ⟨"c", "c", none⟩ (.field ⟨"d", "d", none⟩ .nil) .nil))),
      ∀ x ∈ e.2.picks, x.2.subset = none := by
    decide
  have hproper : ∀ node ∈ [[("c", Json.arr [.obj [("e", .null), ("d", .bool true)], .null]),
      ("k", .null)], [("a", .obj [("z", .null), ("b", .bool false)]), ("c", .str "d")]],
      (Json.obj node).Proper := by
    simp [Object.HasDistinctKeys, Object.keys, or_imp, forall_and]
  exact ⟨_, _, hparse, rfl, by decide, by decide, gather_map_retain hparse
    (fun address _ _ hp => picks_atAddress_of_index hindex address _ hp) hproper⟩

end Texts

end Selector

end JsonSelect
