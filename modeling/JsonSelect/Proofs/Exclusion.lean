import JsonSelect.Proofs.Pruning

/-!
# What is selected at the addresses

An object of some nodes is reached at an address if the descents on the way to the address lead to
it (`Selector.Reached`). What a selector that a text writes marks in the nodes are the parts that a
field takes from an object reached at its address (`Selector.selected_iff`).

If no field has a subset, these are the members that a field names in an object reached at its
address (`Selector.Doomed`), and pruning deletes just them (`Selector.pruneAll_eq_mapIdx_unmarked`).
-/

namespace JsonSelect.Selector

/-- The object at `way` in node `i` is reached at the address: the nodes at the root, and what a
descent at an address leads to at its child address. -/
inductive Reached (s : Selector) (nodes : List Object) : String → Nat → List Step → Object → Prop
  | node {i : Nat} {o : Object} (h : nodes[i]? = some o) : Reached s nodes "" i [] o
  | descend {address : String} {i : Nat} {way way' : List Step} {o child : Object} {pick : Pick}
      {v : Json} (h : Reached s nodes address i way o)
      (hp : (.descend, pick) ∈ (s.atAddress address).picks) (hv : o.get? pick.name = some v)
      (hl : Subset.Leads pick.subset v way' child) :
      Reached s nodes (Address.child address pick.token) i (way ++ .key pick.name :: way') child

/-- A field takes the part at `way` from an object of node `i` that is reached at its address. -/
inductive Selected (s : Selector) (nodes : List Object) (i : Nat) : List Step → Prop
  | intro {address : String} {way way' : List Step} {o : Object} {pick : Pick} {v : Json}
      (h : Reached s nodes address i way o) (hp : (.field, pick) ∈ (s.atAddress address).picks)
      (hv : o.get? pick.name = some v) (ht : Subset.Takes pick.subset v way') :
      Selected s nodes i (way ++ .key pick.name :: way')

/-- A field names the member at the end of the way, in an object of node `i` that is reached at its
address. -/
inductive Doomed (s : Selector) (nodes : List Object) (i : Nat) : List Step → Prop
  | intro {address : String} {way : List Step} {o : Object} {pick : Pick}
      (h : Reached s nodes address i way o) (hp : (.field, pick) ∈ (s.atAddress address).picks)
      (hk : pick.name ∈ o.keys) : Doomed s nodes i (way ++ [.key pick.name])

/-- A field of the selector takes the part at a way, at the end of descents that lead to its
object. -/
inductive Finds : Selector → Object → List Step → Prop
  | field {s : Selector} {o : Object} {pick : Pick} {v : Json} {way : List Step}
      (hp : (.field, pick) ∈ s.picks) (hv : o.get? pick.name = some v)
      (ht : Subset.Takes pick.subset v way) : Finds s o (.key pick.name :: way)
  | descend {s inner : Selector} {o child : Object} {pick : Pick} {v : Json}
      {way way' : List Step} (hd : (pick, inner) ∈ s.descents) (hv : o.get? pick.name = some v)
      (hl : Subset.Leads pick.subset v way child) (h : Finds inner child way') :
      Finds s o (.key pick.name :: (way ++ way'))

theorem member_iff {o : Object} {name : String} {f : Json → Marks} {way : List Step} :
    Marks.member o name f way ↔
      ∃ v way', o.get? name = some v ∧ way = .key name :: way' ∧ f v way' := by
  constructor
  · intro h
    rcases way with _ | ⟨step, way⟩
    · simp [Marks.member, Marks.under] at h
    · simp only [Marks.member, Marks.under, Bool.and_eq_true, beq_iff_eq] at h
      obtain ⟨rfl, h⟩ := h
      cases hget : o.get? name with
      | none => simp [hget, Marks.none] at h
      | some v =>
        rw [hget] at h
        exact ⟨v, way, rfl, rfl, h⟩
  · rintro ⟨v, way, hget, rfl, h⟩
    simp [Marks.member, Marks.under, hget, h]

theorem marks_iff (o : Object) (way : List Step) : ∀ s : Selector, s.marks o way ↔
    (∃ pick, (.field, pick) ∈ s.picks
        ∧ Marks.member o pick.name (Subset.marksOf pick.subset) way)
      ∨ ∃ d ∈ s.descents, Marks.member o d.1.name (Subset.marksIn d.1.subset d.2.marks) way
  | nil => by simp [marks, Marks.none, picks, descents]
  | field pick rest => by
    have hor : (field pick rest).marks o way ↔
        Marks.member o pick.name (Subset.marksOf pick.subset) way ∨ rest.marks o way :=
      Bool.or_eq_true_iff
    rw [hor, marks_iff o way rest]
    simp [picks, descents, or_and_right, exists_or, or_assoc]
  | descend pick inner rest => by
    have hor : (descend pick inner rest).marks o way ↔
        Marks.member o pick.name (Subset.marksIn pick.subset inner.marks) way
          ∨ rest.marks o way := Bool.or_eq_true_iff
    rw [hor, marks_iff o way rest]
    simp [picks, descents, or_and_right, exists_or, or_left_comm]

theorem finds_of_marks (s : Selector) : ∀ {o : Object} {way : List Step},
    s.marks o way → Finds s o way := by
  induction s using descents_induction with
  | h s ih =>
    intro o way h
    rcases (marks_iff _ _ _).1 h with ⟨pick, hp, hfield⟩ | ⟨d, hd, hdescent⟩
    · obtain ⟨v, way, hv, rfl, ht⟩ := member_iff.1 hfield
      exact .field hp hv (Subset.marksOf_iff.1 ht)
    · obtain ⟨v, way, hv, rfl, hin⟩ := member_iff.1 hdescent
      obtain ⟨way₁, child, way₂, hl, rfl, hchild⟩ := Subset.marksIn_iff.1 hin
      exact .descend hd hv hl (ih d hd hchild)

theorem marks_iff_finds {s : Selector} {o : Object} {way : List Step} :
    s.marks o way ↔ Finds s o way := by
  refine ⟨finds_of_marks s, fun h => ?_⟩
  induction h with
  | field hp hv ht =>
    exact (marks_iff _ _ _).2
      (.inl ⟨_, hp, member_iff.2 ⟨_, _, hv, rfl, Subset.marksOf_iff.2 ht⟩⟩)
  | descend hd hv hl _ ih =>
    exact (marks_iff _ _ _).2 (.inr ⟨_, hd, member_iff.2
      ⟨_, _, hv, rfl, Subset.marksIn_iff.2 ⟨_, _, _, hl, rfl, ih⟩⟩⟩)

section Addresses

variable {s : Selector} {nodes : List Object} {i : Nat}

theorem Reached.finds (hs : s.Sound) {address : String} {way : List Step} {o : Object}
    (h : Reached s nodes address i way o) : ∀ {way' : List Step},
      Finds (s.atAddress address) o way' →
        ∃ node, nodes[i]? = some node ∧ Finds s node (way ++ way') := by
  induction h with
  | node h =>
    intro way' hn
    rw [hs.atAddress_empty] at hn
    exact ⟨_, h, hn⟩
  | descend _ hp hv hl ih =>
    intro way' hn
    obtain ⟨inner, hd⟩ := mem_picks_iff_mem_descents.1 hp
    rw [hs.atAddress_child hd] at hn
    simpa using ih (.descend hd hv hl hn)

theorem Finds.selected (hs : s.Sound) {t : Selector} {o : Object} {way' : List Step}
    (h : Finds t o way') : ∀ {address : String} {way : List Step}, s.atAddress address = t →
      Reached s nodes address i way o → Selected s nodes i (way ++ way') := by
  induction h with
  | field hp hv ht =>
    rintro address way rfl hr
    exact .intro hr hp hv ht
  | descend hd hv hl _ ih =>
    rintro address way rfl hr
    have hp := mem_picks_iff_mem_descents.2 ⟨_, hd⟩
    simpa using ih (hs.atAddress_child hd) (hr.descend hp hv hl)

theorem selected_iff (hs : s.Sound) {way : List Step} :
    Selected s nodes i way ↔ ∃ node, nodes[i]? = some node ∧ s.marks node way := by
  constructor
  · rintro ⟨hr, hp, hv, ht⟩
    obtain ⟨node, hn, h⟩ := hr.finds hs (.field hp hv ht)
    exact ⟨node, hn, marks_iff_finds.2 h⟩
  · intro ⟨node, hn, h⟩
    exact (marks_iff_finds.1 h).selected hs hs.atAddress_empty (.node hn)

theorem doomed_iff_selected
    (hfields : ∀ address pick, (.field, pick) ∈ (s.atAddress address).picks → pick.subset = none)
    {way : List Step} : Doomed s nodes i way ↔ Selected s nodes i way := by
  constructor
  · rintro ⟨hr, hp, hk⟩
    obtain ⟨v, hv⟩ := Option.isSome_iff_exists.1 (Object.isSome_get?.2 hk)
    refine .intro hr hp hv ?_
    rw [hfields _ _ hp]
    exact .whole v
  · rintro ⟨hr, hp, hv, ht⟩
    rw [hfields _ _ hp] at ht
    cases ht
    exact .intro hr hp (Object.isSome_get?.1 (Option.isSome_iff_exists.2 ⟨_, hv⟩))

open scoped Classical in
/-- What is selected in a node is what the selector marks there. -/
theorem mapIdx_selected_eq_map (hs : s.Sound) {α : Type} (f : Marks → Object → α) :
    nodes.mapIdx (fun i node => f (fun way => decide (Selected s nodes i way)) node) =
      nodes.map fun node => f (s.marks node) node := by
  refine List.ext_getElem? fun i => ?_
  rw [List.getElem?_mapIdx, List.getElem?_map]
  cases hi : nodes[i]? with
  | none => rfl
  | some node =>
    have hway : (fun way => decide (Selected s nodes i way)) = s.marks node := by
      funext way
      rw [selected_iff hs, hi]
      simp
    rw [Option.map_some, Option.map_some, hway]

theorem takesWhole_of_everywhere : ∀ {s : Selector},
    (s.Everywhere fun t => ∀ pick, (.field, pick) ∈ t.picks → pick.subset = none) → s.TakesWhole
  | nil, _ => trivial
  | field pick _, h =>
    ⟨h.here pick (.head _),
      takesWhole_of_everywhere (h.rest_field fun p hp => h.here p (.tail _ hp))⟩
  | descend _ _ _, h =>
    ⟨takesWhole_of_everywhere h.of_descend,
      takesWhole_of_everywhere (h.rest_descend fun p hp => h.here p (.tail _ hp))⟩

theorem takesWhole_of_atAddress (hs : s.Sound)
    (h : ∀ address pick, (.field, pick) ∈ (s.atAddress address).picks → pick.subset = none) :
    s.TakesWhole := takesWhole_of_everywhere (hs.everywhere h)

end Addresses

open scoped Classical in
/-- Pruning deletes exactly the doomed members. The order of the picks is of no account, a second
pruning changes nothing, and nothing is left to be gathered. -/
theorem pruneAll_eq_mapIdx_unmarked {text : String} {s : Selector} {nodes : List Object}
    (hs : parse text = .ok s)
    (hfields : ∀ address pick, (.field, pick) ∈ (s.atAddress address).picks → pick.subset = none)
    (hnodes : ∀ node ∈ nodes, (Json.obj node).Proper) :
    s.pruneAll nodes =
        nodes.mapIdx (fun i node => node.unmarked fun way => decide (Doomed s nodes i way))
      ∧ (∀ t, Reordered s t → t.pruneAll nodes = s.pruneAll nodes)
      ∧ s.pruneAll (s.pruneAll nodes) = s.pruneAll nodes
      ∧ s.gather (s.pruneAll nodes) = [] := by
  have hsound := sound_of_parse hs
  have hwhole := takesWhole_of_atAddress hsound hfields
  simp only [pruneAll_eq_map]
  refine ⟨?_, fun t ht => ?_, ?_, ?_⟩
  · simp only [doomed_iff_selected hfields]
    rw [mapIdx_selected_eq_map hsound fun m node => node.unmarked m]
    exact List.map_congr_left fun node hn => prune_eq_of_takesWhole hwhole (hnodes node hn)
  · refine List.map_congr_left fun node hn => ?_
    rw [prune_eq_of_takesWhole (ht.takesWhole.1 hwhole) (hnodes node hn),
      prune_eq_of_takesWhole hwhole (hnodes node hn), ht.marks_eq]
  · rw [List.map_map]
    exact List.map_congr_left fun node hn => prune_prune hwhole (hnodes node hn)
  · refine gather_unmarked hwhole fun node hn => ?_
    obtain ⟨o, ho, rfl⟩ := List.mem_map.1 hn
    exact ⟨o, s.marks o, prune_eq_of_takesWhole hwhole (hnodes o ho), hnodes o ho,
      sparesItems_marks hwhole o, fun _ => id⟩

theorem pruneAll_eq_mapIdx_unmarked_overlap :
    ∃ (s : Selector) (nodes : List Object), parse "a\x7bx\x7d a[1]\x7by\x7d z" = .ok s
      ∧ nodes = [[("a", .arr [.obj [("x", .null), ("y", .null)], .obj [("y", .null)]]),
        ("z", .null)], [("a", .obj [("x", .null), ("y", .null)])]]
      ∧ s.pruneAll nodes = [[("a", .arr [.obj [], .obj [("y", .null)]])], [("a", .obj [])]]
      ∧ (∀ t, Reordered s t → t.pruneAll nodes = s.pruneAll nodes)
      ∧ s.pruneAll (s.pruneAll nodes) = s.pruneAll nodes ∧ s.gather (s.pruneAll nodes) = [] := by
  have hparse : parse "a\x7bx\x7d a[1]\x7by\x7d z" = .ok
      (.field ⟨"z", "z", none⟩ (.descend ⟨"a", "a", none⟩ (.field ⟨"x", "x", none⟩ .nil)
        (.descend ⟨"a[1]", "a", some ⟨some 0, some 0⟩⟩ (.field ⟨"y", "y", none⟩ .nil) .nil))) := by
    decide
  have hindex : ∀ e ∈ index (.field ⟨"z", "z", none⟩ (.descend ⟨"a", "a", none⟩
      (.field ⟨"x", "x", none⟩ .nil) (.descend ⟨"a[1]", "a", some ⟨some 0, some 0⟩⟩
        (.field ⟨"y", "y", none⟩ .nil) .nil))),
      ∀ x ∈ e.2.picks, x.1 = .field → x.2.subset = none := by decide
  have hproper : ∀ node ∈ [[("a", Json.arr [.obj [("x", .null), ("y", .null)],
      .obj [("y", .null)]]), ("z", .null)], [("a", .obj [("x", .null), ("y", .null)])]],
      (Json.obj node).Proper := by
    simp [Object.HasDistinctKeys, Object.keys, or_imp, forall_and]
  obtain ⟨-, horder, hagain, hgather⟩ := pruneAll_eq_mapIdx_unmarked hparse
    (fun address pick hp => picks_atAddress_of_index hindex address _ hp rfl) hproper
  exact ⟨_, _, hparse, rfl, by decide, horder, hagain, hgather⟩

end JsonSelect.Selector
