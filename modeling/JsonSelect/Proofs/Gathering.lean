import JsonSelect.Proofs.Exclusion

/-!
# Gathering and pruning

When no two picks at one address have the same name, gathering copies exactly the parts that pruning
deletes, with any subsets. Both are told by the marks of the selector on the object as it was
(`Selector.gather_perm`, `Selector.prune_unmarked`). So each piece of the nodes is either gathered
or left by pruning (`Selector.gather_perm_pruneAll`), and gathering leaves the nodes as they are.
-/

namespace JsonSelect

namespace Subset

theorem apart_marksOf (subset : Option Subset) (v : Json) : (marksOf subset v).Apart := by
  cases subset with
  | none => exact Marks.apart_whole
  | some s =>
    cases v with
    | arr items => exact Marks.apart_items _
    | _ => exact Marks.apart_whole

theorem apart_marksIn {subset : Option Subset} {f : Object → Marks} (hf : ∀ o, (f o).Apart)
    (v : Json) : (marksIn subset f v).Apart := by
  cases v with
  | obj child => exact hf child
  | arr items =>
    refine .intro nofun fun step => ?_
    cases step with
    | key key => exact Marks.apart_none
    | item i =>
      cases hi : items[i]? with
      | none =>
        have hnone : (marksIn subset f (.arr items)).below (.item i) = Marks.none := by
          funext way
          simp [Marks.below, Marks.none, marksIn, hi]
        rw [hnone]
        exact Marks.apart_none
      | some item =>
        rw [below_marksIn_arr hi]
        split
        · cases item.object? with
          | none => exact Marks.apart_none
          | some child => exact hf child
        · exact Marks.apart_none
  | _ => exact Marks.apart_none

theorem flatMap_covered (subset : Option Subset) (f : Json → List Json) (items : List Json) :
    (covered subset items).flatMap f =
      items.zipIdx.flatMap fun x => if takesIn subset items.length x.2 then f x.1 else [] := by
  rw [covered_eq_filterMap, flatMap_filterMap]
  refine List.flatMap_congr fun x _ => ?_
  split <;> rfl

theorem marked_marksOf (subset : Option Subset) (v : Json) :
    v.marked (marksOf subset v) = Selector.fieldValues subset v := by
  cases subset with
  | none =>
    rw [marksOf_none, Json.marked_whole]
    cases v <;> rfl
  | some s =>
    cases v with
    | arr items =>
      have hcovered : Selector.fieldValues (some s) (.arr items) =
          (covered (some s) items).flatMap ([·]) := (List.flatMap_singleton' _).symm
      rw [hcovered, flatMap_covered, Json.marked_arr rfl]
      refine List.flatMap_congr fun x _ => ?_
      rw [marksOf, Marks.below_items_item, takesIn]
      split
      · exact Json.marked_whole x.1
      · exact Json.marked_none x.1
    | _ => exact Json.marked_whole _

theorem marked_marksIn (subset : Option Subset) (f : Object → Marks) (v : Json) :
    v.marked (marksIn subset f v) =
      (children subset v).flatMap fun child => (Json.obj child).marked (f child) := by
  cases v with
  | obj child => exact (List.append_nil _).symm
  | arr items =>
    rw [Json.marked_arr rfl, children, Json.objects, flatMap_filterMap, flatMap_covered]
    refine List.flatMap_congr fun x hx => ?_
    rw [below_marksIn_arr (List.mem_zipIdx_iff_getElem?.1 hx)]
    split
    · cases x.1 with
      | obj child => rfl
      | _ => exact Json.marked_none _
    · exact Json.marked_none x.1
  | _ => rfl

end Subset

namespace Selector

theorem apart_member {o : Object} {name : String} {f : Json → Marks} {m : Marks}
    (hf : ∀ v, (f v).Apart) (h : m.Apart) (hroot : m [] = false)
    (hm : m.below (.key name) = Marks.none) : ((Marks.member o name f).or m).Apart := by
  refine Marks.Apart.under_or ?_ h hroot hm
  cases o.get? name with
  | none => exact Marks.apart_none
  | some v => exact hf v

theorem apart_marks : ∀ {s : Selector} (o : Object), s.HasDistinctNames → (s.marks o).Apart
  | nil, _, _ => Marks.apart_none
  | field pick rest, o, h => by
    obtain ⟨hrest, hne⟩ := h.of_field
    exact apart_member (Subset.apart_marksOf pick.subset) (apart_marks o hrest) (marks_root o rest)
      (below_marks_key hne)
  | descend pick inner rest, o, h => by
    obtain ⟨hinner, hrest, hne⟩ := h.of_descend
    exact apart_member (Subset.apart_marksIn fun child => apart_marks child hinner)
      (apart_marks o hrest) (marks_root o rest) (below_marks_key hne)

theorem flatMap_filterMap_perm {nodes : List Object} {name : String} {f : Json → Marks}
    {m : Object → Marks} (hnodes : ∀ node ∈ nodes, (Json.obj node).Proper)
    (hroot : ∀ o, m o [] = false) (hm : ∀ o, (m o).below (.key name) = Marks.none) :
    (((nodes.filterMap (·.get? name)).flatMap fun v => v.marked (f v)) ++
        nodes.flatMap fun o => (Json.obj o).marked (m o)).Perm
      (nodes.flatMap fun o => (Json.obj o).marked ((Marks.member o name f).or (m o))) := by
  rw [flatMap_filterMap]
  refine (List.flatMap_append_perm nodes _ _).trans ?_
  refine List.Perm.flatMap_left nodes fun o ho => ?_
  exact (Json.marked_member_or (hnodes o ho).distinct (hroot o) (hm o) f).symm

theorem proper_of_mem_childrenOf (pick : Pick) {nodes : List Object}
    (hnodes : ∀ node ∈ nodes, (Json.obj node).Proper) :
    ∀ child ∈ childrenOf pick nodes, (Json.obj child).Proper := by
  intro child hc
  obtain ⟨node, hn, v, hv, hc⟩ := mem_childrenOf.1 hc
  obtain ⟨way, hl⟩ := Subset.mem_children.1 hc
  have hget := (hnodes node hn).distinct.get?_eq hv
  exact ((hnodes node hn).of_get? hget).of_leads hl

/-- Of the nodes a selector gathers the parts that it marks. -/
theorem gather_perm : ∀ {s : Selector} {nodes : List Object}, s.HasDistinctNames →
    (∀ node ∈ nodes, (Json.obj node).Proper) →
      (s.gather nodes).Perm (nodes.flatMap fun o => (Json.obj o).marked (s.marks o))
  | nil, nodes, _, _ =>
    .of_eq (List.flatMap_eq_nil_iff.2 fun o _ => Json.marked_none (.obj o)).symm
  | field pick rest, nodes, h, hnodes => by
    obtain ⟨hrest, hne⟩ := h.of_field
    have hfield := List.flatMap_congr (l := nodes.filterMap (·.get? pick.name)) fun v _ =>
      (Subset.marked_marksOf pick.subset v).symm
    rw [gather_field, hfield]
    exact ((gather_perm hrest hnodes).append_left _).trans
      (flatMap_filterMap_perm hnodes (fun o => marks_root o rest) fun o => below_marks_key hne)
  | descend pick inner rest, nodes, h, hnodes => by
    obtain ⟨hinner, hrest, hne⟩ := h.of_descend
    have hcopies := gather_perm hinner (proper_of_mem_childrenOf pick hnodes)
    have hchildren := childrenOf_eq pick fun node hn => (hnodes node hn).distinct
    rw [gather_descend]
    rw [hchildren, List.flatMap_assoc, List.flatMap_congr fun v _ =>
      (Subset.marked_marksIn pick.subset inner.marks v).symm] at hcopies
    rw [hchildren]
    exact (hcopies.append (gather_perm hrest hnodes)).trans
      (flatMap_filterMap_perm hnodes (fun o => marks_root o rest) fun o => below_marks_key hne)

/-- Each piece of the nodes is either gathered or left by pruning. -/
theorem pieces_perm_gather {s : Selector} {nodes : List Object} (hs : s.HasDistinctNames)
    (hnodes : ∀ node ∈ nodes, (Json.obj node).Proper) :
    (nodes.flatMap fun node => (Json.obj node).pieces).Perm
      ((s.gather nodes).flatMap Json.pieces ++
        (s.pruneAll nodes).flatMap fun node => (Json.obj node).pieces) := by
  have hnode : ∀ node ∈ nodes, (Json.obj node).pieces.Perm
      (((Json.obj node).marked (s.marks node)).flatMap Json.pieces ++
        (Json.obj (s.prune node)).pieces) := by
    intro node hn
    have := Json.pieces_perm (.obj node) (apart_marks node hs)
    rwa [marks_root, if_neg Bool.false_ne_true, Json.unmarked, ← Object.unmarked,
      ← prune_eq_unmarked hs (hnodes node hn)] at this
  have hgather := (gather_perm hs hnodes).flatMap_right Json.pieces
  rw [List.flatMap_assoc] at hgather
  rw [pruneAll_eq_map, List.flatMap_map]
  refine (List.Perm.flatMap_left nodes hnode).trans ?_
  refine (List.flatMap_append_perm nodes _ _).symm.trans ?_
  exact hgather.symm.append_right _

open scoped Classical in
/-- Of the two modes of a walk only pruning changes the nodes. Gathering adds copies of the selected
parts, each of them once, to what was collected before and leaves the nodes as they are; pruning
deletes the same parts and nothing else. No selected part lies in another, and each piece of the
nodes is either gathered or left. -/
theorem gather_perm_pruneAll {text : String} {s : Selector} {nodes : List Object}
    (hs : parse text = .ok s)
    (hnames : ∀ address, ((s.atAddress address).picks.map (·.2.name)).Nodup)
    (hnodes : ∀ node ∈ nodes, (Json.obj node).Proper) :
    (∀ copies, (s.exclude nodes).run (some copies) = (nodes, some (copies ++ s.gather nodes)))
      ∧ (s.exclude nodes).run none = (s.pruneAll nodes, none)
      ∧ (s.gather nodes).Perm
        (nodes.mapIdx fun i node =>
          (Json.obj node).marked fun way => decide (Selected s nodes i way)).flatten
      ∧ s.pruneAll nodes =
        nodes.mapIdx (fun i node => node.unmarked fun way => decide (Selected s nodes i way))
      ∧ (∀ i way step way', Selected s nodes i way → ¬ Selected s nodes i (way ++ step :: way'))
      ∧ (nodes.flatMap fun node => (Json.obj node).pieces).Perm
        ((s.gather nodes).flatMap Json.pieces ++
          (s.pruneAll nodes).flatMap fun node => (Json.obj node).pieces) := by
  have hsound := sound_of_parse hs
  have hdistinct : s.HasDistinctNames := hsound.everywhere hnames
  refine ⟨s.run_exclude_some nodes, ?_, ?_, ?_, fun i way step way' h h' => ?_,
    pieces_perm_gather hdistinct hnodes⟩
  · rw [run_exclude_none, pruneAll_eq_map]
  · rw [mapIdx_selected_eq_map hsound fun m node => (Json.obj node).marked m]
    exact gather_perm hdistinct hnodes
  · rw [mapIdx_selected_eq_map hsound fun m node => node.unmarked m, pruneAll_eq_map]
    exact List.map_congr_left fun node hn => prune_eq_unmarked hdistinct (hnodes node hn)
  · obtain ⟨node, hn, hm⟩ := (selected_iff hsound).1 h
    obtain ⟨node', hn', hm'⟩ := (selected_iff hsound).1 h'
    obtain rfl := Option.some.inj (hn.symm.trans hn')
    rw [apart_marks node hdistinct way step way' hm] at hm'
    exact Bool.false_ne_true hm'

open scoped Classical in
theorem gather_perm_pruneAll_windows :
    ∃ (s : Selector) (nodes : List Object), parse "a[2:]\x7bx y[1]\x7d z[1]" = .ok s
      ∧ nodes = [[("z", .str "z"), ("a", .arr [.obj [("x", .null)],
          .obj [("x", .null), ("y", .arr [.bool false, .bool true])], .null])],
        [("a", .obj [("y", .null), ("k", .null)])]]
      ∧ (s.exclude nodes).run (some [.null]) =
        (nodes, some [.null, .str "z", .null, .bool false, .null])
      ∧ s.gather nodes = [.str "z", .null, .bool false, .null]
      ∧ s.pruneAll nodes = [[("a", .arr [.obj [("x", .null)], .obj [("y", .arr [.bool true])],
          .null])], [("a", .obj [("k", .null)])]]
      ∧ s.pruneAll nodes =
        nodes.mapIdx (fun i node => node.unmarked fun way => decide (Selected s nodes i way))
      ∧ (nodes.flatMap fun node => (Json.obj node).pieces).Perm
        ((s.gather nodes).flatMap Json.pieces ++
          (s.pruneAll nodes).flatMap fun node => (Json.obj node).pieces) := by
  have hparse : parse "a[2:]\x7bx y[1]\x7d z[1]" = .ok
      (.field ⟨"z[1]", "z", some ⟨some 0, some 0⟩⟩
        (.descend ⟨"a[2:]", "a", some ⟨some 1, none⟩⟩
          (.field ⟨"x", "x", none⟩ (.field ⟨"y[1]", "y", some ⟨some 0, some 0⟩⟩ .nil)) .nil)) := by
    decide +kernel
  have hindex : ∀ e ∈ index (.field ⟨"z[1]", "z", some ⟨some 0, some 0⟩⟩
      (.descend ⟨"a[2:]", "a", some ⟨some 1, none⟩⟩
        (.field ⟨"x", "x", none⟩ (.field ⟨"y[1]", "y", some ⟨some 0, some 0⟩⟩ .nil)) .nil)),
      (e.2.picks.map (·.2.name)).Nodup := by
    decide
  have hproper : ∀ node ∈ [[("z", Json.str "z"), ("a", .arr [.obj [("x", .null)],
        .obj [("x", .null), ("y", .arr [.bool false, .bool true])], .null])],
      [("a", .obj [("y", .null), ("k", .null)])]], (Json.obj node).Proper := by
    simp [Object.HasDistinctKeys, Object.keys, or_imp, forall_and]
  have hnames := atAddress_of_index (P := fun t => (t.picks.map (·.2.name)).Nodup)
    List.nodup_nil hindex
  obtain ⟨hgather, -, -, hprune, -, hpieces⟩ := gather_perm_pruneAll hparse hnames hproper
  exact ⟨_, _, hparse, rfl, (hgather _).trans rfl, by decide, by decide, hprune, hpieces⟩

end Selector

end JsonSelect
