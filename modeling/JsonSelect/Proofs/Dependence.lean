import JsonSelect.Proofs.Copying
import JsonSelect.Proofs.Marking
import Mathlib.Data.List.Forall2

/-!
# What retaining depends on

A selector reads an object through its picks only: two objects that agree at an address, in what the
fields name and in the objects that the descents lead to (`Selector.Agree`), retain the same there
(`Selector.Agree.retain_eq`). Deleting members that no pick sees leaves an object that agrees
(`Selector.agree_unmarked`), so that such members can be changed, added and removed at any depth
without effect (`Selector.map_retain_of_agree`).
-/

namespace JsonSelect

namespace Selector

mutual

/-- The fields at an address find equal values in both objects, or none; what its descents find
agrees at their child addresses. -/
inductive Agree (s : Selector) : String → Object → Object → Prop
  | intro {address : String} {m n : Object}
      (fields : ∀ pick, (.field, pick) ∈ (s.atAddress address).picks →
        m.get? pick.name = n.get? pick.name)
      (descents : ∀ pick, (.descend, pick) ∈ (s.atAddress address).picks →
        AgreeUnder s pick.subset (Address.child address pick.token) (m.get? pick.name)
          (n.get? pick.name)) :
      Agree s address m n

/-- A descent to an address finds two values of one kind. If it leads to objects in them, it leads
to as many in both, and these agree in their order. -/
inductive AgreeUnder (s : Selector) : Option Subset → String → Option Json → Option Json → Prop
  | absent {subset : Option Subset} {address : String} : AgreeUnder s subset address none none
  | scalar {subset : Option Subset} {address : String} {v w : Json} (hv : v.isContainer = false)
      (hw : w.isContainer = false) : AgreeUnder s subset address (some v) (some w)
  | object {subset : Option Subset} {address : String} {m n : Object} (h : Agree s address m n) :
      AgreeUnder s subset address (some (.obj m)) (some (.obj n))
  | array {subset : Option Subset} {address : String} {items others : List Json}
      (hlength : (Subset.children subset (.arr items)).length =
        (Subset.children subset (.arr others)).length)
      (h : ∀ i (hi : i < (Subset.children subset (.arr items)).length)
        (hj : i < (Subset.children subset (.arr others)).length),
        Agree s address (Subset.children subset (.arr items))[i]
          (Subset.children subset (.arr others))[i]) :
      AgreeUnder s subset address (some (.arr items)) (some (.arr others))

end

theorem map_eq_map_of_forall₂ {α β : Type} {R : α → α → Prop} {f : α → β}
    (hf : ∀ a b, R a b → f a = f b) {l l' : List α} (h : List.Forall₂ R l l') :
    l.map f = l'.map f := by
  induction h with
  | nil => rfl
  | cons hab _ ih => rw [List.map_cons, List.map_cons, hf _ _ hab, ih]

/-- A descent copies the same of what agrees, if the objects that it leads to retain the same. -/
theorem AgreeUnder.copyChildren_eq {s inner : Selector} {subset : Option Subset}
    {address : String} {v w : Option Json}
    (hinner : ∀ m n, Agree s address m n → inner.retain m = inner.retain n)
    (h : AgreeUnder s subset address v w) :
    v.bind (Subset.copyChildren subset inner.retain) =
      w.bind (Subset.copyChildren subset inner.retain) := by
  have hscalar : ∀ v : Json, v.isContainer = false →
      Subset.copyChildren subset inner.retain v = none := by
    intro v hv
    cases v with
    | arr | obj => exact absurd hv (by simp [Json.isContainer])
    | _ => rfl
  cases h with
  | absent => rfl
  | scalar hv hw => rw [Option.bind_some, Option.bind_some, hscalar _ hv, hscalar _ hw]
  | object h =>
    rw [Option.bind_some, Option.bind_some, Subset.copyChildren, Subset.copyChildren, hinner _ _ h]
  | array hlength h =>
    have hmap := map_eq_map_of_forall₂ (f := fun child => Json.obj (inner.retain child))
      (fun m n hmn => congrArg Json.obj (hinner m n hmn))
      (List.forall₂_iff_get.2 ⟨hlength, fun i hi hj => h i hi hj⟩)
    exact congrArg (some ∘ Json.arr) hmap

/-- Objects that agree at an address retain the same there, if those do that agree below it. -/
theorem Agree.retain_eq {s : Selector} (hs : s.Sound) (address : String) :
    ∀ {m n : Object}, Agree s address m n →
      (s.atAddress address).retain m = (s.atAddress address).retain n := by
  induction address using hs.address_induction with
  | h address ih =>
    rintro m n ⟨hfields, hdescents⟩
    have hf := hs.innerAt_eq address
    unfold retain
    rw [parts_eq_flatMap _ _ hf, parts_eq_flatMap _ _ hf]
    refine congrArg _ (List.flatMap_congr fun x hx => ?_)
    obtain ⟨role, pick⟩ := x
    cases role with
    | field => rw [part, part, hfields pick hx]
    | descend =>
      obtain ⟨inner, hd⟩ := mem_picks_iff_mem_descents.1 hx
      have hchild : ∀ m n, Agree s (Address.child address pick.token) m n →
          (s.innerAt address pick).retain m = (s.innerAt address pick).retain n :=
        fun m n => ih _ hd
      rw [part, part, (hdescents pick hx).copyChildren_eq hchild]

/-- A pick at an address sees the part of an object at a way: the pick names it, or is a field and
takes it with all that is around it, or leads to an object in which it is seen. -/
inductive Sees (s : Selector) : String → Object → List Step → Prop
  | name {address : String} {o : Object} {role : Role} {pick : Pick}
      (hp : (role, pick) ∈ (s.atAddress address).picks) : Sees s address o [.key pick.name]
  | field {address : String} {o : Object} {pick : Pick} {way : List Step}
      (hp : (.field, pick) ∈ (s.atAddress address).picks) :
      Sees s address o (.key pick.name :: way)
  | descend {address : String} {o child : Object} {pick : Pick} {v : Json} {way way' : List Step}
      (hp : (.descend, pick) ∈ (s.atAddress address).picks) (hv : o.get? pick.name = some v)
      (hl : Subset.Leads pick.subset v way child)
      (h : Sees s (Address.child address pick.token) child way') :
      Sees s address o (.key pick.name :: (way ++ way'))

theorem children_arr_eq_filterMap (subset : Option Subset) (items : List Json) :
    Subset.children subset (.arr items) = items.zipIdx.filterMap fun x =>
      if Subset.takesIn subset items.length x.2 then x.1.object? else none := by
  rw [Subset.children, Subset.covered_eq_filterMap, Json.objects, List.filterMap_filterMap]
  refine List.filterMap_congr fun x _ => ?_
  split <;> rfl

/-- Deleting members keeps the objects that a descent leads to in an array, and their order. -/
theorem forall₂_children_unmarked {subset : Option Subset} {R : Object → Object → Prop} {d : Marks}
    {items : List Json} (hd : d.SparesItems)
    (h : ∀ way child, Subset.Leads subset (.arr items) way child →
      R child (child.unmarked (d.behind way))) :
    List.Forall₂ R (Subset.children subset (.arr items))
      (Subset.children subset ((Json.arr items).unmarked d)) := by
  have hzip : (items.mapIdx fun i item => item.unmarked (d.below (.item i))).zipIdx =
      items.zipIdx.map fun x => (x.1.unmarked (d.below (.item x.2)), x.2) := by
    refine List.ext_getElem? fun i => ?_
    simp [List.getElem?_zipIdx, Function.comp_def]
  have hitems : List.Forall₂
      (fun x y => x ∈ items.zipIdx ∧ y = (x.1.unmarked (d.below (.item x.2)), x.2))
      items.zipIdx (items.zipIdx.map fun x => (x.1.unmarked (d.below (.item x.2)), x.2)) :=
    List.forall₂_map_right_iff.2 (List.forall₂_same.2 fun x hx => ⟨hx, rfl⟩)
  rw [Json.unmarked_arr (hd []), children_arr_eq_filterMap, children_arr_eq_filterMap,
    List.length_mapIdx, hzip]
  refine List.rel_filterMap ?_ hitems
  rintro ⟨item, i⟩ _ ⟨hx, rfl⟩
  have hi : items[i]? = some item := List.mem_zipIdx_iff_getElem?.1 hx
  dsimp only
  by_cases hc : Subset.takesIn subset items.length i
  · rw [if_pos hc, if_pos hc]
    cases item with
    | obj child => exact .some (h [.item i] child (.arr hi hc))
    | _ => exact .none
  · rw [if_neg hc, if_neg hc]
    exact .none

theorem agree_unmarked {s : Selector} (hs : s.Sound) (address : String) :
    ∀ {m : Object} {d : Marks}, d.SparesItems → (∀ way, d way → ¬ Sees s address m way) →
      Agree s address m (m.unmarked d) := by
  induction address using hs.address_induction with
  | h address ih =>
    intro m d hspares hd
    have hname : ∀ role pick, (role, pick) ∈ (s.atAddress address).picks →
        (m.unmarked d).get? pick.name =
          (m.get? pick.name).map (Json.unmarked (d.below (.key pick.name))) := by
      intro role pick hp
      rw [Object.get?_unmarked, if_neg fun h => hd _ h (.name hp)]
    refine ⟨fun pick hp => ?_, fun pick hp => ?_⟩
    · have hnone : d.below (.key pick.name) = Marks.none := by
        funext way
        exact Bool.eq_false_iff.2 fun h => hd _ h (.field hp)
      rw [Object.get?_unmarked_of_none hnone]
    · obtain ⟨inner, hmem⟩ := mem_picks_iff_mem_descents.1 hp
      rw [hname _ pick hp]
      cases hv : m.get? pick.name with
      | none => exact .absent
      | some v =>
        have hbelow := hspares.below (.key pick.name)
        have hchild : ∀ way child, Subset.Leads pick.subset v way child →
            Agree s (Address.child address pick.token) child
              (child.unmarked ((d.below (.key pick.name)).behind way)) :=
          fun way child hl => ih _ hmem (hbelow.behind way) fun way' h hsees =>
            hd _ h (.descend hp hv hl hsees)
        cases v with
        | obj child => exact .object (hchild [] child .obj)
        | arr items =>
          obtain ⟨hlength, h⟩ := List.forall₂_iff_get.1 (forall₂_children_unmarked hbelow hchild)
          exact .array hlength h
        | _ => exact .scalar rfl rfl

/-- Nodes that agree pairwise at an address retain the same there. So do two objects of which the
same is left when members that no pick sees are deleted. -/
theorem map_retain_of_agree {text : String} {s : Selector} (hs : parse text = .ok s)
    (address : String) :
    (∀ ms ns : List Object, List.Forall₂ (Agree s address) ms ns →
        ms.map (s.atAddress address).retain = ns.map (s.atAddress address).retain)
      ∧ ∀ (m n : Object) (d e : Marks), d.SparesItems → e.SparesItems →
        (∀ way, d way → ¬ Sees s address m way) → (∀ way, e way → ¬ Sees s address n way) →
          m.unmarked d = n.unmarked e →
            (s.atAddress address).retain m = (s.atAddress address).retain n := by
  have hsound := sound_of_parse hs
  refine ⟨fun ms ns h => ?_, fun m n d e hspares hspares' hd he heq => ?_⟩
  · exact map_eq_map_of_forall₂ (fun m n hmn => hmn.retain_eq hsound address) h
  · have hm := agree_unmarked hsound address hspares hd
    have hn := agree_unmarked hsound address hspares' he
    rw [hm.retain_eq hsound, heq, hn.retain_eq hsound]

theorem map_retain_of_agree_windows :
    ∃ (s : Selector) (m n : Object), parse "a[2:]\x7bx\x7d b" = .ok s
      ∧ m = [("a", .arr [.null, .obj [("x", .null), ("y", .null)]]), ("b", .null), ("c", .null)]
      ∧ n = [("b", .null), ("a", .arr [.obj [], .str "z", .obj [("k", .null), ("x", .null)]])]
      ∧ List.Forall₂ (Agree s "") [m] [n]
      ∧ [m].map (s.atAddress "").retain = [n].map (s.atAddress "").retain
      ∧ (s.atAddress "").retain m = [("b", .null), ("a", .arr [.obj [("x", .null)]])] := by
  have hparse : parse "a[2:]\x7bx\x7d b" = .ok (.field ⟨"b", "b", none⟩
      (.descend ⟨"a[2:]", "a", some ⟨some 1, none⟩⟩ (.field ⟨"x", "x", none⟩ .nil) .nil)) := by
    decide +kernel
  refine ⟨_, _, _, hparse, rfl, rfl, ?_⟩
  generalize hs : Selector.field ⟨"b", "b", none⟩
    (.descend ⟨"a[2:]", "a", some ⟨some 1, none⟩⟩ (.field ⟨"x", "x", none⟩ .nil) .nil) = s at *
  have hroot : (s.atAddress "").picks =
      [(.field, ⟨"b", "b", none⟩), (.descend, ⟨"a[2:]", "a", some ⟨some 1, none⟩⟩)] := by
    subst hs
    decide
  have hbelow : (s.atAddress "a[2:]").picks = [(.field, ⟨"x", "x", none⟩)] := by
    subst hs
    decide
  have hchild : Agree s "a[2:]" [("x", .null), ("y", .null)] [("k", .null), ("x", .null)] := by
    refine ⟨fun pick hp => ?_, fun pick hp => ?_⟩
    · obtain rfl : pick = ⟨"x", "x", none⟩ := by simpa [hbelow] using hp
      decide
    · simp [hbelow] at hp
  have hagree : Agree s ""
      [("a", .arr [.null, .obj [("x", .null), ("y", .null)]]), ("b", .null), ("c", .null)]
      [("b", .null), ("a", .arr [.obj [], .str "z", .obj [("k", .null), ("x", .null)]])] := by
    refine ⟨fun pick hp => ?_, fun pick hp => ?_⟩
    · obtain rfl : pick = ⟨"b", "b", none⟩ := by simpa [hroot] using hp
      decide
    · obtain rfl : pick = ⟨"a[2:]", "a", some ⟨some 1, none⟩⟩ := by simpa [hroot] using hp
      refine .array rfl fun i hi _ => ?_
      obtain rfl : i = 0 := Nat.lt_one_iff.1 hi
      exact hchild
  have hagrees := List.Forall₂.cons hagree .nil
  refine ⟨hagrees, (map_retain_of_agree hparse "").1 _ _ hagrees, ?_⟩
  subst hs
  decide

end Selector

end JsonSelect
