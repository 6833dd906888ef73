import JsonSelect.Projection
import JsonSelect.Proofs.Proper
import JsonSelect.Selector.Prune
import Mathlib.Data.List.Basic

/-!
# Objects walked over together

When a list of objects is walked over, a descent takes the objects that it leads to out of all of
them. They are put back in the order in which they were taken (`Selector.consumes_putChildren`), so
that each comes to stand where it stood before.

However deep the descents lead, without a collector an object is pruned as it is alone
(`Selector.run_exclude_none`), so that a projection treats every object by itself
(`Projection.nodes_eq_map`). With a collector the walk leaves all objects as they are and adds to
what was collected before (`Selector.run_exclude_some`): the values of a field in all the objects
(`Selector.gather_field`), and what is gathered from the objects that a descent leads to in all of
them (`Selector.gather_descend`).
-/

namespace JsonSelect

/-- Whatever else is at hand behind the objects `taken`, just these are taken. -/
def Consumes {α : Type} (m : StateM (List Object) α) (taken : List Object) (result : α) : Prop :=
  ∀ others, m.run (taken ++ others) = (result, others)

namespace Consumes

variable {α β : Type} {m : StateM (List Object) α} {taken taken' : List Object} {a : α} {b : β}

theorem pure (a : α) : Consumes (pure a) [] a := fun _ => rfl

theorem bind {f : α → StateM (List Object) β} (hm : Consumes m taken a)
    (hf : Consumes (f a) taken' b) : Consumes (m >>= f) (taken ++ taken') b := by
  intro others
  have hrun : (m >>= f).run (taken ++ taken' ++ others) =
      (f (m.run (taken ++ taken' ++ others)).1).run (m.run (taken ++ taken' ++ others)).2 := rfl
  rw [hrun, List.append_assoc, hm, hf]

theorem map (hm : Consumes m taken a) (f : α → β) : Consumes (f <$> m) taken (f a) := by
  have := hm.bind (f := fun a => Pure.pure (f a)) (.pure (f a))
  rwa [List.append_nil] at this

/-- What the elements of a list take lies at hand in their order. -/
theorem mapM {f : α → StateM (List Object) β} {taken : α → List Object} {result : α → β} :
    ∀ {as : List α}, (∀ a ∈ as, Consumes (f a) (taken a) (result a)) →
      Consumes (as.mapM f) (as.flatMap taken) (as.map result)
  | [], _ => .pure []
  | a :: as, h => by
    obtain ⟨ha, has⟩ := List.forall_mem_cons.1 h
    rw [List.mapM_cons, List.flatMap_cons, List.map_cons]
    exact ha.bind ((mapM has).map (result a :: ·))

end Consumes

namespace Subset

variable (f : Object → Object)

theorem consumes_putItem (item : Json) :
    Consumes (putItem item) (item.object?.toList.map f) (updateItem f item) := by
  cases item with
  | obj child => exact fun _ => rfl
  | _ => exact .pure _

theorem consumes_mapM_putItem (items : List Json) :
    Consumes (items.mapM putItem) ((Json.objects items).map f) (items.map (updateItem f)) := by
  have hobjects : Json.objects items = items.flatMap fun item => item.object?.toList := by
    unfold Json.objects
    exact List.filterMap_eq_flatMap_toList _ _
  rw [hobjects, List.map_flatMap]
  exact .mapM fun item _ => consumes_putItem f item

theorem consumes_putChildren (subset : Option Subset) (v : Json) :
    Consumes (putChildren subset v) ((children subset v).map f) (updateChildren subset f v) := by
  cases v with
  | obj child => exact consumes_putItem f (.obj child)
  | arr items =>
    cases subset with
    | none => exact (consumes_mapM_putItem f items).map Json.arr
    | some s =>
      exact (consumes_mapM_putItem f ((s.window items.length).slice items)).map fun covered =>
        Json.arr ((s.window items.length).replace covered items)
  | _ => exact .pure _

end Subset

theorem flatMap_filterMap {α β γ : Type} (f : α → Option β) (g : β → List γ) (l : List α) :
    (l.filterMap f).flatMap g = l.flatMap fun x => (f x).elim [] g := by
  induction l with
  | nil => rfl
  | cons x l ih =>
    rw [List.filterMap_cons, List.flatMap_cons, ← ih]
    cases f x <;> rfl

namespace Selector

theorem mem_childrenOf {pick : Pick} {nodes : List Object} {child : Object} :
    child ∈ childrenOf pick nodes ↔ ∃ node ∈ nodes, ∃ v, (pick.name, v) ∈ node
      ∧ child ∈ Subset.children pick.subset v := by
  unfold childrenOf
  rw [List.mem_flatMap]
  refine exists_congr fun node => and_congr_right fun _ => ?_
  rw [List.mem_flatMap]
  constructor
  · rintro ⟨⟨name, v⟩, hm, hc⟩
    split at hc
    · next hname => exact ⟨v, hname ▸ hm, hc⟩
    · exact absurd hc List.not_mem_nil
  · rintro ⟨v, hm, hc⟩
    exact ⟨_, hm, by rwa [if_pos rfl]⟩

theorem childrenOf_eq (pick : Pick) {nodes : List Object}
    (h : ∀ node ∈ nodes, node.HasDistinctKeys) : childrenOf pick nodes =
      (nodes.filterMap (·.get? pick.name)).flatMap (Subset.children pick.subset) := by
  rw [flatMap_filterMap]
  exact List.flatMap_congr fun node hn => Object.flatMap_get? (h node hn) _ _

/-- The objects that a descent leads to are changed in place by being changed together. -/
theorem consumes_putChildren (pick : Pick) (f : Object → Object) (nodes : List Object) :
    Consumes (putChildren pick nodes) ((childrenOf pick nodes).map f)
      (nodes.map fun node => node.modify pick.name (Subset.updateChildren pick.subset f)) := by
  unfold childrenOf
  rw [List.map_flatMap]
  refine .mapM fun node _ => ?_
  rw [List.map_flatMap]
  refine .mapM fun m _ => ?_
  split
  · exact (Subset.consumes_putChildren f pick.subset m.2).map (m.1, ·)
  · exact .pure m

theorem run_bind {σ α β : Type} (m : StateM σ α) (f : α → StateM σ β) (s : σ) :
    (m >>= f).run s = (f (m.run s).1).run (m.run s).2 := rfl

section Field

variable (pick : Pick)

theorem run_excludeField_none (node : Object) :
    (excludeField pick node).run none = (pruneField pick node, none) := by
  unfold excludeField pruneField
  cases pick.subset with
  | none => rfl
  | some s =>
    cases node.get? pick.name with
    | none => rfl
    | some v => cases v <;> rfl

theorem run_mapM_excludeField_none : ∀ nodes : List Object,
    (nodes.mapM (excludeField pick)).run none = (nodes.map (pruneField pick), none)
  | [] => rfl
  | node :: nodes => by
    rw [List.mapM_cons, run_bind, run_excludeField_none, run_bind, run_mapM_excludeField_none nodes]
    rfl

/-- What a field gives of a value. -/
def fieldValues (subset : Option Subset) : Json → List Json
  | .arr items => if subset.isSome then Subset.covered subset items else [.arr items]
  | value => [value]

theorem run_excludeField_some (node : Object) (copies : List Json) :
    (excludeField pick node).run (some copies) =
      (node, some (copies ++ (node.get? pick.name).elim [] (fieldValues pick.subset))) := by
  unfold excludeField
  cases pick.subset with
  | none =>
    cases node.get? pick.name with
    | none => rfl
    | some v => cases v <;> rfl
  | some s =>
    cases node.get? pick.name with
    | none => rfl
    | some v => cases v <;> rfl

theorem run_mapM_excludeField_some : ∀ (nodes : List Object) (copies : List Json),
    (nodes.mapM (excludeField pick)).run (some copies) = (nodes, some (copies ++
      (nodes.filterMap (·.get? pick.name)).flatMap (fieldValues pick.subset)))
  | [], copies => by
    rw [List.filterMap_nil, List.flatMap_nil, List.append_nil]
    rfl
  | node :: nodes, copies => by
    rw [List.mapM_cons, run_bind, run_excludeField_some, run_bind, run_mapM_excludeField_some nodes,
      flatMap_filterMap, flatMap_filterMap, List.flatMap_cons, List.append_assoc]
    rfl

end Field

/-- Objects that have not changed are put back without a change to the nodes. -/
theorem run_putChildren_childrenOf (pick : Pick) (nodes : List Object) :
    ((putChildren pick nodes).run (childrenOf pick nodes)).1 = nodes := by
  have hvalue : Subset.updateChildren pick.subset id = id := by
    funext v
    cases v with
    | arr items =>
      have hitem : Subset.updateItem id = id := by
        funext item
        cases item <;> rfl
      rw [Subset.updateChildren_arr, hitem]
      exact congrArg Json.arr (List.ext_getElem? fun i => by simp)
    | _ => rfl
  have hput := consumes_putChildren pick id nodes []
  rw [List.map_id, List.append_nil, hvalue] at hput
  rw [hput]
  simp [Object.modify]

/-- The walk without a collector prunes every object. -/
theorem run_exclude_none : ∀ (s : Selector) (nodes : List Object),
    (s.exclude nodes).run none = (nodes.map s.prune, none)
  | nil, nodes => by
    unfold exclude
    exact congrArg (·, none) nodes.map_id.symm
  | field pick rest, nodes => by
    rw [exclude, run_bind, run_mapM_excludeField_none, run_exclude_none rest, List.map_map]
    rfl
  | descend pick inner rest, nodes => by
    have hput := consumes_putChildren pick inner.prune nodes []
    rw [List.append_nil] at hput
    rw [exclude, run_bind, run_exclude_none inner, hput, run_exclude_none rest, List.map_map]
    rfl

theorem pruneAll_eq_map (s : Selector) (nodes : List Object) :
    s.pruneAll nodes = nodes.map s.prune := by rw [pruneAll, run_exclude_none]

/-- The walk with a collector leaves the nodes as they are. What it adds to the collector does not
depend on what is in it. -/
theorem exists_run_exclude_some : ∀ (s : Selector) (nodes : List Object),
    ∃ values, ∀ copies, (s.exclude nodes).run (some copies) = (nodes, some (copies ++ values))
  | nil, nodes => ⟨[], fun copies => by rw [List.append_nil]; rfl⟩
  | field pick rest, nodes => by
    obtain ⟨values, h⟩ := exists_run_exclude_some rest nodes
    let found := (nodes.filterMap (·.get? pick.name)).flatMap (fieldValues pick.subset)
    refine ⟨found ++ values, fun copies => ?_⟩
    rw [exclude, run_bind, run_mapM_excludeField_some, h, List.append_assoc]
  | descend pick inner rest, nodes => by
    obtain ⟨below, hinner⟩ := exists_run_exclude_some inner (childrenOf pick nodes)
    obtain ⟨values, h⟩ := exists_run_exclude_some rest nodes
    refine ⟨below ++ values, fun copies => ?_⟩
    rw [exclude, run_bind, hinner, run_putChildren_childrenOf, h, List.append_assoc]

theorem run_exclude_some (s : Selector) (nodes : List Object) (copies : List Json) :
    (s.exclude nodes).run (some copies) = (nodes, some (copies ++ s.gather nodes)) := by
  obtain ⟨values, h⟩ := s.exists_run_exclude_some nodes
  have hgather : s.gather nodes = values := by rw [gather, h, Option.getD_some, List.nil_append]
  rw [hgather, h]

@[simp] theorem gather_nil (nodes : List Object) : nil.gather nodes = [] := rfl

theorem gather_field (pick : Pick) (rest : Selector) (nodes : List Object) :
    (field pick rest).gather nodes =
      (nodes.filterMap (·.get? pick.name)).flatMap (fieldValues pick.subset)
        ++ rest.gather nodes := by
  rw [gather, exclude, run_bind, run_mapM_excludeField_some, run_exclude_some]
  rfl

theorem gather_descend (pick : Pick) (inner rest : Selector) (nodes : List Object) :
    (descend pick inner rest).gather nodes =
      inner.gather (childrenOf pick nodes) ++ rest.gather nodes := by
  rw [gather, exclude, run_bind, run_exclude_some, run_putChildren_childrenOf, run_exclude_some]
  rfl

end Selector

namespace Projection

/-- An object after selecting and dropping. -/
def node (selected dropped : Option Selector) (o : Object) : Object :=
  let kept := match selected with
    | some s => s.retain o
    | none => o
  match dropped with
  | some s => s.prune kept
  | none => kept

theorem nodes_eq_map (selected dropped : Option Selector) (objects : List Object) :
    nodes selected dropped objects = objects.map (node selected dropped) := by
  unfold nodes
  cases selected with
  | none =>
    cases dropped with
    | none => exact objects.map_id.symm
    | some t => exact t.pruneAll_eq_map objects
  | some s =>
    cases dropped with
    | none => rfl
    | some t =>
      dsimp only
      rw [t.pruneAll_eq_map, List.map_map]
      rfl

end Projection

end JsonSelect
