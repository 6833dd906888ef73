import JsonSelect.Proofs.Batches
import JsonSelect.Proofs.Runs
import Mathlib.Tactic.Common

/-!
# A request by its stages

A request for several things at once gives what asking for one after the other gives: the root
first, then what is selected, then what is dropped (`Cache.project_stages`). The stages hand on
trees, so this needs that the objects at the top of a projected tree are those it was made of
(`Projection.nodes_ofNodes`).
-/

namespace JsonSelect

/-- The request for one part of a request. -/
def Request.stage (request : Request) (part : Part) : Request :=
  Request.empty.set part (request.get part)

theorem Request.isEmpty_stage {request : Request} {part : Part}
    (h : asking (request.get part) = none) : (request.stage part).isEmpty := by
  have hempty : asking none = none := rfl
  have hset : ∀ text, asking text = none → (empty.set part text).isEmpty := by
    intro text htext
    cases part <;> simp [isEmpty, rootText, selectedText, droppedText, set, empty, htext, hempty]
  exact hset _ h

/-- What a projection gives on an engine with the cache. -/
def Cache.project (c : Cache) (tree : Json) (request : Request) : Except Fault Json :=
  ((Session.project tree request).run c).1.map Projection.tree

namespace Projection

/-- A single object stands for itself, any other number of objects for their array. -/
theorem nodes_ofNodes (nodes : List Object) : (ofNodes nodes).nodes = nodes := by
  have hobjects : Json.objects (nodes.map .obj) = nodes := by
    unfold Json.objects
    rw [List.filterMap_map]
    exact List.filterMap_some
  rcases nodes with _ | ⟨node, _ | ⟨node', nodes⟩⟩
  · rfl
  · rfl
  · exact hobjects

theorem isContainer_ofNodes (nodes : List Object) : (ofNodes nodes).isContainer := by
  rcases nodes with _ | ⟨node, _ | ⟨node', nodes⟩⟩ <;> rfl

section Trees

variable {tree : Json}

theorem ofTree_of_not_isContainer (h : tree.isContainer = false)
    (selected dropped : Option Selector) : ofTree selected dropped tree = ⟨tree, 0⟩ := by
  simp [ofTree, h]

theorem ofTree_none_none (tree : Json) : ofTree none none tree = ⟨tree, 0⟩ := by
  simp [ofTree]

theorem tree_ofTree (h : tree.isContainer) {selected dropped : Option Selector}
    (hs : selected.isSome ∨ dropped.isSome) :
    (ofTree selected dropped tree).tree = ofNodes (tree.nodes.map (node selected dropped)) := by
  have hnone : ¬ (selected = none ∧ dropped = none) := by
    rintro ⟨rfl, rfl⟩
    simp at hs
  simp [ofTree, h, hnone, nodes_eq_map]

theorem isContainer_ofTree (h : tree.isContainer) (selected dropped : Option Selector) :
    (ofTree selected dropped tree).tree.isContainer := by
  unfold ofTree
  split
  · exact h
  · exact isContainer_ofNodes _

/-- Dropping from the tree that selecting gives is selecting and dropping at once. -/
theorem tree_ofTree_ofTree (h : tree.isContainer) : ∀ selected dropped : Option Selector,
    (ofTree none dropped (ofTree selected none tree).tree).tree =
      (ofTree selected dropped tree).tree
  | none, dropped => by rw [ofTree_none_none]
  | some s, none => by rw [ofTree_none_none]
  | some s, some t => by
    have hdrop : node none (some t) ∘ node (some s) none = node (some s) (some t) := rfl
    rw [tree_ofTree (isContainer_ofTree h _ _) (.inr rfl), tree_ofTree h (.inl rfl),
      nodes_ofNodes, List.map_map, hdrop, tree_ofTree h (.inl rfl)]

end Trees

section Requests

variable {tree : Json} (h : tree.isContainer) (request : Request)
include h

theorem ofRequest_of_isContainer : ofRequest tree request = do
    let tree ← request.moveRoot tree
    let selected ← Selector.parseOption request.selectedText
    let dropped ← Selector.parseOption request.droppedText
    return ofTree selected dropped tree := by
  simp [ofRequest, h]

theorem ofRequest_stage_root : ofRequest tree (request.stage .root) =
    (request.moveRoot tree).map fun tree => ⟨tree, 0⟩ := by
  rw [ofRequest_of_isContainer h]
  show (request.moveRoot tree >>= fun tree => .ok (ofTree none none tree)) = _
  cases request.moveRoot tree with
  | error fault => rfl
  | ok tree => rw [ok_bind, ofTree_none_none]; rfl

theorem ofRequest_stage_selected : ofRequest tree (request.stage .selected) =
    (Selector.parseOption request.selectedText).map fun selected => ofTree selected none tree := by
  rw [ofRequest_of_isContainer h]
  show (Selector.parseOption request.selectedText >>= fun selected =>
    .ok (ofTree selected none tree)) = _
  cases Selector.parseOption request.selectedText <;> rfl

theorem ofRequest_stage_dropped : ofRequest tree (request.stage .dropped) =
    (Selector.parseOption request.droppedText).map fun dropped => ofTree none dropped tree := by
  rw [ofRequest_of_isContainer h]
  show (Selector.parseOption request.droppedText >>= fun dropped =>
    .ok (ofTree none dropped tree)) = _
  cases Selector.parseOption request.droppedText <;> rfl

end Requests

end Projection

theorem Cache.Reachable.project_eq {c : Cache} (hc : c.Reachable) (tree : Json)
    (request : Request) :
    c.project tree request = (Projection.ofRequest tree request).map Projection.tree := by
  unfold project
  rw [(Session.gives_project tree request c hc.faithful).1]

/-- A request for nothing leaves every tree as it is. -/
theorem Cache.Reachable.project_of_isEmpty {c : Cache} (hc : c.Reachable) (tree : Json)
    {request : Request} (h : request.isEmpty) : c.project tree request = .ok tree := by
  simp only [Request.isEmpty, Bool.and_eq_true, Option.isNone_iff_eq_none] at h
  obtain ⟨⟨hroot, hselected⟩, hdropped⟩ := h
  rw [hc.project_eq]
  by_cases htree : tree.isContainer
  · rw [Projection.ofRequest_of_isContainer htree, Request.moveRoot, hroot, hselected, hdropped]
    exact congrArg (Except.ok ∘ Projection.tree) (Projection.ofTree_none_none tree)
  · rw [Projection.ofRequest, if_pos (by simpa using htree)]
    rfl

theorem Cache.Reachable.project_root {c : Cache} (hc : c.Reachable) {tree : Json}
    (h : tree.isContainer) (request : Request) :
    c.project tree (request.stage .root) = request.moveRoot tree := by
  rw [hc.project_eq, Projection.ofRequest_stage_root h]
  cases request.moveRoot tree <;> rfl

theorem Cache.Reachable.project_of_moveRoot {c : Cache} (hc : c.Reachable) {tree root : Json}
    (h : tree.isContainer) {request : Request} (hroot : request.moveRoot tree = .ok root) :
    c.project tree request = do
      let selected ← Selector.parseOption request.selectedText
      let dropped ← Selector.parseOption request.droppedText
      return (Projection.ofTree selected dropped root).tree := by
  rw [hc.project_eq, Projection.ofRequest_of_isContainer h, hroot, ok_bind]
  cases Selector.parseOption request.selectedText with
  | error fault => rfl
  | ok selected => cases Selector.parseOption request.droppedText <;> rfl

/-- On engines in any states: what the root fails with, the whole request fails with. Behind a root
that is a container, the request gives what selecting and then dropping gives. Any other value
stays, if the texts can be read. A part that is not set or blank leaves the tree as it is. -/
theorem Cache.project_stages {c c₁ c₂ c₃ : Cache} (hc : c.Reachable) (hc₁ : c₁.Reachable)
    (hc₂ : c₂.Reachable) (hc₃ : c₃.Reachable) {tree : Json} (htree : tree.isContainer)
    (request : Request) :
    (∀ fault, c₁.project tree (request.stage .root) = .error fault →
        c.project tree request = .error fault)
      ∧ (∀ root, c₁.project tree (request.stage .root) = .ok root → root.isContainer →
        c.project tree request = do
          let selected ← c₂.project root (request.stage .selected)
          c₃.project selected (request.stage .dropped))
      ∧ (∀ root, c₁.project tree (request.stage .root) = .ok root → root.isContainer = false →
        c.project tree request = do
          let _ ← Selector.parseOption request.selectedText
          let _ ← Selector.parseOption request.droppedText
          return root)
      ∧ (request.selectedText = none → ∀ root, c₂.project root (request.stage .selected) = .ok root)
      ∧ (request.droppedText = none →
        ∀ root, c₃.project root (request.stage .dropped) = .ok root) := by
  rw [hc₁.project_root htree]
  refine ⟨fun fault h => ?_, fun root h hroot => ?_, fun root h hroot => ?_, ?_, ?_⟩
  · rw [hc.project_eq, Projection.ofRequest_of_isContainer htree, h]
    rfl
  · rw [hc.project_of_moveRoot htree h, hc₂.project_eq, Projection.ofRequest_stage_selected hroot]
    cases Selector.parseOption request.selectedText with
    | error fault => rfl
    | ok selected =>
      have hselected := Projection.isContainer_ofTree hroot selected none
      show _ = c₃.project (Projection.ofTree selected none root).tree (request.stage .dropped)
      rw [hc₃.project_eq, Projection.ofRequest_stage_dropped hselected, ok_bind]
      cases Selector.parseOption request.droppedText with
      | error fault => rfl
      | ok dropped => exact congrArg Except.ok (Projection.tree_ofTree_ofTree hroot _ _).symm
  · rw [hc.project_of_moveRoot htree h]
    cases Selector.parseOption request.selectedText with
    | error fault => rfl
    | ok selected =>
      cases Selector.parseOption request.droppedText with
      | error fault => rfl
      | ok dropped =>
        exact congrArg (Except.ok ∘ Projection.tree)
          (Projection.ofTree_of_not_isContainer hroot selected dropped)
  · exact fun h root => hc₂.project_of_isEmpty root (Request.isEmpty_stage h)
  · exact fun h root => hc₃.project_of_isEmpty root (Request.isEmpty_stage h)

theorem Cache.project_stages_root :
    ∃ (c c' : Cache) (tree root : Json) (request : Request),
      c.Reachable ∧ c'.Reachable ∧ tree.isContainer
      ∧ tree = .arr [.null, .obj [("a", .obj [("x", .null), ("y", .null), ("z", .null)])]]
      ∧ request = ⟨some "[0].a", some "x y", some "y"⟩
      ∧ c'.entries.map (·.1) = ["y", "x y", "a"]
      ∧ c.project tree (request.stage .root) = .ok root ∧ root.isContainer
      ∧ (c.project tree request = do
          let selected ← c'.project root (request.stage .selected)
          c.project selected (request.stage .dropped))
      ∧ c.project tree request = .ok (.obj [("x", .null)]) := by
  have hc : Cache.forgetful.Reachable := ⟨.forgetful, [], .inr rfl, rfl⟩
  have hc' : ((Session.runAll [.parse "a", .parse "x y", .parse "y"]).run .empty).2.Reachable :=
    ⟨.empty, _, .inl rfl, rfl⟩
  have htree : (Json.arr [.null,
      .obj [("a", .obj [("x", .null), ("y", .null), ("z", .null)])]]).isContainer := rfl
  have hroot : Cache.forgetful.project
      (.arr [.null, .obj [("a", .obj [("x", .null), ("y", .null), ("z", .null)])]])
      (Request.stage ⟨some "[0].a", some "x y", some "y"⟩ .root) =
        .ok (.obj [("x", .null), ("y", .null), ("z", .null)]) := by
    decide +kernel
  obtain ⟨-, hstages, -⟩ :=
    project_stages hc hc hc' hc htree ⟨some "[0].a", some "x y", some "y"⟩
  exact ⟨_, _, _, _, _, hc, hc', htree, rfl, rfl, by decide, hroot, rfl, hstages _ hroot rfl,
    by decide +kernel⟩

end JsonSelect
