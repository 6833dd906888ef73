import JsonSelect.Proofs.Batches
import JsonSelect.Proofs.Stages

/-!
# The elements of an array

A request that leaves the root in place does the same to every object, wherever it stands in an
array and whatever stands beside it (`Cache.project_elements`), although what is dropped is dropped
from all the objects of the array together.
-/

namespace JsonSelect

theorem Selector.exists_parseOption {text : Option String}
    (h : ∀ t ∈ text, ∃ s, parse t = .ok s) :
    ∃ s, parseOption text = .ok s ∧ s.isSome = text.isSome := by
  cases text with
  | none => exact ⟨none, rfl, rfl⟩
  | some t =>
    obtain ⟨s, hs⟩ := h t rfl
    exact ⟨some s, bind_eq_ok.2 ⟨s, hs, rfl⟩, rfl⟩

namespace Projection

theorem ofNodes_of_length_ne_one {nodes : List Object} (h : nodes.length ≠ 1) :
    ofNodes nodes = .arr (nodes.map .obj) := by
  rcases nodes with _ | ⟨node, _ | ⟨node', nodes⟩⟩
  · rfl
  · exact absurd rfl h
  · rfl

end Projection

/-- With texts that can be read and one of them not blank, a request makes an object of every
object. On engines in any states, it makes of an array the array of what it makes of each object
among the elements, in their order; a single one stands for itself. -/
theorem Cache.project_elements {request : Request} (hroot : request.rootText = none)
    (hasks : request.selectedText.isSome ∨ request.droppedText.isSome)
    (hselected : ∀ text ∈ request.selectedText, ∃ s, Selector.parse text = .ok s)
    (hdropped : ∀ text ∈ request.droppedText, ∃ s, Selector.parse text = .ok s) :
    ∃ f : Object → Object,
      (∀ (c : Cache) (o : Object), c.Reachable → c.project (.obj o) request = .ok (.obj (f o)))
        ∧ (∀ (c : Cache) (items : List Json) (o : Object), c.Reachable →
          Json.objects items = [o] → c.project (.arr items) request = .ok (.obj (f o)))
        ∧ ∀ (c : Cache) (items : List Json), c.Reachable → (Json.objects items).length ≠ 1 →
          c.project (.arr items) request =
            .ok (.arr ((Json.objects items).map fun o => .obj (f o))) := by
  obtain ⟨selected, hs, hsome⟩ := Selector.exists_parseOption hselected
  obtain ⟨dropped, ht, hsome'⟩ := Selector.exists_parseOption hdropped
  rw [← hsome, ← hsome'] at hasks
  have hproject : ∀ (c : Cache) (tree : Json), c.Reachable → tree.isContainer →
      c.project tree request =
        .ok (Projection.ofNodes (tree.nodes.map (Projection.node selected dropped))) := by
    intro c tree hc htree
    have hmove : request.moveRoot tree = .ok tree := by
      rw [Request.moveRoot, hroot]
      rfl
    rw [hc.project_of_moveRoot htree hmove, hs, ht, ok_bind, ok_bind,
      ← Projection.tree_ofTree htree hasks]
    rfl
  refine ⟨Projection.node selected dropped, fun c o hc => hproject c (.obj o) hc rfl,
    fun c items o hc ho => ?_, fun c items hc hlength => ?_⟩
  · rw [hproject c (.arr items) hc rfl, Json.nodes, ho]
    rfl
  · rw [hproject c (.arr items) hc rfl, Json.nodes,
      Projection.ofNodes_of_length_ne_one (by rwa [List.length_map]), List.map_map]
    rfl

theorem Cache.project_elements_mixed :
    ∃ (c c' : Cache) (request : Request) (o₁ o₂ : Object),
      c.Reachable ∧ c'.Reachable ∧ c'.entries.map (·.1) = ["b a.z"]
      ∧ request = ⟨some " ", none, some "b a\x7bx\x7d a[1].y"⟩
      ∧ o₁ = [("a", .arr [.null, .obj [("x", .null), ("y", .null)]]), ("b", .null)]
      ∧ o₂ = [("a", .arr [.obj [("x", .null), ("y", .null)], .obj [("y", .null)]])]
      ∧ c.project (.obj o₁) request = .ok (.obj [("a", .arr [.null, .obj [("y", .null)]])])
      ∧ (∃ r₁ r₂, c'.project (.obj o₁) request = .ok r₁ ∧ c'.project (.obj o₂) request = .ok r₂
        ∧ c.project (.arr [.null, .obj o₁, .str "a", .obj o₂]) request = .ok (.arr [r₁, r₂])
        ∧ c.project (.arr [.obj o₂, .null]) request = .ok r₂) := by
  have hc : Cache.forgetful.Reachable := ⟨.forgetful, [], .inr rfl, rfl⟩
  have hc' : ((Session.runAll [.parse "b a.z"]).run .empty).2.Reachable :=
    ⟨.empty, _, .inl rfl, rfl⟩
  have hparse : Selector.parse "b a\x7bx\x7d a[1].y" = .ok (.field ⟨"b", "b", none⟩
      (.descend ⟨"a", "a", none⟩ (.field ⟨"x", "x", none⟩ .nil)
        (.descend ⟨"a[1]", "a", some ⟨some 0, some 0⟩⟩ (.field ⟨"y", "y", none⟩ .nil) .nil))) := by
    decide +kernel
  have hroot : Request.rootText ⟨some " ", none, some "b a\x7bx\x7d a[1].y"⟩ = none := by decide
  have hdropped : Request.droppedText ⟨some " ", none, some "b a\x7bx\x7d a[1].y"⟩ =
      some "b a\x7bx\x7d a[1].y" := by
    decide
  obtain ⟨f, hobj, hsingle, harr⟩ := project_elements hroot (.inr (by rw [hdropped]; rfl)) nofun (by
      rw [hdropped]
      rintro text ⟨⟩
      exact ⟨_, hparse⟩)
  exact ⟨_, _, _, _, _, hc, hc', by decide, rfl, rfl, rfl, by decide +kernel, _, _,
    hobj _ _ hc', hobj _ _ hc', harr _ _ hc (by decide), hsingle _ _ _ hc rfl⟩

end JsonSelect
