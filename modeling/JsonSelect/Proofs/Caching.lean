import JsonSelect.Proofs.Steps
import JsonSelect.Session

/-!
# What a cache leaves unseen

A faithful cache keeps under a text the selector that the text writes (`Cache.Faithful`). With such
a cache a session gives what reading every text anew gives, and leaves the cache faithful
(`Session.Gives`). So it projects as `Projection.ofRequest` does, which knows of no cache
(`Session.gives_project`).
-/

namespace JsonSelect

/-- What a root text leaves of a tree. -/
def Root.move (text : String) (tree : Json) : Except Fault Json := do
  let parts ← Root.parts text
  let tree ← match parts.bracket with
    | some bracket => Root.choose bracket tree
    | none => pure tree
  if parts.path.isEmpty then return tree
  else return Root.follow (← Selector.parse parts.path) tree

def Selector.parseOption : Option String → Except Fault (Option Selector)
  | some text => return some (← Selector.parse text)
  | none => return none

/-- The tree with its root where the request puts it. -/
def Request.moveRoot (request : Request) (tree : Json) : Except Fault Json :=
  match request.rootText with
  | some text => Root.move text tree
  | none => pure tree

/-- The projection that a request asks for, each of its texts read anew. -/
def Projection.ofRequest (tree : Json) (request : Request) : Except Fault Projection := do
  if !tree.isContainer then return ⟨tree, 0⟩
  let tree ← request.moveRoot tree
  let selected ← Selector.parseOption request.selectedText
  let dropped ← Selector.parseOption request.droppedText
  return Projection.ofTree selected dropped tree

/-- Each text writes the selector that is kept for it, and a forgetful cache keeps none. -/
structure Cache.Faithful (c : Cache) : Prop where
  parse_eq : ∀ e ∈ c.entries, Selector.parse e.1 = .ok e.2.selector
  entries_eq : c.keeps = false → c.entries = []

theorem Cache.faithful_of_entries_eq {c : Cache} (h : c.entries = []) : c.Faithful :=
  ⟨by simp [h], fun _ => h⟩

theorem Cache.Faithful.add {c : Cache} (h : c.Faithful) {text : String} {s : Selector}
    (hs : Selector.parse text = .ok s) : (c.add text s).Faithful := by
  cases hk : c.keeps with
  | false => exact faithful_of_entries_eq (by simp [Cache.add, hk, h.entries_eq hk])
  | true =>
    refine ⟨?_, fun hf => absurd hf (by simp [Cache.add, hk])⟩
    simpa [Cache.add, hk] using ⟨hs, fun a b => h.parse_eq (a, b)⟩

theorem Cache.Faithful.parse_of_lookup {c : Cache} (h : c.Faithful) {text : String}
    {shared : Shared} (hl : c.entries.lookup text = some shared) :
    Selector.parse text = .ok shared.selector := by
  obtain ⟨l, l', heq, -⟩ := List.lookup_eq_some_iff.1 hl
  exact h.parse_eq (text, shared) (heq ▸ List.mem_append_right l (.head l'))

namespace Session

variable {α β : Type}

/-- With a faithful cache the session gives this result, and leaves a faithful cache of its kind. -/
def Gives (m : Session α) (result : Except Fault α) : Prop :=
  ∀ c : Cache, c.Faithful →
    (m.run c).1 = result ∧ (m.run c).2.Faithful ∧ (m.run c).2.keeps = c.keeps

theorem gives_pure (a : α) : Gives (pure a) (.ok a) := fun _ h => ⟨rfl, h, rfl⟩

theorem gives_ofExcept (result : Except Fault α) : Gives (ofExcept result) result :=
  fun _ h => ⟨rfl, h, rfl⟩

theorem run_bind (m : Session α) (f : α → Session β) (c : Cache) :
    (m >>= f).run c = match m.run c with
      | (.ok a, c') => (f a).run c'
      | (.error e, c') => (.error e, c') := by
  have hbind : (m >>= f).run c = ExceptT.bindCont f (m.run c).1 (m.run c).2 := rfl
  rw [hbind]
  rcases m.run c with ⟨e | a, c'⟩ <;> rfl

theorem run_map (m : Session α) (f : α → β) (c : Cache) :
    (f <$> m).run c = ((m.run c).1.map f, (m.run c).2) := by
  rw [map_eq_pure_bind, run_bind]
  rcases m.run c with ⟨e | a, c'⟩ <;> rfl

theorem Gives.bind {m : Session α} {f : α → Session β} {result : Except Fault α}
    {g : α → Except Fault β} (hm : Gives m result) (hf : ∀ a, Gives (f a) (g a)) :
    Gives (m >>= f) (result >>= g) := by
  intro c hc
  obtain ⟨hresult, hc', hk⟩ := hm c hc
  rw [run_bind]
  rcases hrun : m.run c with ⟨e | a, c'⟩ <;> rw [hrun] at hresult hc' hk <;> subst hresult
  · exact ⟨rfl, hc', hk⟩
  · obtain ⟨hb, hc'', hk'⟩ := hf a c' hc'
    exact ⟨hb, hc'', hk'.trans hk⟩

/-- The reading goes on with what the cache holds. -/
theorem run_parse (c : Cache) (text : String) :
    (parse text).run c = match c.entries.lookup text with
      | some shared => (.ok shared, c)
      | none => match Selector.parse text with
        | .ok s => (.ok ⟨c.readings, s⟩, c.add text s)
        | .error fault => (.error fault, c) := by
  have hget : (get : Session Cache).run c = (.ok c, c) := rfl
  unfold parse
  rw [run_bind, hget]
  dsimp only
  cases c.entries.lookup text with
  | some shared => rfl
  | none =>
    dsimp only
    rw [run_bind]
    cases Selector.parse text <;> rfl

theorem gives_parse (text : String) :
    Gives (Shared.selector <$> parse text) (Selector.parse text) := by
  intro c hc
  rw [run_map, run_parse]
  cases hl : c.entries.lookup text with
  | some shared => exact ⟨(hc.parse_of_lookup hl).symm, hc, rfl⟩
  | none =>
    cases hs : Selector.parse text with
    | ok s => exact ⟨rfl, hc.add hs, rfl⟩
    | error fault => exact ⟨rfl, hc, rfl⟩

theorem gives_parseOption : ∀ text : Option String,
    Gives (parseOption text) (Selector.parseOption text)
  | none => gives_pure none
  | some text => by
    have h : parseOption (some text) = do return some (← Shared.selector <$> parse text) := by
      rw [bind_map_left]
      rfl
    rw [h]
    exact (gives_parse text).bind fun s => gives_pure (some s)

theorem gives_follow (path : String) (tree : Json) :
    Gives (do return Root.follow (← parse path).selector tree)
      (do return Root.follow (← Selector.parse path) tree) := by
  have h : (do return Root.follow (← parse path).selector tree : Session Json) =
      (do return Root.follow (← Shared.selector <$> parse path) tree) := by
    rw [bind_map_left]
  rw [h]
  exact (gives_parse path).bind fun s => gives_pure (Root.follow s tree)

theorem gives_moveRoot (text : String) (tree : Json) :
    Gives (moveRoot text tree) (Root.move text tree) := by
  refine (gives_ofExcept _).bind fun parts => ?_
  have hpath : ∀ tree, Gives
      (if parts.path.isEmpty then pure tree
        else do return Root.follow (← parse parts.path).selector tree)
      (if parts.path.isEmpty then pure tree
        else do return Root.follow (← Selector.parse parts.path) tree) := by
    intro tree
    split
    · exact gives_pure tree
    · exact gives_follow parts.path tree
  cases parts.bracket with
  | none => exact (gives_pure tree).bind hpath
  | some bracket => exact (gives_ofExcept _).bind hpath

/-- A session projects as if it read every text anew. -/
theorem gives_project (tree : Json) (request : Request) :
    Gives (project tree request) (Projection.ofRequest tree request) := by
  have hselect : ∀ tree, Gives
      (do
        let selected ← parseOption request.selectedText
        let dropped ← parseOption request.droppedText
        return Projection.ofTree selected dropped tree)
      (do
        let selected ← Selector.parseOption request.selectedText
        let dropped ← Selector.parseOption request.droppedText
        return Projection.ofTree selected dropped tree) := fun tree =>
    (gives_parseOption _).bind fun _ => (gives_parseOption _).bind fun _ => gives_pure _
  unfold project Projection.ofRequest Request.moveRoot
  split
  · exact gives_pure _
  · cases request.rootText with
    | none => exact (gives_pure tree).bind hselect
    | some text => exact (gives_moveRoot text tree).bind hselect

end Session

end JsonSelect
