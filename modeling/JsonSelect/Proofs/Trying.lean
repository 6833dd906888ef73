import JsonSelect.Proofs.Runs
import Mathlib.Data.List.TakeWhile

/-!
# What a session reads

A session tries texts one after the other and stops at the first that writes nothing
(`Session.Tries`). A projection tries the path of its root, then the selected and the dropped text
(`Request.tries`). So all that a command does to a faithful cache, unless it clears it, is to fetch
the texts that it reads (`Session.Command.run_eq_fetchAll`).
-/

namespace JsonSelect

/-- What the bracket of a root text leaves of a tree. -/
def Root.Parts.narrow (parts : Root.Parts) (tree : Json) : Except Fault Json :=
  match parts.bracket with
  | some bracket => Root.choose bracket tree
  | none => .ok tree

/-- The path that a root text leaves to be read, once its bracket has narrowed the tree. -/
def Root.pathText (text : String) (tree : Json) : Except Fault (Option String) := do
  let parts ← Root.parts text
  let _ ← parts.narrow tree
  return if parts.path.isEmpty then none else some parts.path

/-- The texts that a request has to read for a tree, in order. -/
def Request.tries (request : Request) (tree : Json) : List String :=
  let others := request.selectedText.toList ++ request.droppedText.toList
  if !tree.isContainer then []
  else match request.rootText with
    | none => others
    | some text =>
      match Root.pathText text tree with
      | .ok path => path.toList ++ others
      | .error _ => []

/-- Those of the texts that are read when each waits for the one before it. -/
def Selector.readable (texts : List String) : List String :=
  texts.takeWhile fun text => (parse text).isOk

theorem isOk_iff {ε α : Type} {x : Except ε α} : x.isOk ↔ ∃ a, x = .ok a := by
  cases x <;> simp [Except.isOk, Except.toBool]

theorem Selector.exists_of_mem_readable {texts : List String} {text : String}
    (h : text ∈ readable texts) : ∃ s, parse text = .ok s :=
  isOk_iff.1 (List.mem_takeWhile_imp (p := fun text => (parse text).isOk) h)

namespace Cache

/-- The cache after a text was read through it. -/
def fetch (c : Cache) (text : String) : Cache :=
  match c.entries.lookup text with
  | some _ => c
  | none =>
    match Selector.parse text with
    | .ok s => c.add text s
    | .error _ => c

/-- The cache after some texts were read through it, one after the other. -/
def fetchAll (c : Cache) (texts : List String) : Cache := texts.foldl fetch c

/-- Fetching changes nothing, or adds the selector of a text that was not there. -/
theorem fetch_of_add {P : Cache → Prop} {c : Cache} {text : String} (h : P c)
    (hadd : ∀ s, c.entries.lookup text = none → Selector.parse text = .ok s →
      P (c.add text s)) : P (c.fetch text) := by
  unfold fetch
  cases hl : c.entries.lookup text with
  | some shared => exact h
  | none =>
    cases hs : Selector.parse text with
    | ok s => exact hadd s hl hs
    | error fault => exact h

theorem fetchAll_of_fetch {P : Cache → Prop} (h : ∀ c text, P c → P (c.fetch text)) :
    ∀ (texts : List String) {c : Cache}, P c → P (c.fetchAll texts)
  | [], _, hc => hc
  | text :: texts, _, hc => fetchAll_of_fetch h texts (h _ text hc)

theorem fetchAll_append (c : Cache) (texts more : List String) :
    c.fetchAll (texts ++ more) = (c.fetchAll texts).fetchAll more :=
  List.foldl_append

theorem Faithful.fetch {c : Cache} (h : c.Faithful) (text : String) : (c.fetch text).Faithful :=
  fetch_of_add h fun _ _ hs => h.add hs

theorem Faithful.fetchAll {c : Cache} (h : c.Faithful) (texts : List String) :
    (c.fetchAll texts).Faithful :=
  fetchAll_of_fetch (fun _ text hc => hc.fetch text) texts h

end Cache

namespace Session

variable {α β : Type}

/-- With a faithful cache the session fetches these texts in order up to the first that writes
nothing, and fails if and only if there is such a text. -/
def Tries (m : Session α) (texts : List String) : Prop :=
  ∀ c : Cache, c.Faithful → (m.run c).2 = c.fetchAll (Selector.readable texts)
    ∧ ((m.run c).1.isOk ↔ ∀ text ∈ texts, (Selector.parse text).isOk)

theorem tries_pure (a : α) : Tries (pure a) [] :=
  fun _ _ => ⟨rfl, iff_of_true rfl (by simp)⟩

theorem Tries.bind {m : Session α} {f : α → Session β} {texts more : List String}
    (hm : Tries m texts) (hf : ∀ a, Tries (f a) more) : Tries (m >>= f) (texts ++ more) := by
  intro c hc
  obtain ⟨hstate, hok⟩ := hm c hc
  rw [run_bind, List.forall_mem_append, ← hok]
  rcases hrun : m.run c with ⟨e | a, c'⟩ <;> rw [hrun] at hstate hok
  · -- what comes behind a text that writes nothing is not read
    have hread : Selector.readable (texts ++ more) = Selector.readable texts := by
      unfold Selector.readable
      rw [List.takeWhile_append, if_neg]
      intro hlen
      have hall := List.takeWhile_eq_self_iff.1
        ((List.takeWhile_prefix _).eq_of_length hlen)
      exact absurd (hok.2 hall) nofun
    rw [hread]
    exact ⟨hstate, iff_of_false nofun fun h => absurd h.1 nofun⟩
  · have hread : Selector.readable (texts ++ more) = texts ++ Selector.readable more :=
      List.takeWhile_append_of_pos (hok.1 rfl)
    have hall : Selector.readable texts = texts := List.takeWhile_eq_self_iff.2 (hok.1 rfl)
    rw [hall] at hstate
    obtain rfl : c' = c.fetchAll texts := hstate
    obtain ⟨hstate', hok'⟩ := hf a _ (hc.fetchAll texts)
    rw [hread, Cache.fetchAll_append]
    exact ⟨hstate', hok'.trans (iff_and_self.2 fun _ => rfl)⟩

theorem run_parse_eq_fetch (text : String) (c : Cache) :
    ((parse text).run c).2 = c.fetch text := by
  rw [run_parse, Cache.fetch]
  cases c.entries.lookup text with
  | some shared => rfl
  | none => cases Selector.parse text <;> rfl

theorem tries_parse (text : String) : Tries (parse text) [text] := by
  intro c hc
  have hfetch : c.fetch text = c.fetchAll (Selector.readable [text]) := by
    unfold Selector.readable
    rw [List.takeWhile_cons]
    cases hs : Selector.parse text with
    | ok s => rfl
    | error fault =>
      cases hl : c.entries.lookup text with
      | some shared => simp [hc.parse_of_lookup hl] at hs
      | none => simp [Cache.fetch, hl, hs, Except.isOk, Except.toBool, Cache.fetchAll]
  rw [run_parse_eq_fetch, hfetch, List.forall_mem_singleton, run_parse]
  refine ⟨rfl, ?_⟩
  cases hl : c.entries.lookup text with
  | some shared => exact iff_of_true rfl (isOk_iff.2 ⟨_, hc.parse_of_lookup hl⟩)
  | none => cases Selector.parse text <;> exact Iff.rfl

theorem tries_map {m : Session α} {texts : List String} (h : Tries m texts) (f : α → β) :
    Tries (do return f (← m)) texts := by
  simpa using h.bind fun a => tries_pure (f a)

theorem tries_parseOption : ∀ text : Option String, Tries (parseOption text) text.toList
  | none => tries_pure none
  | some text => tries_map (tries_parse text) _

theorem ofExcept_ok_bind (a : α) (f : α → Session β) : (ofExcept (.ok a) >>= f) = f a := rfl

theorem ofExcept_error_bind (fault : Fault) (f : α → Session β) :
    (ofExcept (.error fault) >>= f) = ofExcept (.error fault) := rfl

theorem moveRoot_eq (text : String) (tree : Json) : moveRoot text tree = do
    let parts ← ofExcept (Root.parts text)
    let tree ← ofExcept (parts.narrow tree)
    if parts.path.isEmpty then return tree
    else return Root.follow (← parse parts.path).selector tree := by
  unfold moveRoot
  congr 1
  funext parts
  unfold Root.Parts.narrow
  cases parts.bracket <;> rfl

/-- Moving a root reads its path, if the bracket in front of it is not at fault. -/
theorem tries_moveRoot {text : String} {tree : Json} {path : Option String}
    (h : Root.pathText text tree = .ok path) : Tries (moveRoot text tree) path.toList := by
  obtain ⟨parts, hparts, h⟩ := bind_eq_ok.1 h
  obtain ⟨narrowed, htree, h⟩ := bind_eq_ok.1 h
  obtain rfl := Except.ok.inj h
  rw [moveRoot_eq, hparts, ofExcept_ok_bind, htree, ofExcept_ok_bind]
  split
  · exact tries_pure narrowed
  · exact tries_map (tries_parse parts.path) _

theorem moveRoot_of_error {text : String} {tree : Json} {fault : Fault}
    (h : Root.pathText text tree = .error fault) :
    moveRoot text tree = ofExcept (.error fault) := by
  rw [moveRoot_eq]
  rcases bind_eq_error.1 h with hparts | ⟨parts, hparts, h⟩
  · rw [hparts, ofExcept_error_bind]
  · rw [hparts, ofExcept_ok_bind]
    rcases bind_eq_error.1 h with htree | ⟨narrowed, -, h⟩
    · rw [htree, ofExcept_error_bind]
    · simp [pure, Except.pure] at h

/-- A projection fetches what the request tries, up to the first text that writes nothing. -/
theorem run_project_eq_fetchAll (tree : Json) (request : Request) {c : Cache} (hc : c.Faithful) :
    ((project tree request).run c).2 = c.fetchAll (Selector.readable (request.tries tree)) := by
  have hothers : ∀ tree, Tries
      (do
        let selected ← parseOption request.selectedText
        let dropped ← parseOption request.droppedText
        return Projection.ofTree selected dropped tree)
      (request.selectedText.toList ++ request.droppedText.toList) := fun tree =>
    (tries_parseOption _).bind fun _ => tries_map (tries_parseOption _) _
  unfold project Request.tries
  cases tree.isContainer with
  | false => rfl
  | true =>
    simp only [Bool.not_true, Bool.false_eq_true, if_false]
    cases request.rootText with
    | none => exact (hothers tree c hc).1
    | some text =>
      dsimp only
      cases h : Root.pathText text tree with
      | ok path => exact (((tries_moveRoot h).bind hothers) c hc).1
      | error fault =>
        rw [moveRoot_of_error h, ofExcept_error_bind]
        rfl

def Command.isClear : Command → Bool
  | clear => true
  | _ => false

/-- The texts that a command has to read, in order. -/
def Command.tries : Command → List String
  | parse text => [text]
  | only part tree text => (Request.only part text).tries tree
  | project tree request => request.tries tree
  | contains _ | clear => []

/-- The texts that a command reads: each of them waits for the one before it. -/
def Command.reads (command : Command) : List String := Selector.readable command.tries

theorem Command.run_clear {command : Command} (h : command.isClear) (c : Cache) :
    (command.run.run c).2 = c.clear := by
  cases command with
  | clear => rfl
  | _ => exact absurd h nofun

theorem Command.run_eq_fetchAll {command : Command} (h : command.isClear = false) {c : Cache}
    (hc : c.Faithful) : (command.run.run c).2 = c.fetchAll command.reads := by
  cases command with
  | parse text => exact (tries_parse text c hc).1
  | only part tree text => exact run_project_eq_fetchAll tree (.only part text) hc
  | project tree request => exact run_project_eq_fetchAll tree request hc
  | contains text => rfl
  | clear => exact absurd h nofun

end Session

end JsonSelect
