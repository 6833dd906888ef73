import JsonSelect.Proofs.Caching

/-!
# Runs of commands

An engine answers commands one after the other, all through one cache. The cache is faithful in
every state that it reaches (`Cache.Reachable.faithful`), so what a run answers about selectors and
trees is what each of its commands gives alone, on an engine just made (`Session.results_runAll`).
-/

namespace JsonSelect

namespace Session

inductive Command where
  | parse (text : String)
  | only (part : Request.Part) (tree : Json) (text : String)
  | project (tree : Json) (request : Request)
  | contains (text : String)
  | clear

inductive Answer where
  | selector (result : Except Fault Shared)
  | projection (result : Except Fault Projection)
  | contained (answer : Bool)
  | cleared

def Command.run : Command → StateM Cache Answer
  | parse text => return .selector (← (Session.parse text).run)
  | only part tree text => return .projection (← (Session.project tree (.only part text)).run)
  | project tree request => return .projection (← (Session.project tree request).run)
  | contains text => return .contained ((← get).contains text)
  | clear => do
    modify Cache.clear
    return .cleared

def runAll (commands : List Command) : StateM Cache (List Answer) := commands.mapM Command.run

/-- What an answer says about selectors and trees. -/
inductive Result where
  | selector (result : Except Fault Selector)
  | projection (result : Except Fault Projection)

/-- Which reading a selector came from, and what the cache contains, is left out. -/
def Answer.result? : Answer → Option Result
  | selector result => some (.selector (result.map Shared.selector))
  | projection result => some (.projection result)
  | contained _ | cleared => none

/-- What a command asks about selectors and trees, with every text read anew. -/
def Command.result? : Command → Option Result
  | parse text => some (.selector (Selector.parse text))
  | only part tree text => some (.projection (Projection.ofRequest tree (.only part text)))
  | project tree request => some (.projection (Projection.ofRequest tree request))
  | contains _ | clear => none

theorem Command.run_faithful (command : Command) {c : Cache} (hc : c.Faithful) :
    (command.run.run c).1.result? = command.result?
      ∧ (command.run.run c).2.Faithful ∧ (command.run.run c).2.keeps = c.keeps := by
  cases command with
  | parse text =>
    have h := gives_parse text c hc
    rw [run_map] at h
    obtain ⟨hresult, hc', hk⟩ := h
    exact ⟨congrArg (some ∘ Result.selector) hresult, hc', hk⟩
  | only part tree text =>
    obtain ⟨hresult, hc', hk⟩ := gives_project tree (.only part text) c hc
    exact ⟨congrArg (some ∘ Result.projection) hresult, hc', hk⟩
  | project tree request =>
    obtain ⟨hresult, hc', hk⟩ := gives_project tree request c hc
    exact ⟨congrArg (some ∘ Result.projection) hresult, hc', hk⟩
  | contains text => exact ⟨rfl, hc, rfl⟩
  | clear => exact ⟨rfl, Cache.faithful_of_entries_eq rfl, rfl⟩

theorem runAll_cons (command : Command) (commands : List Command) (c : Cache) :
    (runAll (command :: commands)).run c =
      ((command.run.run c).1 :: ((runAll commands).run (command.run.run c).2).1,
        ((runAll commands).run (command.run.run c).2).2) := by
  rw [runAll, List.mapM_cons]
  rfl

/-- Each command hands on a faithful cache to the next. -/
theorem runAll_faithful : ∀ (commands : List Command) {c : Cache}, c.Faithful →
    ((runAll commands).run c).1.map Answer.result? = commands.map Command.result?
      ∧ ((runAll commands).run c).2.Faithful ∧ ((runAll commands).run c).2.keeps = c.keeps
  | [], _, hc => ⟨rfl, hc, rfl⟩
  | command :: commands, c, hc => by
    obtain ⟨hresult, hc', hk⟩ := command.run_faithful hc
    obtain ⟨hresults, hc'', hk'⟩ := runAll_faithful commands hc'
    rw [runAll_cons]
    exact ⟨by rw [List.map_cons, hresult, hresults, List.map_cons], hc'', hk'.trans hk⟩

end Session

/-- A cache of an engine just made, one that keeps selectors or one that keeps none. -/
def Cache.New (c : Cache) : Prop := c = .empty ∨ c = .forgetful

/-- A cache after some commands; an engine can be made with one that was used before. -/
def Cache.Reachable (c : Cache) : Prop :=
  ∃ made commands, Cache.New made ∧ ((Session.runAll commands).run made).2 = c

theorem Cache.New.faithful {c : Cache} (h : c.New) : c.Faithful := by
  rcases h with rfl | rfl <;> exact faithful_of_entries_eq rfl

theorem Cache.Reachable.faithful {c : Cache} (h : c.Reachable) : c.Faithful := by
  obtain ⟨made, commands, hmade, rfl⟩ := h
  exact (Session.runAll_faithful commands hmade.faithful).2.1

theorem Cache.Faithful.not_contains {c : Cache} (h : c.Faithful) {text : String} {fault : Fault}
    (hf : Selector.parse text = .error fault) : c.contains text = false := by
  rw [contains, Option.isSome_eq_false_iff, Option.isNone_iff_eq_none]
  cases hl : c.entries.lookup text with
  | none => rfl
  | some shared => simp [h.parse_of_lookup hl] at hf

namespace Session

/-- Every answer of a run is that of an engine just made, and a text is answered by the selector
that it writes. In every state the cache keeps only what the texts write, no text that writes
nothing, and nothing at all if it is a forgetful one. -/
theorem results_runAll {made fresh : Cache} (hmade : made.Reachable) (hfresh : fresh.New)
    (commands : List Command) :
    ((runAll commands).run made).1.map Answer.result? =
        commands.map (fun command => (command.run.run fresh).1.result?)
      ∧ (∀ (i : Nat) (text : String) (answer : Answer), commands[i]? = some (.parse text) →
          ((runAll commands).run made).1[i]? = some answer →
          answer.result? = some (.selector (Selector.parse text)))
      ∧ (∀ e ∈ ((runAll commands).run made).2.entries, Selector.parse e.1 = .ok e.2.selector)
      ∧ (∀ text fault, Selector.parse text = .error fault →
          ((runAll commands).run made).2.contains text = false)
      ∧ (made.keeps = false → ((runAll commands).run made).2.entries = []) := by
  obtain ⟨hresults, hafter, hkeeps⟩ := runAll_faithful commands hmade.faithful
  refine ⟨?_, fun i text answer hi hanswer => ?_, hafter.parse_eq,
    fun text fault => hafter.not_contains, fun hk => hafter.entries_eq (hkeeps.trans hk)⟩
  · rw [hresults]
    exact List.map_congr_left fun command _ => (command.run_faithful hfresh.faithful).1.symm
  · have hget := congrArg (·[i]?) hresults
    simpa [hi, hanswer, Command.result?] using hget

theorem results_runAll_shared :
    ∃ (made : Cache) (commands : List Command), made.Reachable ∧ Cache.forgetful.New
      ∧ made.entries.map (·.1) = ["c"]
      ∧ commands = [.parse "a.b", .only .root (.obj [("a", .obj [("b", .null)])]) " a.b ",
        .parse "x\x7d", .project (.obj []) ⟨none, some "c", some "."⟩, .parse "c", .clear,
        .contains "c", .parse "a.b"]
      ∧ ((runAll commands).run made).1.map Answer.result? =
        commands.map (fun command => (command.run.run .forgetful).1.result?)
      ∧ ((runAll commands).run made).2.entries.map (·.1) = ["a.b"]
      ∧ ∀ e ∈ ((runAll commands).run made).2.entries, Selector.parse e.1 = .ok e.2.selector := by
  have hmade : ((runAll [.parse "c"]).run .empty).2.Reachable :=
    ⟨.empty, [.parse "c"], .inl rfl, rfl⟩
  obtain ⟨hresults, -, hentries, -, -⟩ := results_runAll hmade (.inr rfl) [.parse "a.b",
    .only .root (.obj [("a", .obj [("b", .null)])]) " a.b ", .parse "x\x7d",
    .project (.obj []) ⟨none, some "c", some "."⟩, .parse "c", .clear, .contains "c", .parse "a.b"]
  exact ⟨_, _, hmade, .inr rfl, by decide, rfl, hresults, by decide, hentries⟩

end Session

end JsonSelect
