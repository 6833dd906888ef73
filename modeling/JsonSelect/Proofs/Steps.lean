import JsonSelect.Selector.Reading

/-!
# A selector text read step by step

Whatever a run and its mark write is a list of mentions, tokens with their places and roles.
Reading a run first reads its mentions from the left, then moves what is open past the mark
(`Outline.entries_marked`); at the end of the text the last run is read, and what is still open is
looked at (`Outline.entries_last`). What a mark can leave open is said by `Opening.Passes`.
-/

namespace JsonSelect

@[simp] theorem ok_bind {ε α β : Type} (a : α) (f : α → Except ε β) :
    (Except.ok a >>= f) = f a := rfl

@[simp] theorem error_bind {ε α β : Type} (e : ε) (f : α → Except ε β) :
    (Except.error e >>= f) = .error e := rfl

theorem bind_eq_ok {ε α β : Type} {x : Except ε α} {f : α → Except ε β} {b : β} :
    (x >>= f) = .ok b ↔ ∃ a, x = .ok a ∧ f a = .ok b := by
  cases x <;> simp

theorem bind_eq_error {ε α β : Type} {x : Except ε α} {f : α → Except ε β} {e : ε} :
    (x >>= f) = .error e ↔ x = .error e ∨ ∃ a, x = .ok a ∧ f a = .error e := by
  cases x <;> simp

/-- A token of a text, not yet read as a pick, with its place and its role. -/
structure Mention (Place : Type) where
  place : Place
  role : Role
  token : String
  deriving DecidableEq, Repr

namespace Mention

def read (m : Mention (List String)) : Except Fault Entry := do
  return ⟨m.place, m.role, ← Pick.ofToken m.token⟩

def map {Place Place' : Type} (f : Place → Place') (m : Mention Place) : Mention Place' :=
  ⟨f m.place, m.role, m.token⟩

/-- The mentions with the last one as a descent. -/
def lead {Place : Type} (ms : List (Mention Place)) : List (Mention Place) :=
  ms.dropLast ++ (ms.getLast?.map fun m => { m with role := .descend }).toList

@[simp] theorem lead_append_singleton {Place : Type} (ms : List (Mention Place))
    (m : Mention Place) : lead (ms ++ [m]) = ms ++ [{ m with role := .descend }] := by
  simp [lead]

end Mention

def Entry.mention (e : Entry) : Mention (List String) := ⟨e.place, e.role, e.pick.token⟩

theorem Pick.token_of_ofToken {t : String} {p : Pick} (h : Pick.ofToken t = .ok p) :
    p.token = t := by
  obtain ⟨r, -, hp⟩ := bind_eq_ok.1 h
  rcases r with _ | ⟨name, subset⟩
  · obtain rfl := Except.ok.inj hp
    rfl
  · obtain rfl := Except.ok.inj hp
    rfl

/-- A token that writes no subset is the name itself. -/
theorem Pick.ofToken_eq_ok {t : String} {p : Pick} (h : Pick.ofToken t = .ok p) :
    Subset.ofToken? t = .ok (p.subset.map (p.name, ·)) ∧ (p.subset = none → p.name = t) := by
  obtain ⟨_ | ⟨name, subset⟩, hr, hp⟩ := bind_eq_ok.1 h
  · obtain rfl := Except.ok.inj hp
    exact ⟨hr, fun _ => rfl⟩
  · obtain rfl := Except.ok.inj hp
    exact ⟨hr, nofun⟩

theorem Subset.eq_invalidIndex {t : String} {f : Fault} (h : Subset.ofToken? t = .error f) :
    f = .invalidIndex t := by
  have hread : ∀ text f, readEndpoint t text = .error f → f = .invalidIndex t := by
    intro text f hf
    unfold readEndpoint at hf
    split at hf
    · simp at hf
    · split at hf
      · simp at hf
      · exact (Except.error.inj hf).symm
  unfold ofToken? at h
  split at h
  · simp at h
  · split at h
    · simp at h
    · rcases bind_eq_error.1 h with hs | ⟨start, -, h⟩
      · exact hread _ _ hs
      · rcases bind_eq_error.1 h with hs | ⟨stop, -, h⟩
        · exact hread _ _ hs
        · simp [pure, Except.pure] at h

theorem Pick.ofToken_eq_error {t : String} {f : Fault} (h : Pick.ofToken t = .error f) :
    Subset.ofToken? t = .error f := by
  rcases bind_eq_error.1 h with h | ⟨_ | _, -, h⟩
  · exact h
  · simp [pure, Except.pure] at h
  · simp [pure, Except.pure] at h

theorem Pick.exists_ofToken?_of_ofToken {t : String} {p : Pick} (h : Pick.ofToken t = .ok p) :
    ∃ r, Subset.ofToken? t = .ok r := by
  obtain ⟨r, hr, -⟩ := bind_eq_ok.1 h
  exact ⟨r, hr⟩

theorem Pick.exists_ofToken {t : String} (h : ∃ r, Subset.ofToken? t = .ok r) :
    ∃ p, Pick.ofToken t = .ok p := by
  obtain ⟨_ | ⟨name, subset⟩, hr⟩ := h
  · exact ⟨⟨t, t, none⟩, bind_eq_ok.2 ⟨_, hr, rfl⟩⟩
  · exact ⟨⟨t, name, some subset⟩, bind_eq_ok.2 ⟨_, hr, rfl⟩⟩

namespace Mention

theorem read_eq_ok {m : Mention (List String)} {e : Entry} :
    m.read = .ok e ↔ e.mention = m ∧ Pick.ofToken e.pick.token = .ok e.pick := by
  constructor
  · intro h
    obtain ⟨p, hp, he⟩ := bind_eq_ok.1 h
    obtain rfl := Except.ok.inj he
    have ht := Pick.token_of_ofToken hp
    refine ⟨?_, by rw [ht, hp]⟩
    unfold Entry.mention
    rw [ht]
  · rintro ⟨rfl, h⟩
    exact bind_eq_ok.2 ⟨e.pick, h, rfl⟩

/-- What some mentions read to are entries of these mentions. -/
theorem mapM_read_eq_ok : ∀ {ms : List (Mention (List String))} {es : List Entry},
    ms.mapM read = .ok es ↔
      es.map Entry.mention = ms ∧ ∀ e ∈ es, Pick.ofToken e.pick.token = .ok e.pick
  | [], es => by cases es <;> simp [pure, Except.pure]
  | m :: ms, es => by
    rw [List.mapM_cons, bind_eq_ok]
    constructor
    · intro ⟨e, he, h⟩
      obtain ⟨es', hes, h⟩ := bind_eq_ok.1 h
      obtain rfl := Except.ok.inj h
      obtain ⟨rfl, hp⟩ := read_eq_ok.1 he
      obtain ⟨rfl, hps⟩ := mapM_read_eq_ok.1 hes
      exact ⟨rfl, List.forall_mem_cons.2 ⟨hp, hps⟩⟩
    · intro ⟨h, hps⟩
      obtain ⟨e, es, rfl, rfl, rfl⟩ := List.map_eq_cons_iff.1 h
      obtain ⟨hp, hps⟩ := List.forall_mem_cons.1 hps
      exact ⟨e, read_eq_ok.2 ⟨rfl, hp⟩, bind_eq_ok.2 ⟨es, mapM_read_eq_ok.2 ⟨rfl, hps⟩, rfl⟩⟩

/-- Where some mentions fail to read, the first token that does not read is to blame. -/
theorem mapM_read_eq_error : ∀ {ms : List (Mention (List String))} {f : Fault},
    ms.mapM read = .error f → ∃ l t l', ms.map token = l ++ t :: l'
      ∧ (∀ u ∈ l, ∃ r, Subset.ofToken? u = .ok r) ∧ (∃ f, Subset.ofToken? t = .error f)
      ∧ f = .invalidIndex t
  | [], f, h => by simp [pure, Except.pure] at h
  | m :: ms, f, h => by
    rw [List.mapM_cons] at h
    rcases bind_eq_error.1 h with hm | ⟨e, he, h⟩
    · rcases bind_eq_error.1 hm with hp | ⟨p, -, h⟩
      · have hs := Pick.ofToken_eq_error hp
        exact ⟨[], m.token, ms.map token, rfl, by simp, ⟨f, hs⟩, Subset.eq_invalidIndex hs⟩
      · simp [pure, Except.pure] at h
    · rcases bind_eq_error.1 h with hms | ⟨es, -, h⟩
      · obtain ⟨l, t, l', hl, hok, hf, rfl⟩ := mapM_read_eq_error hms
        obtain ⟨p, hp, -⟩ := bind_eq_ok.1 he
        exact ⟨m.token :: l, t, l', by simp [hl],
          List.forall_mem_cons.2 ⟨Pick.exists_ofToken?_of_ofToken hp, hok⟩, hf, rfl⟩
      · simp [pure, Except.pure] at h

theorem exists_ofToken?_of_mapM_read {ms : List (Mention (List String))} {es : List Entry}
    (h : ms.mapM read = .ok es) : ∀ t ∈ ms.map token, ∃ r, Subset.ofToken? t = .ok r := by
  obtain ⟨rfl, hp⟩ := mapM_read_eq_ok.1 h
  intro t ht
  rw [List.map_map] at ht
  obtain ⟨e, he, rfl⟩ := List.mem_map.1 ht
  exact Pick.exists_ofToken?_of_ofToken (hp e he)

theorem exists_mapM_read {ms : List (Mention (List String))}
    (h : ∀ m ∈ ms, ∃ r, Subset.ofToken? m.token = .ok r) : ∃ es, ms.mapM read = .ok es := by
  induction ms with
  | nil => exact ⟨[], rfl⟩
  | cons m ms ih =>
    obtain ⟨hm, hms⟩ := List.forall_mem_cons.1 h
    obtain ⟨p, hp⟩ := Pick.exists_ofToken hm
    obtain ⟨es, hes⟩ := ih hms
    refine ⟨⟨m.place, m.role, p⟩ :: es, ?_⟩
    rw [List.mapM_cons]
    exact bind_eq_ok.2 ⟨_, bind_eq_ok.2 ⟨p, hp, rfl⟩, bind_eq_ok.2 ⟨es, hes, rfl⟩⟩

end Mention

namespace Opening

theorem situate_eq_nil {openings : List Opening} {run : List Char} :
    situate openings run = [] ↔ Outline.tokens run = [] := by
  unfold situate
  cases Outline.tokens run <;> simp

/-- A token of a run stands in all that is open, or outside the innermost chains. -/
theorem eq_of_mem_situate {openings around : List Opening} {run : List Char} {t : String}
    (h : (around, t) ∈ situate openings run) : around = openings ∨ around = endChains openings := by
  unfold situate at h
  cases hts : Outline.tokens run with
  | nil => simp [hts] at h
  | cons u us =>
    simp only [hts, List.mem_cons, Prod.mk.injEq, List.mem_map] at h
    rcases h with ⟨rfl, -⟩ | ⟨_, -, rfl, -⟩
    · split
      · exact .inr rfl
      · exact .inl rfl
    · exact .inr rfl

/-- The tokens of a run as fields. -/
def held (openings : List Opening) (run : List Char) : List (Mention (List String)) :=
  (situate openings run).map fun (around, token) => ⟨place around, .field, token⟩

/-- What a run that ends at a mark mentions. -/
def mentions (openings : List Opening) (run : List Char) : Mark → List (Mention (List String))
  | .closeGroup => held openings run
  | .openGroup | .dot => Mention.lead (held openings run)

theorem place_some (token : String) (kind : OpeningKind) (offset : Nat)
    (openings : List Opening) :
    place (⟨some token, kind, offset⟩ :: openings) = place openings ++ [token] := by
  simp [place]

theorem place_bare (kind : OpeningKind) (offset : Nat) (openings : List Opening) :
    place (⟨none, kind, offset⟩ :: openings) = place openings := by
  simp [place]

theorem role_of_mem_held {openings : List Opening} {run : List Char}
    {m : Mention (List String)} (h : m ∈ held openings run) : m.role = .field := by
  obtain ⟨t, -, rfl⟩ := List.mem_map.1 h
  rfl

theorem tokens_held (openings : List Opening) (run : List Char) :
    (held openings run).map Mention.token = Outline.tokens run := by
  unfold held situate
  cases Outline.tokens run with
  | nil => rfl
  | cons t ts => simp [Function.comp_def]

theorem tokens_mentions (openings : List Opening) (run : List Char) (m : Mark) :
    (mentions openings run m).map Mention.token = Outline.tokens run := by
  have hlead : ∀ ms : List (Mention (List String)),
      (Mention.lead ms).map Mention.token = ms.map Mention.token := by
    intro ms
    rcases List.eq_nil_or_concat ms with rfl | ⟨ms, m, rfl⟩
    · rfl
    · rw [List.concat_eq_append, Mention.lead_append_singleton, List.map_append, List.map_append]
      rfl
  rw [← tokens_held openings run]
  cases m with
  | closeGroup => rfl
  | openGroup => exact hlead _
  | dot => exact hlead _

/-- What is open behind a run and its mark. -/
def after (openings : List Opening) (run : List Char) (offset : Nat) :
    Mark → Except Fault (List Opening)
  | .closeGroup =>
    match endChains openings with
    | [] => .error (.malformed offset .unexpectedClose)
    | _ :: outer => .ok (endChains outer)
  | .openGroup =>
    match (situate openings run).getLast? with
    | none => .ok (⟨none, .group, offset⟩ :: openings)
    | some (around, token) => .ok (⟨some token, .group, offset⟩ :: around)
  | .dot =>
    match (situate openings run).getLast? with
    | none => .error (.malformed offset .missingName)
    | some (around, token) => .ok (⟨some token, .chain, offset⟩ :: around)

/-- What a mark can leave open: it closes the innermost group, opens a bare one, or opens a group or
a chain of the token in front of it. -/
inductive Passes (openings : List Opening) (run : List Char) (offset : Nat) :
    Mark → List Opening → Prop
  | close {o : Opening} {outer : List Opening} (h : endChains openings = o :: outer) :
      Passes openings run offset .closeGroup (endChains outer)
  | bare (h : situate openings run = []) :
      Passes openings run offset .openGroup (⟨none, .group, offset⟩ :: openings)
  | group {around : List Opening} {t : String}
      (h : (situate openings run).getLast? = some (around, t)) :
      Passes openings run offset .openGroup (⟨some t, .group, offset⟩ :: around)
  | chain {around : List Opening} {t : String}
      (h : (situate openings run).getLast? = some (around, t)) :
      Passes openings run offset .dot (⟨some t, .chain, offset⟩ :: around)

theorem after_eq_ok {openings inside : List Opening} {run : List Char} {offset : Nat} {m : Mark} :
    after openings run offset m = .ok inside ↔ Passes openings run offset m inside := by
  constructor
  · intro h
    cases m with
    | closeGroup =>
      simp only [after] at h
      cases he : endChains openings with
      | nil => simp [he] at h
      | cons o outer =>
        rw [he] at h
        obtain rfl := Except.ok.inj h
        exact .close he
    | openGroup =>
      simp only [after] at h
      cases hs : (situate openings run).getLast? with
      | none =>
        rw [hs] at h
        obtain rfl := Except.ok.inj h
        exact .bare (List.getLast?_eq_none_iff.1 hs)
      | some t =>
        rw [hs] at h
        obtain rfl := Except.ok.inj h
        exact .group hs
    | dot =>
      simp only [after] at h
      cases hs : (situate openings run).getLast? with
      | none => simp [hs] at h
      | some t =>
        rw [hs] at h
        obtain rfl := Except.ok.inj h
        exact .chain hs
  · intro h
    cases h with
    | close he => simp [after, he]
    | bare hs => simp [after, hs]
    | group hs => simp [after, hs]
    | chain hs => simp [after, hs]

/-- Whether a text may end behind its last run. -/
def finish (openings : List Opening) (run : List Char) : Except Fault Unit :=
  match (openings.filter fun o => !o.isChain).getLast? with
  | some outermost => .error (.malformed outermost.offset .unclosedGroup)
  | none =>
    match openings, situate openings run with
    | innermost :: _, [] => .error (.malformed innermost.offset .danglingDot)
    | _, _ => .ok ()

end Opening

namespace Outline

open Opening

theorem mapM_ofToken_field (ts : List (List Opening × String)) :
    ts.mapM (Entry.ofToken .field) =
      (ts.map fun (around, token) => (⟨place around, .field, token⟩ : Mention (List String))).mapM
        Mention.read := by
  rw [List.mapM_map]
  rfl

theorem entries_last (openings : List Opening) (run : List Char) :
    (last run).entries openings = do
      let fields ← (held openings run).mapM Mention.read
      finish openings run
      return fields := by
  unfold held
  rw [← mapM_ofToken_field]
  unfold entries finish
  dsimp only
  congr 1
  funext fields
  cases (openings.filter fun o => !o.isChain).getLast? with
  | some o => rfl
  | none => rcases openings with _ | ⟨o, os⟩ <;> cases situate _ run <;> rfl

/-- The mentions of a run, the last of them a descent. -/
theorem mapM_lead_held (openings : List Opening) (run : List Char) :
    (Mention.lead (held openings run)).mapM Mention.read = do
      let fields ← (situate openings run).dropLast.mapM (Entry.ofToken .field)
      let descent ← (situate openings run).getLast?.toList.mapM (Entry.ofToken .descend)
      return fields ++ descent := by
  rw [mapM_ofToken_field, Mention.lead, List.mapM_append, held, List.map_dropLast,
    List.getLast?_map]
  cases (situate openings run).getLast? <;> simp [Entry.ofToken, Mention.read]

theorem map_append_append (es es' : List Entry) (rest : Except Fault (List Entry)) :
    (es ++ es' ++ ·) <$> rest = (fun es'' => es ++ (es' ++ es'')) <$> rest := by
  simp

theorem entries_marked (openings : List Opening) (run : List Char) (m : Mark) (offset : Nat)
    (rest : Outline) :
    (marked run m offset rest).entries openings = do
      let es ← (mentions openings run m).mapM Mention.read
      let inside ← after openings run offset m
      return es ++ (← rest.entries inside) := by
  cases m with
  | closeGroup =>
    rw [entries, mapM_ofToken_field]
    simp only [mentions, after, held]
    cases endChains openings <;> rfl
  | openGroup =>
    rw [entries, mentions, mapM_lead_held, after]
    cases (situate openings run).getLast? with
    | none => simp
    | some t => simp [map_append_append]
  | dot =>
    rw [entries, mentions, mapM_lead_held, after]
    cases (situate openings run).getLast? with
    | none => simp [throw, throwThe, MonadExceptOf.throw]
    | some t => simp [map_append_append]

/-- A text ends well if its last run reads and nothing is left open. -/
theorem entries_last_eq_ok {openings : List Opening} {run : List Char} {es : List Entry} :
    (last run).entries openings = .ok es ↔
      (held openings run).mapM Mention.read = .ok es ∧ finish openings run = .ok () := by
  rw [entries_last, bind_eq_ok]
  constructor
  · intro ⟨fields, hread, h⟩
    obtain ⟨⟨⟩, hfinish, h⟩ := bind_eq_ok.1 h
    obtain rfl := Except.ok.inj h
    exact ⟨hread, hfinish⟩
  · intro ⟨hread, hfinish⟩
    exact ⟨es, hread, bind_eq_ok.2 ⟨(), hfinish, rfl⟩⟩

/-- A run and its mark are read, then the rest inside what they leave open. -/
theorem entries_marked_eq_ok {openings : List Opening} {run : List Char} {m : Mark} {offset : Nat}
    {rest : Outline} {es : List Entry} :
    (marked run m offset rest).entries openings = .ok es ↔ ∃ read inside others,
      (mentions openings run m).mapM Mention.read = .ok read
        ∧ after openings run offset m = .ok inside ∧ rest.entries inside = .ok others
        ∧ read ++ others = es := by
  rw [entries_marked, bind_eq_ok]
  constructor
  · intro ⟨read, hread, h⟩
    obtain ⟨inside, hafter, h⟩ := bind_eq_ok.1 h
    obtain ⟨others, hothers, h⟩ := bind_eq_ok.1 h
    exact ⟨read, inside, others, hread, hafter, hothers, Except.ok.inj h⟩
  · rintro ⟨read, inside, others, hread, hafter, hothers, rfl⟩
    exact ⟨read, hread, bind_eq_ok.2 ⟨inside, hafter, bind_eq_ok.2 ⟨others, hothers, rfl⟩⟩⟩

end Outline

end JsonSelect
