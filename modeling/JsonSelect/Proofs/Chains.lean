import JsonSelect.Proofs.Counting
import JsonSelect.Proofs.Entries

/-!
# Chains of tokens

While a text is read, the tokens of what is open make up a chain from the root inward
(`Outline.Opens`). They are words, since each stands in front of a mark (`Outline.isPath_of_opens`);
so no two chains have one address, and what is picked at the address of a chain was written in
that very chain (`Selector.ofPath_inj_of_opens`).
-/

namespace JsonSelect

open Opening

namespace Outline

/-- What is open at the start of an outline and behind each of its marks, up to the first fault. -/
def openStacks (openings : List Opening) : Outline → List (List Opening)
  | last _ => [openings]
  | marked run mark offset rest =>
    openings :: match after openings run offset mark with
      | .ok inside => rest.openStacks inside
      | .error _ => []

/-- From the root inward, the tokens of what is open at a time as the text is read. A bare group has
no token. -/
def Opens (text : String) (chain : List String) : Prop :=
  ∃ openings ∈ (ofChars text.toList).openStacks [], chain <+: place openings

theorem mem_openStacks_self (openings : List Opening) (o : Outline) :
    openings ∈ o.openStacks openings := by
  cases o <;> exact .head _

theorem mem_openStacks_of_after {openings inside : List Opening} {run : List Char} {mark : Mark}
    {offset : Nat} (h : after openings run offset mark = .ok inside) (rest : Outline) :
    ∀ o ∈ rest.openStacks inside, o ∈ (marked run mark offset rest).openStacks openings := by
  intro o ho
  unfold openStacks
  rw [h]
  exact .tail _ ho

end Outline

namespace Address

theorem IsPath.of_isPrefix {path path' : List String} (h : IsPath path') (hp : path <+: path') :
    IsPath path := fun t ht => h t (hp.subset ht)

end Address

namespace Opening

open Outline

theorem isWord_of_getLast? {openings around : List Opening} {run : List Char} {t : String}
    (hr : Clean run) (h : (situate openings run).getLast? = some (around, t)) :
    IsWord t.toList := by
  refine isWord_of_mem_tokens hr ?_
  rw [← tokens_held openings run]
  have hm : (⟨place around, .field, t⟩ : Mention (List String)) ∈ held openings run :=
    List.mem_map.2 ⟨(around, t), List.mem_of_getLast? h, rfl⟩
  exact List.mem_map_of_mem (f := Mention.token) hm

/-- Behind a mark the tokens of what is open are words again. -/
theorem isPath_after {openings inside : List Opening} {run : List Char} {offset : Nat}
    {mark : Mark} (hr : Clean run) (h : after openings run offset mark = .ok inside)
    (hp : Address.IsPath (place openings)) : Address.IsPath (place inside) := by
  rcases place_after h with hprefix | ⟨around, t, hs, -, hprefix, hplace⟩
  · exact hp.of_isPrefix hprefix
  · rw [hplace]
    exact Address.isPath_append.2
      ⟨hp.of_isPrefix hprefix, Address.isPath_singleton.2 (isWord_of_getLast? hr hs)⟩

/-- A descent that a run mentions stands in front of the mark, which opens it. -/
theorem place_of_descend {openings inside : List Opening} {run : List Char} {offset : Nat}
    {mark : Mark} {m : Mention (List String)} (h : after openings run offset mark = .ok inside)
    (hm : m ∈ mentions openings run mark) (hrole : m.role = .descend) :
    place inside = m.place ++ [m.token] := by
  have hnot : ∀ {ms : List (Mention (List String))}, ms ⊆ held openings run → m ∉ ms :=
    fun hms hm => absurd (hrole.symm.trans (role_of_mem_held (hms hm))) nofun
  have hopen : ∀ {around : List Opening} {t : String} (kind : OpeningKind),
      (situate openings run).getLast? = some (around, t) → m ∈ Mention.lead (held openings run) →
        place (⟨some t, kind, offset⟩ :: around) = m.place ++ [m.token] := by
    intro around t kind hs hm
    rcases List.mem_append.1 hm with hm | hm
    · exact absurd hm (hnot (List.dropLast_subset _))
    · rw [held, List.getLast?_map, hs] at hm
      obtain rfl := List.mem_singleton.1 hm
      exact place_some t kind offset around
  cases after_eq_ok.1 h with
  | close _ => exact absurd hm (hnot (List.Subset.refl _))
  | bare hs =>
    have hnil : held openings run = [] := by
      unfold held
      rw [hs, List.map_nil]
    rw [mentions, hnil] at hm
    exact absurd hm List.not_mem_nil
  | group hs => exact hopen .group hs hm
  | chain hs => exact hopen .chain hs hm

end Opening

namespace Outline

theorem isPath_openStacks (cs : List Char) : ∀ {offset : Nat} {openings : List Opening},
    Address.IsPath (place openings) →
      ∀ o ∈ (scan 0 offset cs).openStacks openings, Address.IsPath (place o) := by
  induction cs using runs_induction with
  | last run hr =>
    intro offset openings hp o ho
    rw [scan_of_unmarked hr, openStacks, List.mem_singleton] at ho
    rwa [ho]
  | marked run c m rest hr hm ih =>
    intro offset openings hp o ho
    rw [scan_marked hr hm, openStacks, List.mem_cons] at ho
    rcases ho with rfl | ho
    · exact hp
    · split at ho
      · next inside hafter => exact ih (isPath_after hr hafter hp) o ho
      · exact absurd ho List.not_mem_nil

/-- The tokens of what is open close their brackets and hold no mark outside them. -/
theorem isPath_of_opens {text : String} {chain : List String} (h : Opens text chain) :
    Address.IsPath chain := by
  obtain ⟨openings, ho, hp⟩ := h
  have hnil : Address.IsPath (place []) := Address.isPath_nil
  exact (isPath_openStacks text.toList hnil openings ho).of_isPrefix hp

/-- An entry stands in what is open, and a descent opens its token there. -/
theorem exists_stack_of_mem_entries (cs : List Char) : ∀ {offset : Nat}
    {openings : List Opening} {es : List Entry}, (scan 0 offset cs).entries openings = .ok es →
      ∀ e ∈ es, (∃ o ∈ (scan 0 offset cs).openStacks openings, e.place <+: place o)
        ∧ (e.role = .descend →
          ∃ o ∈ (scan 0 offset cs).openStacks openings, place o = e.place ++ [e.pick.token]) := by
  induction cs using runs_induction with
  | last run hr =>
    intro offset openings es h e he
    rw [scan_of_unmarked hr, entries_last_eq_ok] at h
    obtain ⟨hms, -⟩ := Mention.mapM_read_eq_ok.1 h.1
    have hm : e.mention ∈ held openings run := hms ▸ List.mem_map_of_mem he
    obtain ⟨around, hsuffix, hplace⟩ := exists_of_mem_held hm
    have hprefix : e.mention.place <+: place openings := by
      rw [hplace]
      exact isPrefix_place hsuffix
    refine ⟨⟨openings, mem_openStacks_self _ _, hprefix⟩, fun hrole => ?_⟩
    exact absurd (hrole.symm.trans (role_of_mem_held hm)) nofun
  | marked run c m rest hr hm ih =>
    intro offset openings es h e he
    rw [scan_marked hr hm, entries_marked_eq_ok] at h
    rw [scan_marked hr hm]
    obtain ⟨read, inside, others, hread, hafter, hothers, rfl⟩ := h
    have hlater := mem_openStacks_of_after hafter (scan 0 (offset + size run + c.utf8Size) rest)
    rcases List.mem_append.1 he with he | he
    · obtain ⟨hms, -⟩ := Mention.mapM_read_eq_ok.1 hread
      have hmention : e.mention ∈ mentions openings run m := hms ▸ List.mem_map_of_mem he
      obtain ⟨around, hsuffix, hplace⟩ := exists_of_mem_mentions hmention
      have hprefix : e.mention.place <+: place openings := by
        rw [hplace]
        exact isPrefix_place hsuffix
      exact ⟨⟨openings, mem_openStacks_self _ _, hprefix⟩, fun hrole =>
        ⟨inside, hlater _ (mem_openStacks_self _ _), place_of_descend hafter hmention hrole⟩⟩
    · obtain ⟨⟨o, ho, hp⟩, hdescend⟩ := ih hothers e he
      refine ⟨⟨o, hlater o ho, hp⟩, fun hrole => ?_⟩
      obtain ⟨o, ho, hp⟩ := hdescend hrole
      exact ⟨o, hlater o ho, hp⟩

theorem opens_of_mem_entries {text : String} {es : List Entry}
    (h : entries [] (ofChars text.toList) = .ok es) {e : Entry} (he : e ∈ es) :
    Opens text e.place ∧ (e.role = .descend → Opens text (e.place ++ [e.pick.token])) := by
  obtain ⟨hplace, hdescend⟩ := exists_stack_of_mem_entries text.toList h e he
  refine ⟨hplace, fun hrole => ?_⟩
  obtain ⟨o, ho, hp⟩ := hdescend hrole
  exact ⟨o, ho, hp ▸ List.prefix_rfl⟩

end Outline

namespace Selector

open Outline

theorem picks_ne_nil {s : Selector} (h : s ≠ nil) : s.picks ≠ [] := by
  cases s with
  | nil => exact absurd rfl h
  | _ => exact List.cons_ne_nil _ _

/-- No two chains that are open while a text is read have one address. Every occupied place is such
a chain, and has an address of its own. A descent that is picked at an address opened its
token in a chain of this address, and what it shares are the places that begin with this longer
chain. Every entry of the text stands in an open chain, and what is picked at the address of a chain
are the entries that the text writes there. -/
theorem ofPath_inj_of_opens {text : String} {s : Selector} (h : parse text = .ok s) :
    (∀ chain chain', Opens text chain → Opens text chain' →
        Address.ofPath chain = Address.ofPath chain' → chain = chain')
      ∧ (∀ e ∈ s.places, Opens text e.1) ∧ s.addresses.Nodup
      ∧ (∀ address pick, (.descend, pick) ∈ (s.atAddress address).picks →
        ∃ chain, Address.ofPath chain = address ∧ Opens text chain
          ∧ Opens text (chain ++ [pick.token])
          ∧ Address.ofPath (chain ++ [pick.token]) = Address.child address pick.token
          ∧ s.sharedCount (Address.child address pick.token) =
            s.places.countP fun e => (chain ++ [pick.token]).isPrefixOf e.1)
      ∧ ∃ es, entries [] (ofChars text.toList) = .ok es
        ∧ (∀ e ∈ es, Opens text e.place)
        ∧ ∀ chain, Opens text chain → ∀ x, x ∈ (s.atAddress (Address.ofPath chain)).picks ↔
          ∃ e ∈ es, e.place = chain ∧ (e.role, e.pick) = x := by
  have hs := sound_of_parse h
  obtain ⟨es, he, hpicks, -⟩ := exists_entries_of_parse h
  refine ⟨fun chain chain' hc hc' => Address.ofPath_injective (isPath_of_opens hc)
    (isPath_of_opens hc'), fun e hm => ?_, hs.nodup_addresses, fun address pick hp => ?_,
    es, he, fun e hm => (opens_of_mem_entries he hm).1, fun chain hc x => ?_⟩
  · obtain ⟨hf, hne⟩ := hs.mem_places.1 hm
    obtain ⟨x, hx⟩ := List.exists_mem_of_ne_nil _ (picks_ne_nil hne)
    rw [← hf] at hx
    obtain ⟨e', he', hplace, -⟩ := (hpicks e.1 x).1 hx
    rw [hplace]
    exact (opens_of_mem_entries he he').1
  · obtain ⟨inner, hd⟩ := mem_picks_iff_mem_descents.1 hp
    obtain ⟨path, haddr, hd, hpath, hchild, -⟩ := hs.exists_path_of_mem_descents hd
    obtain ⟨e, hm, rfl, heq⟩ := (hpicks path _).1 (mem_picks_iff_mem_descents.2 ⟨inner, hd⟩)
    obtain ⟨hrole, rfl⟩ := Prod.mk.inj heq
    obtain ⟨hopens, hdescend⟩ := opens_of_mem_entries he hm
    refine ⟨e.place, haddr, hopens, hdescend hrole, hchild, ?_⟩
    rw [← hchild, hs.sharedCount_ofPath hpath (by simp)]
  · rw [hs.atAddress_ofPath (isPath_of_opens hc), hpicks chain x]
    simp only [eq_comm]

theorem ofPath_inj_of_opens_brackets :
    ∃ s, parse "o[1.5]]\x7bx.y\x7d o.p\x7bq\x7d" = .ok s ∧ s.sharedCount "o[1.5]]" = 2
      ∧ s.sharedCount "o" = 2
      ∧ Opens "o[1.5]]\x7bx.y\x7d o.p\x7bq\x7d" ["o[1.5]]", "x"]
      ∧ ∀ chain, Opens "o[1.5]]\x7bx.y\x7d o.p\x7bq\x7d" chain →
        Address.ofPath chain = "o[1.5]].x" → chain = ["o[1.5]]", "x"] := by
  have hparse : parse "o[1.5]]\x7bx.y\x7d o.p\x7bq\x7d" = .ok
      (.descend ⟨"o[1.5]]", "o[1.5]]", none⟩ (.descend ⟨"x", "x", none⟩
          (.field ⟨"y", "y", none⟩ .nil) .nil)
        (.descend ⟨"o", "o", none⟩ (.descend ⟨"p", "p", none⟩ (.field ⟨"q", "q", none⟩ .nil) .nil)
          .nil)) := by
    decide
  have hopens : Opens "o[1.5]]\x7bx.y\x7d o.p\x7bq\x7d" ["o[1.5]]", "x"] :=
    ⟨[⟨some "x", .chain, 9⟩, ⟨some "o[1.5]]", .group, 7⟩], by decide, by decide⟩
  obtain ⟨hinj, -⟩ := ofPath_inj_of_opens hparse
  exact ⟨_, hparse, by decide, by decide, hopens, fun chain hc haddr => hinj _ _ hc hopens haddr⟩

end Selector

end JsonSelect
