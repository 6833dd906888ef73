import JsonSelect.Proofs.Places
import Mathlib.Data.List.Nodup

/-!
# The picks of gathered entries

An entry is added at the place that the descents before it lead to, and there only
(`Selector.picks_follow_addEntry`). The entries of a text come in such an order
(`Outline.inOrder_entries`), so none of them is lost: what is gathered at a place are the entries of
this place in their order (`Selector.picks_follow_foldl`), and arranging keeps them, each once
(`Selector.exists_entries_of_parse`).
-/

namespace JsonSelect

open Outline

namespace Selector

theorem picks_addField (pick : Pick) : ∀ s : Selector, (s.addField pick).picks =
    if (.field, pick) ∈ s.picks then s.picks else s.picks ++ [(.field, pick)]
  | nil => rfl
  | field p rest => by
    unfold addField
    by_cases hp : p = pick
    · simp [hp, picks]
    · have hne : (Role.field, pick) ≠ (.field, p) := by simp [Ne.symm hp]
      rw [if_neg hp, picks, picks_addField pick rest, picks]
      by_cases hm : (.field, pick) ∈ rest.picks <;> simp [hm, hne]
  | descend p inner rest => by
    rw [addField, picks, picks_addField pick rest, picks]
    by_cases hm : (.field, pick) ∈ rest.picks <;> simp [hm]

theorem picks_addDescent (pick : Pick) : ∀ s : Selector, (s.addDescent pick).picks =
    if (.descend, pick) ∈ s.picks then s.picks else s.picks ++ [(.descend, pick)]
  | nil => rfl
  | field p rest => by
    rw [addDescent, picks, picks_addDescent pick rest, picks]
    by_cases hm : (.descend, pick) ∈ rest.picks <;> simp [hm]
  | descend p inner rest => by
    unfold addDescent
    by_cases hp : p = pick
    · simp [hp, picks]
    · have hne : (Role.descend, pick) ≠ (.descend, p) := by simp [Ne.symm hp]
      rw [if_neg hp, picks, picks_addDescent pick rest, picks]
      by_cases hm : (.descend, pick) ∈ rest.picks <;> simp [hm, hne]

/-- A pick that stands already at its place is not repeated. -/
theorem picks_addPick (role : Role) (pick : Pick) (s : Selector) : (addPick role pick s).picks =
    if (role, pick) ∈ s.picks then s.picks else s.picks ++ [(role, pick)] := by
  cases role with
  | field => exact picks_addField pick s
  | descend => exact picks_addDescent pick s

theorem inside_addField (pick : Pick) (token : String) :
    ∀ s : Selector, (s.addField pick).inside token = s.inside token
  | nil => rfl
  | field p rest => by
    unfold addField
    split
    · rfl
    · exact inside_addField pick token rest
  | descend p inner rest => by
    rw [addField, inside, inside_addField pick token rest, inside]

theorem inside_addDescent (pick : Pick) (token : String) :
    ∀ s : Selector, (s.addDescent pick).inside token = s.inside token
  | nil => by simp [addDescent, inside]
  | field p rest => inside_addDescent pick token rest
  | descend p inner rest => by
    unfold addDescent
    split
    · rfl
    · rw [inside, inside_addDescent pick token rest, inside]

theorem inside_addPick (role : Role) (pick : Pick) (token : String) (s : Selector) :
    (addPick role pick s).inside token = s.inside token := by
  cases role with
  | field => exact inside_addField pick token s
  | descend => exact inside_addDescent pick token s

theorem picks_modifyInner (token : String) (f : Selector → Selector) :
    ∀ s : Selector, (s.modifyInner token f).picks = s.picks
  | nil => rfl
  | field p rest => by rw [modifyInner, picks, picks_modifyInner token f rest, picks]
  | descend p inner rest => by
    unfold modifyInner
    split
    · rfl
    · rw [picks, picks_modifyInner token f rest, picks]

theorem inside_modifyInner {token : String} (f : Selector → Selector) (t : String) :
    ∀ {s : Selector}, (∃ pick, (.descend, pick) ∈ s.picks ∧ pick.token = token) →
      (s.modifyInner token f).inside t = if t = token then f (s.inside token) else s.inside t
  | nil, h => by simp [picks] at h
  | field p rest, h => by
    have hrest : ∃ pick, (.descend, pick) ∈ rest.picks ∧ pick.token = token := by
      simpa [picks] using h
    exact inside_modifyInner (s := rest) f t hrest
  | descend p inner rest, h => by
    unfold modifyInner
    by_cases hp : p.token = token
    · rw [if_pos hp, inside, inside, inside, hp]
      by_cases ht : t = token
      · simp [ht]
      · simp [ht, Ne.symm ht]
    · have hrest : ∃ pick, (.descend, pick) ∈ rest.picks ∧ pick.token = token := by
        obtain ⟨pick, hm, rfl⟩ := h
        refine ⟨pick, (List.mem_cons.1 hm).resolve_left ?_, rfl⟩
        rintro ⟨⟩
        exact hp rfl
      rw [if_neg hp, inside, inside_modifyInner f t hrest, inside, inside, if_neg hp]
      by_cases ht : t = token
      · subst ht
        simp [hp]
      · simp [ht]

/-- Descents lead to the place. -/
def LeadsTo (s : Selector) (place : List String) : Prop :=
  ∀ path token, path ++ [token] <+: place →
    ∃ pick, (.descend, pick) ∈ (follow path s).picks ∧ pick.token = token

theorem LeadsTo.of_cons {s : Selector} {token : String} {place : List String}
    (h : s.LeadsTo (token :: place)) : (s.inside token).LeadsTo place :=
  fun path t hp => h (token :: path) t (List.cons_prefix_cons.2 ⟨rfl, hp⟩)

theorem picks_follow_modifyAt (role : Role) (pick : Pick) : ∀ {place : List String} {s : Selector},
    s.LeadsTo place → ∀ path, (follow path (s.modifyAt place (addPick role pick))).picks =
      if path = place then (addPick role pick (follow path s)).picks else (follow path s).picks
  | [], s, _, [] => rfl
  | [], s, _, token :: path => by
    rw [modifyAt, follow, inside_addPick, follow, if_neg (List.cons_ne_nil _ _)]
  | token :: place, s, _, [] => by
    rw [modifyAt, follow, picks_modifyInner, follow, if_neg (List.cons_ne_nil _ _).symm]
  | token :: place, s, h, t :: path => by
    have hhere : ∃ pick, (.descend, pick) ∈ s.picks ∧ pick.token = token :=
      h [] token (List.cons_prefix_cons.2 ⟨rfl, List.nil_prefix⟩)
    rw [modifyAt, follow, inside_modifyInner _ t hhere, follow]
    by_cases ht : t = token
    · subst ht
      rw [if_pos rfl, picks_follow_modifyAt role pick h.of_cons path]
      simp
    · simp [ht]

theorem picks_follow_addEntry {s : Selector} {e : Entry} (h : s.LeadsTo e.place)
    (path : List String) : (follow path (s.addEntry e)).picks =
      if path = e.place then (addPick e.role e.pick (follow path s)).picks
      else (follow path s).picks :=
  picks_follow_modifyAt e.role e.pick h path

end Selector

namespace Mention

/-- The descents to a place are among the mentions. -/
def LeadTo (ms : List (Mention (List String))) (place : List String) : Prop :=
  ∀ path token, path ++ [token] <+: place → ⟨path, .descend, token⟩ ∈ ms

/-- The descents to the place of each mention come before it. -/
inductive InOrder : List (Mention (List String)) → Prop
  | nil : InOrder []
  | concat {ms : List (Mention (List String))} {m : Mention (List String)} (h : InOrder ms)
      (hm : LeadTo ms m.place) : InOrder (ms ++ [m])

theorem leadTo_nil (ms : List (Mention (List String))) : LeadTo ms [] :=
  fun path token hp => absurd (List.prefix_nil.1 hp) (by simp)

theorem LeadTo.append {ms : List (Mention (List String))} {place : List String}
    (h : LeadTo ms place) (ms' : List (Mention (List String))) : LeadTo (ms ++ ms') place :=
  fun path token hp => List.mem_append_left ms' (h path token hp)

theorem LeadTo.mono {ms : List (Mention (List String))} {place place' : List String}
    (h : LeadTo ms place) (hp : place' <+: place) : LeadTo ms place' :=
  fun path token hp' => h path token (hp'.trans hp)

theorem LeadTo.concat {ms : List (Mention (List String))} {place : List String} {token : String}
    (h : LeadTo ms place) (hm : ⟨place, .descend, token⟩ ∈ ms) : LeadTo ms (place ++ [token]) := by
  intro path t hp
  rcases List.prefix_concat_iff.1 hp with heq | hp
  · obtain ⟨rfl, ht⟩ := List.append_inj' heq rfl
    obtain rfl := List.singleton_inj.1 ht
    exact hm
  · exact h path t hp

theorem InOrder.append {ms : List (Mention (List String))} (h : InOrder ms) :
    ∀ {ms' : List (Mention (List String))}, (∀ m ∈ ms', LeadTo ms m.place) →
      InOrder (ms ++ ms') := by
  intro ms'
  induction ms' using List.reverseRecOn with
  | nil => simpa using h
  | append_singleton ms' m ih =>
    intro hms
    obtain ⟨hms, hm⟩ := List.forall_mem_append.1 hms
    rw [← List.append_assoc]
    exact (ih hms).concat ((hm m (by simp)).append ms')

theorem InOrder.of_concat {ms : List (Mention (List String))} {m : Mention (List String)}
    (h : InOrder (ms ++ [m])) : InOrder ms ∧ LeadTo ms m.place := by
  generalize heq : ms ++ [m] = all at h
  cases h with
  | nil => simp at heq
  | concat h hm =>
    obtain ⟨rfl, hm'⟩ := List.append_inj' heq rfl
    obtain rfl := List.singleton_inj.1 hm'
    exact ⟨h, hm⟩

end Mention

namespace Selector

theorem leadsTo_of_leadTo {s : Selector} {es : List Entry} {place : List String}
    (hs : ∀ e ∈ es, (e.role, e.pick) ∈ (follow e.place s).picks)
    (h : Mention.LeadTo (es.map Entry.mention) place) : s.LeadsTo place := by
  intro path token hp
  obtain ⟨e, he, hm⟩ := List.mem_map.1 (h path token hp)
  obtain ⟨rfl, hrole, rfl⟩ := Mention.mk.inj hm
  exact ⟨e.pick, hrole ▸ hs e he, rfl⟩

theorem eraseDups_concat {α : Type} [BEq α] [LawfulBEq α] (as : List α) (a : α) :
    (as ++ [a]).eraseDups = if a ∈ as then as.eraseDups else as.eraseDups ++ [a] := by
  rw [List.eraseDups_append]
  split
  · next h => simp [List.removeAll, h]
  · next h => simp [List.removeAll, h, List.eraseDups_cons]

theorem nodup_eraseDups {α : Type} [BEq α] [LawfulBEq α] (as : List α) : as.eraseDups.Nodup := by
  induction as using List.reverseRecOn with
  | nil => exact .nil
  | append_singleton as a ih =>
    rw [eraseDups_concat]
    split
    · exact ih
    · next h =>
      rw [← List.concat_eq_append]
      exact ih.concat (mt List.mem_eraseDups.1 h)

/-- The picks at a place are the entries of this place in their order, by induction from the last
entry. -/
theorem picks_follow_foldl {es : List Entry} (h : Mention.InOrder (es.map Entry.mention)) :
    ∀ path : List String, (follow path (es.foldl addEntry nil)).picks =
      ((es.filter (·.place = path)).map fun e => (e.role, e.pick)).eraseDups := by
  induction es using List.reverseRecOn with
  | nil => simp [follow_nil, picks]
  | append_singleton es e ih =>
    intro path
    rw [List.map_append, List.map_singleton] at h
    obtain ⟨h, hlead⟩ := h.of_concat
    have hmem : ∀ d ∈ es, (d.role, d.pick) ∈ (follow d.place (es.foldl addEntry nil)).picks := by
      intro d hd
      rw [ih h, List.mem_eraseDups]
      exact List.mem_map.2 ⟨d, List.mem_filter.2 ⟨hd, decide_eq_true rfl⟩, rfl⟩
    rw [List.foldl_append, List.foldl_cons, List.foldl_nil,
      picks_follow_addEntry (leadsTo_of_leadTo hmem hlead), List.filter_append, List.map_append]
    by_cases hp : path = e.place
    · have hone : [e].filter (·.place = path) = [e] := by simp [hp]
      rw [hone, List.map_singleton, eraseDups_concat, if_pos hp, picks_addPick, ih h]
      simp only [List.mem_eraseDups]
    · have hnone : [e].filter (·.place = path) = [] := by simp [Ne.symm hp]
      rw [hnone, List.map_nil, List.append_nil, if_neg hp, ih h]

theorem picks_insertDescent_perm (pick : Pick) (inner : Selector) : ∀ s : Selector,
    (insertDescent pick inner s).picks.Perm ((.descend, pick) :: s.picks)
  | nil => .refl _
  | field p rest => ((picks_insertDescent_perm pick inner rest).cons _).trans (.swap _ _ _)
  | descend p i rest => by
    unfold insertDescent
    split
    · exact .refl _
    · exact ((picks_insertDescent_perm pick inner rest).cons _).trans (.swap _ _ _)

theorem picks_arrange_perm : ∀ s : Selector, s.arrange.picks.Perm s.picks
  | nil => .refl _
  | field _ rest => (picks_arrange_perm rest).cons _
  | descend pick inner rest =>
    (picks_insertDescent_perm pick inner.arrange rest.arrange).trans
      ((picks_arrange_perm rest).cons _)

theorem inside_insertDescent {pick : Pick} (inner : Selector) (token : String) :
    ∀ {s : Selector}, (∀ d ∈ s.descents, d.1.token ≠ pick.token) →
      (insertDescent pick inner s).inside token =
        if pick.token = token then inner else s.inside token
  | nil, _ => rfl
  | field _ rest, h => inside_insertDescent (s := rest) inner token h
  | descend p i rest, h => by
    obtain ⟨hne, hrest⟩ := List.forall_mem_cons.1 h
    unfold insertDescent
    split
    · rfl
    · rw [inside, inside_insertDescent inner token hrest, inside]
      by_cases hp : p.token = token
      · rw [if_pos hp, if_pos hp, if_neg fun heq => hne (hp.trans heq.symm)]
      · rw [if_neg hp, if_neg hp]

theorem Sound.inside_arrange (token : String) : ∀ {s : Selector}, s.Sound →
    s.arrange.inside token = (s.inside token).arrange
  | nil, _ => rfl
  | field _ _, h => h.2.inside_arrange token
  | descend p inner rest, h => by
    have hne : ∀ d ∈ rest.arrange.descents, d.1.token ≠ p.token := by
      intro d hd
      obtain ⟨inner', hm, -⟩ := mem_descents_arrange.1 hd
      exact h.2.2.1 (d.1, inner') hm
    rw [Selector.arrange, inside_insertDescent _ _ hne, h.2.2.2.2.inside_arrange token, inside]
    split <;> rfl

theorem Sound.follow_arrange : ∀ (path : List String) {s : Selector}, s.Sound →
    Selector.follow path s.arrange = (Selector.follow path s).arrange
  | [], _, _ => rfl
  | token :: path, s, h => by
    have hinside : (s.inside token).Sound := h.follow [token]
    rw [Selector.follow, h.inside_arrange, hinside.follow_arrange path, Selector.follow]

end Selector

namespace Opening

theorem isPrefix_place {openings inner : List Opening} (h : openings <:+ inner) :
    place openings <+: place inner := by
  obtain ⟨more, rfl⟩ := h
  unfold place
  rw [List.filterMap_append, List.reverse_append]
  exact List.prefix_append _ _

theorem endChains_suffix (openings : List Opening) : endChains openings <:+ openings :=
  List.dropWhile_suffix _

theorem suffix_of_mem_situate {openings around : List Opening} {run : List Char} {t : String}
    (h : (around, t) ∈ situate openings run) : around <:+ openings := by
  rcases eq_of_mem_situate h with rfl | rfl
  · exact List.suffix_rfl
  · exact endChains_suffix openings

theorem exists_of_mem_held {openings : List Opening} {run : List Char}
    {m : Mention (List String)} (h : m ∈ held openings run) :
    ∃ around, around <:+ openings ∧ m.place = place around := by
  obtain ⟨⟨around, t⟩, hs, rfl⟩ := List.mem_map.1 h
  exact ⟨around, suffix_of_mem_situate hs, rfl⟩

theorem exists_of_mem_mentions {openings : List Opening} {run : List Char} {mark : Mark}
    {m : Mention (List String)} (h : m ∈ mentions openings run mark) :
    ∃ around, around <:+ openings ∧ m.place = place around := by
  have hlead : ∀ m ∈ Mention.lead (held openings run),
      ∃ around, around <:+ openings ∧ m.place = place around := by
    intro m hm
    rcases List.mem_append.1 hm with hm | hm
    · exact exists_of_mem_held (List.dropLast_subset _ hm)
    · obtain ⟨m', hm', rfl⟩ := Option.map_eq_some_iff.1 (Option.mem_toList.1 hm)
      have hplace := exists_of_mem_held (List.mem_of_getLast? hm')
      exact hplace
  cases mark with
  | closeGroup => exact exists_of_mem_held h
  | openGroup => exact hlead m h
  | dot => exact hlead m h

theorem mem_lead_held {openings around : List Opening} {run : List Char} {t : String}
    (h : (situate openings run).getLast? = some (around, t)) :
    ⟨place around, .descend, t⟩ ∈ Mention.lead (held openings run) := by
  have hlast : (held openings run).getLast? = some ⟨place around, .field, t⟩ := by
    rw [held, List.getLast?_map, h]
    rfl
  refine List.mem_append_right _ ?_
  rw [hlast]
  exact .head _

/-- A mark closes some of what is open or opens the token in front of it, which may stand outside
the innermost chains. -/
theorem place_after {openings inside : List Opening} {run : List Char} {offset : Nat} {mark : Mark}
    (h : after openings run offset mark = .ok inside) :
    place inside <+: place openings ∨ ∃ around t, (situate openings run).getLast? = some (around, t)
      ∧ mentions openings run mark = Mention.lead (held openings run)
      ∧ place around <+: place openings ∧ place inside = place around ++ [t] := by
  have hopen : ∀ {around : List Opening} {t : String},
      (situate openings run).getLast? = some (around, t) → place around <+: place openings :=
    fun hs => isPrefix_place (suffix_of_mem_situate (List.mem_of_getLast? hs))
  cases after_eq_ok.1 h with
  | @close o outer he =>
    have hsuffix : outer <:+ openings :=
      List.IsSuffix.trans (he ▸ List.suffix_cons o outer) (endChains_suffix openings)
    exact .inl (isPrefix_place ((endChains_suffix outer).trans hsuffix))
  | bare _ => exact .inl (place_bare .group offset openings ▸ List.prefix_rfl)
  | group hs => exact .inr ⟨_, _, hs, rfl, hopen hs, place_some _ _ _ _⟩
  | chain hs => exact .inr ⟨_, _, hs, rfl, hopen hs, place_some _ _ _ _⟩

/-- What a mark opens is led to by the descent in front of the mark. -/
theorem leadTo_after {openings inside : List Opening} {run : List Char} {offset : Nat}
    {mark : Mark} {done : List (Mention (List String))}
    (h : after openings run offset mark = .ok inside) (hd : Mention.LeadTo done (place openings)) :
    Mention.LeadTo (done ++ mentions openings run mark) (place inside) := by
  rcases place_after h with hp | ⟨around, t, hs, hlead, hp, hplace⟩
  · exact (hd.mono hp).append _
  · rw [hplace, hlead]
    exact ((hd.mono hp).append _).concat (List.mem_append_right _ (mem_lead_held hs))

end Opening

namespace Outline

open Opening

/-- The entries of a text come in order behind mentions that lead to what is open. -/
theorem inOrder_entries (cs : List Char) : ∀ {offset : Nat} {openings : List Opening}
    {es : List Entry} {done : List (Mention (List String))},
    (scan 0 offset cs).entries openings = .ok es → Mention.InOrder done →
      Mention.LeadTo done (place openings) → Mention.InOrder (done ++ es.map Entry.mention) := by
  induction cs using runs_induction with
  | last run hr =>
    intro offset openings es done h hdone hlead
    rw [scan_of_unmarked hr, entries_last_eq_ok] at h
    obtain ⟨hms, -⟩ := Mention.mapM_read_eq_ok.1 h.1
    rw [hms]
    refine hdone.append fun m hm => ?_
    obtain ⟨around, hsuffix, hplace⟩ := exists_of_mem_held hm
    rw [hplace]
    exact hlead.mono (isPrefix_place hsuffix)
  | marked run c m rest hr hm ih =>
    intro offset openings es done h hdone hlead
    rw [scan_marked hr hm, entries_marked_eq_ok] at h
    obtain ⟨read, inside, others, hread, hafter, hothers, rfl⟩ := h
    obtain ⟨hms, -⟩ := Mention.mapM_read_eq_ok.1 hread
    rw [List.map_append, hms, ← List.append_assoc]
    refine ih hothers (hdone.append fun m' hm' => ?_) (leadTo_after hafter hlead)
    obtain ⟨around, hsuffix, hplace⟩ := exists_of_mem_mentions hm'
    rw [hplace]
    exact hlead.mono (isPrefix_place hsuffix)

end Outline

namespace Selector

/-- What stands at the places of a selector that a text writes are the entries of the text. -/
theorem exists_entries_of_parse {text : String} {s : Selector} (h : parse text = .ok s) :
    ∃ es, Outline.entries [] (ofChars text.toList) = .ok es
      ∧ (∀ path x, x ∈ (follow path s).picks ↔ ∃ e ∈ es, path = e.place ∧ (e.role, e.pick) = x)
      ∧ ∀ path, (follow path s).picks.Nodup := by
  obtain ⟨es, he, rfl⟩ := exists_of_parse h
  have horder : Mention.InOrder ([] ++ es.map Entry.mention) :=
    inOrder_entries _ he .nil (Mention.leadTo_nil [])
  have hperm : ∀ path, (follow path (ofEntries es)).picks.Perm
      (follow path (es.foldl addEntry nil)).picks := by
    intro path
    rw [ofEntries, (sound_foldl he).follow_arrange path]
    exact picks_arrange_perm _
  refine ⟨es, he, fun path x => ?_, fun path => ?_⟩
  · rw [(hperm path).mem_iff, picks_follow_foldl horder, List.mem_eraseDups, List.mem_map]
    simp only [List.mem_filter, decide_eq_true_eq, and_assoc]
    exact exists_congr fun e => and_congr_right fun _ => and_congr_left' eq_comm
  · rw [(hperm path).nodup_iff, picks_follow_foldl horder]
    exact nodup_eraseDups _

/-- What is picked at an address are the entries that the text writes there. -/
theorem mem_picks_atAddress_of_parse {text : String} {s : Selector} (h : parse text = .ok s) :
    ∃ es, Outline.entries [] (ofChars text.toList) = .ok es
      ∧ ∀ address x, x ∈ (s.atAddress address).picks ↔
        ∃ e ∈ es, Address.ofPath e.place = address ∧ (e.role, e.pick) = x := by
  have hs := sound_of_parse h
  obtain ⟨es, he, hpicks, -⟩ := exists_entries_of_parse h
  refine ⟨es, he, fun address x => ⟨fun hx => ?_, ?_⟩⟩
  · have hne : s.atAddress address ≠ nil := fun hnil => by simp [hnil, picks] at hx
    obtain ⟨path, -, haddr, hf⟩ := hs.exists_path hne
    rw [← hf] at hx
    obtain ⟨e, hm, rfl, heq⟩ := (hpicks path x).1 hx
    exact ⟨e, hm, haddr, heq⟩
  · rintro ⟨e, hm, rfl, rfl⟩
    have hx := (hpicks e.place _).2 ⟨e, hm, rfl, rfl⟩
    have hne : follow e.place s ≠ nil := fun hnil => by simp [hnil, picks] at hx
    rwa [hs.atAddress_ofPath (hs.isPath hne)]

end Selector

end JsonSelect
