import JsonSelect.Proofs.Addresses
import JsonSelect.Proofs.Steps

/-!
# Selectors that texts write

At every place of a selector that a text writes, the picks are what their tokens stand for, and the
tokens of the descents are words, no two of them equal (`Selector.sound_of_parse`). An entry keeps
this up as it is added (`Selector.Sound.addEntry`), and so does arranging
(`Selector.Sound.arrange`), which puts the fields first (`Selector.arranged_of_parse`).
-/

namespace JsonSelect

open Outline Opening

namespace Selector

/-- The descents at the root, each with the selector that it leads to. -/
def descents : Selector → List (Pick × Selector)
  | nil => []
  | field _ rest => rest.descents
  | descend pick inner rest => (pick, inner) :: rest.descents

theorem mem_picks_iff_mem_descents {pick : Pick} : ∀ {s : Selector},
    (.descend, pick) ∈ s.picks ↔ ∃ inner, (pick, inner) ∈ s.descents
  | nil => by simp [picks, descents]
  | field p rest => by
    unfold picks descents
    rw [← mem_picks_iff_mem_descents]
    simp
  | descend p inner rest => by
    unfold picks descents
    rw [List.mem_cons, mem_picks_iff_mem_descents]
    simp [exists_or]

/-- The picks at every place are those of their tokens, and descents have distinct words. -/
def Sound : Selector → Prop
  | nil => True
  | field pick rest => Pick.ofToken pick.token = .ok pick ∧ rest.Sound
  | descend pick inner rest =>
    Pick.ofToken pick.token = .ok pick ∧ IsWord pick.token.toList
      ∧ (∀ d ∈ rest.descents, d.1.token ≠ pick.token) ∧ inner.Sound ∧ rest.Sound

theorem Sound.of_mem_descents : ∀ {s : Selector} {pick : Pick} {inner : Selector}, s.Sound →
    (pick, inner) ∈ s.descents →
      Pick.ofToken pick.token = .ok pick ∧ IsWord pick.token.toList ∧ inner.Sound
  | field _ _, _, _, h, hm => h.2.of_mem_descents hm
  | descend _ _ _, _, _, h, hm => by
    rcases List.mem_cons.1 hm with heq | hm
    · obtain ⟨rfl, rfl⟩ := Prod.mk.inj heq
      exact ⟨h.1, h.2.1, h.2.2.2.1⟩
    · exact h.2.2.2.2.of_mem_descents hm

theorem Sound.ofToken_of_mem_picks : ∀ {s : Selector} {x : Role × Pick}, s.Sound → x ∈ s.picks →
    Pick.ofToken x.2.token = .ok x.2
  | field _ _, _, h, hm => by
    rcases List.mem_cons.1 hm with rfl | hm
    · exact h.1
    · exact h.2.ofToken_of_mem_picks hm
  | descend _ _ _, _, h, hm => by
    rcases List.mem_cons.1 hm with rfl | hm
    · exact h.1
    · exact h.2.2.2.2.ofToken_of_mem_picks hm

theorem descents_addField (pick : Pick) : ∀ s : Selector, (s.addField pick).descents = s.descents
  | nil => rfl
  | field p rest => by
    unfold addField
    split
    · rfl
    · exact descents_addField pick rest
  | descend p inner rest => by rw [addField, descents, descents_addField pick rest, descents]

theorem Sound.addField {pick : Pick} (hp : Pick.ofToken pick.token = .ok pick) :
    ∀ {s : Selector}, s.Sound → (s.addField pick).Sound
  | nil, _ => ⟨hp, trivial⟩
  | field p rest, h => by
    unfold Selector.addField
    split
    · exact h
    · exact ⟨h.1, h.2.addField hp⟩
  | descend p inner rest, h =>
    ⟨h.1, h.2.1, by rw [descents_addField]; exact h.2.2.1, h.2.2.2.1, h.2.2.2.2.addField hp⟩

theorem mem_descents_addDescent {pick : Pick} {d : Pick × Selector} :
    ∀ {s : Selector}, d ∈ (s.addDescent pick).descents → d ∈ s.descents ∨ d.1 = pick
  | nil, h => .inr (by rw [List.mem_singleton.1 h])
  | field p rest, h => mem_descents_addDescent (s := rest) h
  | descend p inner rest, h => by
    unfold addDescent at h
    split at h
    · exact .inl h
    · rcases List.mem_cons.1 h with rfl | h
      · exact .inl (.head _)
      · exact (mem_descents_addDescent h).imp_left (.tail _)

theorem Sound.addDescent {pick : Pick} (hp : Pick.ofToken pick.token = .ok pick)
    (hw : IsWord pick.token.toList) : ∀ {s : Selector}, s.Sound → (s.addDescent pick).Sound
  | nil, _ => ⟨hp, hw, by simp [descents], trivial, trivial⟩
  | field p rest, h => ⟨h.1, h.2.addDescent hp hw⟩
  | descend p inner rest, h => by
    unfold Selector.addDescent
    split
    · exact h
    · next hne =>
      refine ⟨h.1, h.2.1, fun d hd => ?_, h.2.2.2.1, h.2.2.2.2.addDescent hp hw⟩
      rcases mem_descents_addDescent hd with hd | rfl
      · exact h.2.2.1 d hd
      · exact fun heq => hne (Except.ok.inj (h.1.symm.trans (heq ▸ hp)))

theorem map_fst_descents_modifyInner (token : String) (f : Selector → Selector) :
    ∀ s : Selector, (s.modifyInner token f).descents.map (·.1) = s.descents.map (·.1)
  | nil => rfl
  | field p rest => map_fst_descents_modifyInner token f rest
  | descend p inner rest => by
    unfold modifyInner
    split
    · rfl
    · rw [descents, List.map_cons, map_fst_descents_modifyInner token f rest, descents,
        List.map_cons]

theorem Sound.modifyInner {token : String} {f : Selector → Selector}
    (hf : ∀ s : Selector, s.Sound → (f s).Sound) :
    ∀ {s : Selector}, s.Sound → (s.modifyInner token f).Sound
  | nil, h => h
  | field p rest, h => ⟨h.1, h.2.modifyInner hf⟩
  | descend p inner rest, h => by
    unfold Selector.modifyInner
    split
    · exact ⟨h.1, h.2.1, h.2.2.1, hf inner h.2.2.2.1, h.2.2.2.2⟩
    · refine ⟨h.1, h.2.1, fun d hd => ?_, h.2.2.2.1, h.2.2.2.2.modifyInner hf⟩
      have hd := List.mem_map_of_mem (f := (·.1)) hd
      rw [map_fst_descents_modifyInner] at hd
      obtain ⟨d', hd', heq⟩ := List.mem_map.1 hd
      rw [← heq]
      exact h.2.2.1 d' hd'

theorem Sound.modifyAt {f : Selector → Selector} (hf : ∀ s : Selector, s.Sound → (f s).Sound) :
    ∀ (place : List String) {s : Selector}, s.Sound → (s.modifyAt place f).Sound
  | [], _, h => hf _ h
  | _ :: place, _, h => h.modifyInner fun _ ht => ht.modifyAt hf place

theorem Sound.addEntry {s : Selector} {e : Entry} (h : s.Sound)
    (hp : Pick.ofToken e.pick.token = .ok e.pick)
    (hw : e.role = .descend → IsWord e.pick.token.toList) : (s.addEntry e).Sound := by
  refine h.modifyAt (fun t ht => ?_) e.place
  cases hr : e.role with
  | field => exact ht.addField hp
  | descend => exact ht.addDescent hp (hw hr)

theorem mem_descents_insertDescent {pick : Pick} {inner : Selector} {d : Pick × Selector} :
    ∀ {s : Selector}, d ∈ (insertDescent pick inner s).descents ↔
      d = (pick, inner) ∨ d ∈ s.descents
  | nil => by simp [insertDescent, descents]
  | field p rest => mem_descents_insertDescent (s := rest)
  | descend p i rest => by
    unfold insertDescent
    split
    · simp [descents]
    · rw [descents, List.mem_cons, mem_descents_insertDescent, descents, List.mem_cons]
      exact or_left_comm

theorem Sound.insertDescent {pick : Pick} {inner : Selector}
    (hp : Pick.ofToken pick.token = .ok pick) (hw : IsWord pick.token.toList) (hi : inner.Sound) :
    ∀ {s : Selector}, s.Sound → (∀ d ∈ s.descents, d.1.token ≠ pick.token) →
      (Selector.insertDescent pick inner s).Sound
  | nil, _, _ => ⟨hp, hw, by simp [descents], hi, trivial⟩
  | field p rest, h, hd => ⟨h.1, Sound.insertDescent hp hw hi h.2 hd⟩
  | descend p i rest, h, hd => by
    unfold Selector.insertDescent
    split
    · exact ⟨hp, hw, hd, hi, h⟩
    · obtain ⟨hne, hrest⟩ := List.forall_mem_cons.1 hd
      refine ⟨h.1, h.2.1, fun d hm => ?_, h.2.2.2.1,
        Sound.insertDescent hp hw hi h.2.2.2.2 hrest⟩
      rcases mem_descents_insertDescent.1 hm with rfl | hm
      · exact hne.symm
      · exact h.2.2.1 d hm

theorem mem_descents_arrange {pick : Pick} {inner : Selector} :
    ∀ {s : Selector}, (pick, inner) ∈ s.arrange.descents ↔
      ∃ inner', (pick, inner') ∈ s.descents ∧ inner = inner'.arrange
  | nil => by simp [arrange, descents]
  | field p rest => mem_descents_arrange (s := rest)
  | descend p i rest => by
    rw [arrange, mem_descents_insertDescent, mem_descents_arrange]
    constructor
    · intro hcase
      rcases hcase with heq | ⟨inner', hm, rfl⟩
      · obtain ⟨rfl, rfl⟩ := Prod.mk.inj heq
        exact ⟨i, .head _, rfl⟩
      · exact ⟨inner', .tail _ hm, rfl⟩
    · rintro ⟨inner', hm, rfl⟩
      rcases List.mem_cons.1 hm with heq | hm
      · obtain ⟨rfl, rfl⟩ := Prod.mk.inj heq
        exact .inl rfl
      · exact .inr ⟨inner', hm, rfl⟩

theorem Sound.arrange : ∀ {s : Selector}, s.Sound → s.arrange.Sound
  | nil, h => h
  | field p rest, h => ⟨h.1, h.2.arrange⟩
  | descend p i rest, h =>
    Sound.insertDescent h.1 h.2.1 h.2.2.2.1.arrange h.2.2.2.2.arrange fun d hd => by
      obtain ⟨inner', hm, -⟩ := mem_descents_arrange.1 hd
      exact h.2.2.1 (d.1, inner') hm

/-- Fields come first, at every place. -/
def Arranged : Selector → Prop
  | nil => True
  | field _ rest => rest.Arranged
  | descend _ inner rest => (∀ x ∈ rest.picks, x.1 = .descend) ∧ inner.Arranged ∧ rest.Arranged

theorem mem_picks_insertDescent {pick : Pick} {inner : Selector} {x : Role × Pick} :
    ∀ {s : Selector}, x ∈ (insertDescent pick inner s).picks ↔ x = (.descend, pick) ∨ x ∈ s.picks
  | nil => by simp [insertDescent, picks]
  | field p rest => by
    rw [insertDescent, picks, List.mem_cons, mem_picks_insertDescent, picks, List.mem_cons]
    exact or_left_comm
  | descend p i rest => by
    unfold insertDescent
    split
    · simp [picks]
    · rw [picks, List.mem_cons, mem_picks_insertDescent, picks, List.mem_cons]
      exact or_left_comm

theorem Arranged.insertDescent {pick : Pick} {inner : Selector} (hi : inner.Arranged) :
    ∀ {s : Selector}, s.Arranged → (Selector.insertDescent pick inner s).Arranged
  | nil, _ => ⟨by simp [picks], hi, trivial⟩
  | field p rest, h => Arranged.insertDescent (s := rest) hi h
  | descend p i rest, h => by
    unfold Selector.insertDescent
    split
    · exact ⟨List.forall_mem_cons.2 ⟨rfl, h.1⟩, hi, h⟩
    · refine ⟨fun x hx => ?_, h.2.1, Arranged.insertDescent hi h.2.2⟩
      rcases mem_picks_insertDescent.1 hx with rfl | hx
      · rfl
      · exact h.1 x hx

theorem arranged_arrange : ∀ s : Selector, s.arrange.Arranged
  | nil => trivial
  | field _ rest => arranged_arrange rest
  | descend _ inner rest => (arranged_arrange inner).insertDescent (arranged_arrange rest)

theorem exists_map_descend : ∀ {picks : List (Role × Pick)}, (∀ x ∈ picks, x.1 = .descend) →
    ∃ descents : List Pick, picks = descents.map (.descend, ·)
  | [], _ => ⟨[], rfl⟩
  | (role, pick) :: picks, h => by
    obtain ⟨hrole, hpicks⟩ := List.forall_mem_cons.1 h
    obtain rfl : role = .descend := hrole
    obtain ⟨descents, rfl⟩ := exists_map_descend hpicks
    exact ⟨pick :: descents, rfl⟩

theorem Arranged.exists_picks : ∀ {s : Selector}, s.Arranged → ∃ fields descents : List Pick,
    s.picks = fields.map (.field, ·) ++ descents.map (.descend, ·)
  | nil, _ => ⟨[], [], rfl⟩
  | field pick rest, h => by
    obtain ⟨fields, descents, heq⟩ := Arranged.exists_picks (s := rest) h
    refine ⟨pick :: fields, descents, ?_⟩
    rw [picks, heq]
    rfl
  | descend pick _ rest, h => by
    obtain ⟨descents, heq⟩ := exists_map_descend h.1
    refine ⟨[], pick :: descents, ?_⟩
    rw [picks, heq]
    rfl

theorem Arranged.of_mem_descents {pick : Pick} {inner : Selector} : ∀ {s : Selector}, s.Arranged →
    (pick, inner) ∈ s.descents → inner.Arranged
  | field _ rest, h, hm => Arranged.of_mem_descents (s := rest) h hm
  | descend _ _ _, h, hm => by
    rcases List.mem_cons.1 hm with heq | hm
    · obtain ⟨rfl, rfl⟩ := Prod.mk.inj heq
      exact h.2.1
    · exact h.2.2.of_mem_descents hm

theorem of_mem_entries (cs : List Char) : ∀ {offset : Nat} {openings : List Opening}
    {es : List Entry}, (scan 0 offset cs).entries openings = .ok es →
      ∀ e ∈ es, Pick.ofToken e.pick.token = .ok e.pick
        ∧ (e.role = .descend → IsWord e.pick.token.toList) := by
  induction cs using runs_induction with
  | last run hr =>
    intro offset openings es h e he
    rw [scan_of_unmarked hr, entries_last_eq_ok] at h
    obtain ⟨hms, hp⟩ := Mention.mapM_read_eq_ok.1 h.1
    refine ⟨hp e he, fun hrole => ?_⟩
    -- the last run mentions only fields
    have hm : e.mention ∈ held openings run := hms ▸ List.mem_map_of_mem he
    exact absurd (hrole.symm.trans (role_of_mem_held hm)) nofun
  | marked run c m rest hr hm ih =>
    intro offset openings es h
    rw [scan_marked hr hm, entries_marked_eq_ok] at h
    obtain ⟨read, inside, others, hread, -, hothers, rfl⟩ := h
    obtain ⟨hms, hp⟩ := Mention.mapM_read_eq_ok.1 hread
    refine List.forall_mem_append.2 ⟨fun e he => ⟨hp e he, fun _ => ?_⟩, ih hothers⟩
    have hm := List.mem_map_of_mem (f := Mention.token)
      (List.mem_map_of_mem (f := Entry.mention) he)
    rw [hms, tokens_mentions] at hm
    exact isWord_of_mem_tokens hr hm

theorem exists_of_parse {text : String} {s : Selector} (h : parse text = .ok s) :
    ∃ es, Outline.entries [] (ofChars text.toList) = .ok es ∧ s = ofEntries es := by
  unfold parse at h
  cases he : Outline.entries [] (ofChars text.toList) with
  | error f => simp [he, Except.map] at h
  | ok es =>
    rw [he] at h
    exact ⟨es, rfl, (Except.ok.inj h).symm⟩

theorem arranged_of_parse {text : String} {s : Selector} (h : parse text = .ok s) :
    s.Arranged := by
  obtain ⟨es, -, rfl⟩ := exists_of_parse h
  exact arranged_arrange _

theorem sound_foldl {cs : List Char} {es : List Entry}
    (h : Outline.entries [] (ofChars cs) = .ok es) : (es.foldl addEntry nil).Sound := by
  have hsound : ∀ (es : List Entry) (s : Selector), s.Sound →
      (∀ e ∈ es, Pick.ofToken e.pick.token = .ok e.pick
        ∧ (e.role = .descend → IsWord e.pick.token.toList)) →
      (es.foldl addEntry s).Sound := by
    intro es
    induction es with
    | nil => exact fun s hs _ => hs
    | cons e es ih =>
      intro s hs hes
      obtain ⟨⟨hp, hw⟩, hes⟩ := List.forall_mem_cons.1 hes
      exact ih _ (hs.addEntry hp hw) hes
  exact hsound es nil trivial (of_mem_entries _ h)

theorem sound_of_parse {text : String} {s : Selector} (h : parse text = .ok s) : s.Sound := by
  obtain ⟨es, he, rfl⟩ := exists_of_parse h
  exact (sound_foldl he).arrange

end Selector

end JsonSelect
