import JsonSelect.Proofs.Entries
import Mathlib.Data.List.DropRight

/-!
# The grammar of selector texts

A list of items is written with separators around its items and braces (`Item.Written`), and
mentions its tokens in the order of the text: a plain token as a field, the token of a group or of a
chain as a descent whose contents lie one token further down (`Item.mentions`). What is read from a
text so written is the selector of these mentions (`Selector.parse_of_written`).

Reading goes by stretches of the text. A stretch has read some mentions, and the tokens of the run
that it leaves unfinished are held back, as the next mark may still make the last of them a descent
(`Outline.Advances`).
-/

namespace JsonSelect

/-- An item of a selector text. What follows the dot of a chain is a token, a group or a chain. -/
inductive Item where
  | token (token : String)
  | group (token : String) (items : List Item)
  | bare (items : List Item)
  | chain (token : String) (rest : Item)

namespace Item

def isBare : Item → Bool
  | bare _ => true
  | _ => false

/-- The place of what a token at `place` holds. -/
def under (place : List String) (token : String) : List String := place ++ [token]

section Mentions

variable {Place : Type} (below : Place → String → Place)

mutual

/-- The mentions of an item at `place`, where `below` leads from a place to the contents of a
token. -/
def mentions (place : Place) : Item → List (Mention Place)
  | token t => [⟨place, .field, t⟩]
  | group t items => ⟨place, .descend, t⟩ :: mentionsAll (below place t) items
  | bare items => mentionsAll place items
  | chain t rest => ⟨place, .descend, t⟩ :: mentions (below place t) rest

def mentionsAll (place : Place) : List Item → List (Mention Place)
  | [] => []
  | item :: items => mentions place item ++ mentionsAll place items

end

end Mentions

open Outline

/-- Whether items can follow a token without being taken for a part of it. -/
def StandApart : List Item → List Char → Prop
  | [], _ => True
  | item :: _, cs => item.isBare = false ∧ startsApart cs

/-- The texts of a list of items. Separators are needed only behind a token that another item
follows; there are none around the dots of a chain. -/
inductive Written : List Item → List Char → Prop
  | nil {gap : List Char} (hg : IsGap gap) : Written [] gap
  | token {gap : List Char} {t : String} {items : List Item} {cs : List Char} (hg : IsGap gap)
      (ht : IsWord t.toList) (h : Written items cs) (hs : StandApart items cs) :
      Written (token t :: items) (gap ++ t.toList ++ cs)
  | group {gap gap' : List Char} {t : String} {inner items : List Item} {cs ds : List Char}
      (hg : IsGap gap) (ht : IsWord t.toList) (hg' : IsGap gap') (hi : Written inner cs)
      (h : Written items ds) :
      Written (group t inner :: items) (gap ++ t.toList ++ gap' ++ '\x7b' :: cs ++ '\x7d' :: ds)
  | bare {gap : List Char} {inner items : List Item} {cs ds : List Char} (hg : IsGap gap)
      (hi : Written inner cs) (h : Written items ds) :
      Written (bare inner :: items) (gap ++ '\x7b' :: cs ++ '\x7d' :: ds)
  | chain {gap : List Char} {t : String} {rest : Item} {items : List Item} {cs : List Char}
      (hg : IsGap gap) (ht : IsWord t.toList) (h : Written (rest :: items) cs)
      (hr : rest.isBare = false) (hd : startsApart cs = false) :
      Written (chain t rest :: items) (gap ++ t.toList ++ '.' :: cs)

end Item

def OpeningKind.mark : OpeningKind → Mark
  | .group => .openGroup
  | .chain => .dot

namespace Opening

open Outline

/-- What is open around a token that comes next, when `run` is unfinished and `cs` follows. -/
def around (openings : List Opening) (run cs : List Char) : List Opening :=
  if run = [] ∧ startsApart cs = false then openings else endChains openings

@[simp] theorem endChains_endChains (openings : List Opening) :
    endChains (endChains openings) = endChains openings :=
  List.dropWhile_idempotent _ _

theorem endChains_around (openings : List Opening) (run cs : List Char) :
    endChains (around openings run cs) = endChains openings := by
  unfold around
  split_ifs <;> simp

theorem endChains_group (token : Option String) (offset : Nat) (openings : List Opening) :
    endChains (⟨token, .group, offset⟩ :: openings) = ⟨token, .group, offset⟩ :: openings := rfl

theorem endChains_chain (token : Option String) (offset : Nat) (openings : List Opening) :
    endChains (⟨token, .chain, offset⟩ :: openings) = endChains openings := rfl

theorem place_cons (token : String) (kind : OpeningKind) (offset : Nat)
    (openings : List Opening) :
    place (⟨some token, kind, offset⟩ :: openings) = Item.under (place openings) token :=
  place_some token kind offset openings

/-- The tokens of a run that grows by a word. -/
theorem situate_append_word (openings : List Opening) {run gap word : List Char}
    (hr : Clean run) (hrun : run = [] ∨ tokens run ≠ []) (hg : IsGap gap)
    (hw : IsWord word) (h : run = [] ∨ gap ≠ []) (rest : List Char) :
    situate openings (run ++ gap ++ word) = situate openings run
      ++ [(around openings run (gap ++ word ++ rest), String.ofList word)] := by
  unfold situate
  rw [tokens_append_word hr hg hw h]
  rcases hrun with rfl | hne
  · have hs : startsApart (gap ++ word ++ rest) = startsApart (gap ++ word) := by
      cases gap with
      | nil => rw [List.nil_append, hw.not_startsApart, ← hw.not_startsApart [], List.append_nil]
      | cons c gap => rfl
    rw [List.append_assoc] at hs
    by_cases hb : startsApart (gap ++ word) <;> simp [tokens_nil, around, hs, hb]
  · obtain ⟨t, ts, ht⟩ := List.exists_cons_of_ne_nil hne
    have hrn : run ≠ [] := by
      rintro rfl
      exact hne rfl
    obtain ⟨c, run, rfl⟩ := List.exists_cons_of_ne_nil hrn
    by_cases hs : separates c <;> simp [ht, around, startsApart, hs]

theorem situate_append_gap (openings : List Opening) {run gap : List Char} (hr : Clean run)
    (hrun : run = [] ∨ tokens run ≠ []) (hg : IsGap gap) :
    situate openings (run ++ gap) = situate openings run := by
  unfold situate
  rw [tokens_append_gap hr hg]
  rcases hrun with rfl | hne
  · rfl
  · cases run with
    | nil => exact absurd rfl hne
    | cons c run => rfl

end Opening

namespace Outline

open Opening

/-- What is read from the rest of a text behind an unfinished run. -/
def resume (openings : List Opening) (run : List Char) (offset : Nat) (cs : List Char) :
    Except Fault (List Entry) :=
  ((scan 0 offset cs).prependAll run).entries openings

/-- The stretch `cs` reads the mentions `ms` and leaves `openings'` open and `run'` unfinished. -/
def Advances (offset : Nat) (openings : List Opening) (run cs : List Char)
    (openings' : List Opening) (run' : List Char) (ms : List (Mention (List String))) : Prop :=
  ∀ rest, resume openings run offset (cs ++ rest) = do
    let es ← ms.mapM Mention.read
    return es ++ (← resume openings' run' (offset + size cs) rest)

theorem Advances.trans {offset : Nat} {os os' os'' : List Opening}
    {run run' run'' cs ds : List Char} {ms ms' : List (Mention (List String))}
    (h : Advances offset os run cs os' run' ms)
    (h' : Advances (offset + size cs) os' run' ds os'' run'' ms') :
    Advances offset os run (cs ++ ds) os'' run'' (ms ++ ms') := by
  intro rest
  rw [List.append_assoc, h, h']
  simp [size_append, Nat.add_assoc, map_append_append]

/-- A stretch without marks only lengthens the run. -/
theorem Clean.advances {cs : List Char} (h : Clean cs) (offset : Nat) (openings : List Opening)
    (run : List Char) : Advances offset openings run cs openings (run ++ cs) [] := by
  intro rest
  rw [resume, h.scan, resume]
  simp [prependAll]

/-- A mark finishes the run. -/
theorem advances_mark {c : Char} {m : Mark} (hm : Mark.ofChar? c = some m) {offset : Nat}
    {openings inside : List Opening} {run : List Char}
    (h : after openings run offset m = .ok inside) :
    Advances offset openings run [c] inside [] (mentions openings run m) := by
  intro rest
  unfold resume
  rw [List.singleton_append, scan_cons_mark hm, prependAll_marked, entries_marked,
    List.append_nil, h]
  simp [prependAll, size]

end Outline

namespace Item

open Opening Outline

/-- A dot that opened a chain is followed by a token. -/
def Settled (openings : List Opening) (run : List Char) : Prop :=
  ∀ o ∈ openings.head?, o.isChain → tokens run ≠ []

/-- Whether the text of some items can follow an unfinished run. -/
def Fits (openings : List Opening) (run : List Char) : List Item → List Char → Prop
  | [], _ => Settled openings run
  | item :: _, cs =>
    if item.isBare then run = [] ∧ endChains openings = openings else run = [] ∨ startsApart cs

/-- The mentions of items of which the first may stand in a chain. -/
def mentionsFrom (first others : List String) : List Item → List (Mention (List String))
  | [] => []
  | item :: items =>
    item.mentions under first ++ mentionsAll under others items

theorem mentionsFrom_self (place : List String) (items : List Item) :
    mentionsFrom place place items = mentionsAll under place items := by
  cases items <;> rfl

theorem settled_nil {openings : List Opening} (h : endChains openings = openings) :
    Settled openings [] := by
  intro o ho hc
  rw [← h] at ho
  have := List.head?_dropWhile_not isChain openings
  rw [← endChains, Option.mem_def.1 ho] at this
  simp [hc] at this

/-- Any items fit behind an opening brace and behind a closed group. -/
theorem fits_nil {openings : List Opening} (h : endChains openings = openings)
    (items : List Item) (cs : List Char) : Fits openings [] items cs := by
  cases items with
  | nil => exact settled_nil h
  | cons item items => simp [Fits, h]

theorem StandApart.fits {items : List Item} {cs run : List Char} (h : StandApart items cs)
    (hrun : tokens run ≠ []) (openings : List Opening) : Fits openings run items cs := by
  cases items with
  | nil => exact fun _ _ _ => hrun
  | cons item items => simp [Fits, h.1, h.2]

theorem around_nil {openings : List Opening} (h : endChains openings = openings)
    (run cs : List Char) : around openings run cs = openings := by
  unfold around
  split_ifs <;> simp [h]

theorem held_nil (openings : List Opening) : held openings [] = [] := rfl

/-- The stretch `cs` comes to the mentions `ms`, held ones among them, and leaves `base` open but
for chains. -/
def Reads (offset : Nat) (openings : List Opening) (run cs : List Char) (base : List Opening)
    (ms : List (Mention (List String))) : Prop :=
  ∃ openings' run' read, Advances offset openings run cs openings' run' read
    ∧ read ++ held openings' run' = ms ∧ Clean run' ∧ endChains openings' = base
    ∧ Settled openings' run'

theorem reads_of_advances {offset : Nat} {openings openings' base : List Opening}
    {run run' cs ds : List Char} {ms ms' : List (Mention (List String))}
    (h : Advances offset openings run cs openings' run' ms)
    (h' : Reads (offset + size cs) openings' run' ds base ms') :
    Reads offset openings run (cs ++ ds) base (ms ++ ms') := by
  obtain ⟨os, r, read, ha, rfl, hr, hb, hs⟩ := h'
  exact ⟨os, r, ms ++ read, h.trans ha, by simp, hr, hb, hs⟩

/-- The texts of some items read behind an unfinished run. -/
def Readable (items : List Item) (cs : List Char) : Prop :=
  ∀ (offset : Nat) (openings : List Opening) (run : List Char), Clean run →
    (run = [] ∨ tokens run ≠ []) → Fits openings run items cs →
    Reads offset openings run cs (endChains openings) (held openings run
      ++ mentionsFrom (place (around openings run cs)) (place (endChains openings)) items)

theorem held_append_word (openings : List Opening) {run gap word : List Char} (hr : Clean run)
    (hrun : run = [] ∨ tokens run ≠ []) (hg : IsGap gap) (hw : IsWord word)
    (h : run = [] ∨ gap ≠ []) (rest : List Char) :
    held openings (run ++ gap ++ word) = held openings run
      ++ [⟨place (around openings run (gap ++ word ++ rest)), .field, String.ofList word⟩] := by
  unfold held
  rw [situate_append_word openings hr hrun hg hw h rest, List.map_append]
  rfl

/-- An item that is not bare is written apart from an unfinished run. -/
theorem Fits.gap_ne_nil {openings : List Opening} {run gap word rest : List Char} {item : Item}
    {items : List Item} (hb : item.isBare = false) (hw : IsWord word)
    (h : Fits openings run (item :: items) (gap ++ word ++ rest)) : run = [] ∨ gap ≠ [] := by
  simp only [Fits, hb] at h
  refine h.imp_right ?_
  rintro hs rfl
  rw [List.nil_append, hw.not_startsApart] at hs
  exact absurd hs (by simp)

theorem readable_nil {gap : List Char} (hg : IsGap gap) : Readable [] gap := by
  intro offset openings run hr hrun hf
  refine ⟨openings, run ++ gap, [], hg.clean.advances _ _ _, ?_, hr.append hg.clean, rfl, ?_⟩
  · simp [held, situate_append_gap openings hr hrun hg, mentionsFrom]
  · intro o ho hc
    rw [tokens_append_gap hr hg]
    exact hf o ho hc

theorem readable_token {gap : List Char} {t : String} {items : List Item} {cs : List Char}
    (hg : IsGap gap) (ht : IsWord t.toList) (hs : StandApart items cs) (ih : Readable items cs) :
    Readable (token t :: items) (gap ++ t.toList ++ cs) := by
  intro offset openings run hr hrun hf
  have hgap := hf.gap_ne_nil rfl ht
  have hne : tokens (run ++ gap ++ t.toList) ≠ [] := by
    rw [tokens_append_word hr hg ht hgap]
    simp
  have hplace : around openings (run ++ gap ++ t.toList) cs = endChains openings :=
    if_neg fun hnil => hne (by rw [hnil.1, tokens_nil])
  have hword := (hg.clean.append ht.clean).advances offset openings run
  rw [← List.append_assoc] at hword
  have hrest := reads_of_advances hword (ih _ openings _ ((hr.append hg.clean).append ht.clean)
    (.inr hne) (hs.fits hne openings))
  rw [held_append_word openings hr hrun hg ht hgap cs, hplace, mentionsFrom_self] at hrest
  simpa [mentionsFrom, mentions] using hrest

/-- The items inside braces, the closing brace and the items behind it. -/
theorem reads_inner {inner items : List Item} {cs ds : List Char} (hi : Readable inner cs)
    (ih : Readable items ds) (offset : Nat) (token : Option String) (offset' : Nat)
    (openings : List Opening) :
    Reads offset (⟨token, .group, offset'⟩ :: openings) [] (cs ++ '\x7d' :: ds)
      (endChains openings)
      (mentionsAll under
          (place (⟨token, .group, offset'⟩ :: openings)) inner
        ++ mentionsAll under (place (endChains openings))
          items) := by
  have hself := endChains_group token offset' openings
  obtain ⟨os, run, read, ha, hread, -, hend, -⟩ := hi offset _ [] clean_nil (.inl rfl)
    (fits_nil hself _ _)
  have hafter : after os run (offset + size cs) .closeGroup = .ok (endChains openings) := by
    simp [after, hend, hself]
  have hclose := ha.trans (advances_mark (c := '\x7d') rfl hafter)
  have hrest := reads_of_advances hclose (ih _ (endChains openings) [] clean_nil (.inl rfl)
    (fits_nil (endChains_endChains _) _ _))
  rw [Opening.mentions, hread, around_nil hself, around_nil (endChains_endChains _), hself,
    endChains_endChains, mentionsFrom_self, mentionsFrom_self] at hrest
  simpa [held_nil] using hrest

theorem after_mark {openings around : List Opening} {run : List Char} {t : String}
    {held : List (List Opening × String)} (h : situate openings run = held ++ [(around, t)])
    (kind : OpeningKind) (offset : Nat) :
    after openings run offset kind.mark = .ok (⟨some t, kind, offset⟩ :: around) := by
  cases kind <;> simp [after, OpeningKind.mark, h]

/-- A word in front of an opening brace or a dot is a descent. -/
theorem advances_word_mark (kind : OpeningKind) {c : Char} (hm : Mark.ofChar? c = some kind.mark)
    (offset : Nat) (openings : List Opening) {run gap gap' : List Char} {t : String}
    (hr : Clean run) (hrun : run = [] ∨ tokens run ≠ []) (hg : IsGap gap) (ht : IsWord t.toList)
    (hg' : IsGap gap') (h : run = [] ∨ gap ≠ []) (rest : List Char) :
    ∃ offset', Advances offset openings run (gap ++ t.toList ++ gap' ++ [c])
      (⟨some t, kind, offset'⟩ :: around openings run (gap ++ t.toList ++ rest)) []
      (held openings run
        ++ [⟨place (around openings run (gap ++ t.toList ++ rest)), .descend, t⟩]) := by
  have hne : tokens (run ++ gap ++ t.toList) ≠ [] := by
    rw [tokens_append_word hr hg ht h]
    simp
  have hs : situate openings (run ++ (gap ++ t.toList ++ gap')) = situate openings run
      ++ [(around openings run (gap ++ t.toList ++ rest), t)] := by
    rw [← List.append_assoc, ← List.append_assoc,
      situate_append_gap openings ((hr.append hg.clean).append ht.clean) (.inr hne) hg',
      situate_append_word openings hr hrun hg ht h rest, String.ofList_toList]
  have hms : Mention.lead (held openings (run ++ (gap ++ t.toList ++ gap')))
      = held openings run
        ++ [⟨place (around openings run (gap ++ t.toList ++ rest)), .descend, t⟩] := by
    unfold held
    rw [hs, List.map_append]
    exact Mention.lead_append_singleton _ _
  have hword := ((hg.clean.append ht.clean).append hg'.clean).advances offset openings run
  have hmark := hword.trans (advances_mark hm (after_mark hs kind _))
  refine ⟨offset + size (gap ++ t.toList ++ gap'), ?_⟩
  rw [← hms]
  cases kind <;> exact hmark

theorem readable_group {gap gap' : List Char} {t : String} {inner items : List Item}
    {cs ds : List Char} (hg : IsGap gap) (ht : IsWord t.toList) (hg' : IsGap gap')
    (hi : Readable inner cs) (ih : Readable items ds) :
    Readable (group t inner :: items)
      (gap ++ t.toList ++ gap' ++ '\x7b' :: cs ++ '\x7d' :: ds) := by
  intro offset openings run hr hrun hf
  have htext : gap ++ t.toList ++ gap' ++ '\x7b' :: cs ++ '\x7d' :: ds
      = gap ++ t.toList ++ (gap' ++ '\x7b' :: cs ++ '\x7d' :: ds) := by simp
  have hgap : run = [] ∨ gap ≠ [] := by
    rw [htext] at hf
    exact hf.gap_ne_nil rfl ht
  obtain ⟨offset', hopen⟩ := advances_word_mark .group (c := '\x7b') rfl offset openings hr hrun hg
    ht hg' hgap (gap' ++ '\x7b' :: cs ++ '\x7d' :: ds)
  have hrest := reads_of_advances hopen (reads_inner hi ih _ (some t) offset' _)
  rw [endChains_around, place_cons] at hrest
  rw [htext]
  simpa [mentionsFrom, mentions] using hrest

theorem readable_bare {gap : List Char} {inner items : List Item} {cs ds : List Char}
    (hg : IsGap gap) (hi : Readable inner cs) (ih : Readable items ds) :
    Readable (bare inner :: items) (gap ++ '\x7b' :: cs ++ '\x7d' :: ds) := by
  intro offset openings run hr hrun hf
  obtain ⟨rfl, hself⟩ : run = [] ∧ endChains openings = openings := by
    simpa [Fits, isBare] using hf
  have hs : situate openings gap = [] := situate_append_gap openings clean_nil (.inl rfl) hg
  have hafter : after openings gap (offset + size gap) .openGroup
      = .ok (⟨none, .group, offset + size gap⟩ :: openings) := by simp [after, hs]
  have hopen := (hg.clean.advances offset openings []).trans
    (advances_mark (c := '\x7b') rfl hafter)
  have hnone : Opening.mentions openings gap .openGroup = [] := by
    simp [Opening.mentions, held, hs, Mention.lead]
  have hrest := reads_of_advances hopen (reads_inner hi ih _ none _ openings)
  rw [place_bare, hself, List.nil_append, List.nil_append, hnone] at hrest
  rw [around_nil hself, hself, held_nil]
  simpa [mentionsFrom, mentions] using hrest

theorem readable_chain {gap : List Char} {t : String} {rest : Item} {items : List Item}
    {cs : List Char} (hg : IsGap gap) (ht : IsWord t.toList) (hr : rest.isBare = false)
    (hd : startsApart cs = false) (ih : Readable (rest :: items) cs) :
    Readable (chain t rest :: items) (gap ++ t.toList ++ '.' :: cs) := by
  intro offset openings run hrun hrun' hf
  have hgap := hf.gap_ne_nil rfl ht
  have hnil : IsGap [] := by simp [IsGap]
  obtain ⟨offset', hdot⟩ := advances_word_mark .chain (c := '.') rfl offset openings hrun hrun' hg
    ht hnil hgap ('.' :: cs)
  have hrest := reads_of_advances hdot (ih _ _ [] clean_nil (.inl rfl) (by simp [Fits, hr]))
  have hinside : ∀ os, around os [] cs = os := fun os => if_pos ⟨rfl, hd⟩
  rw [endChains_chain, endChains_around, hinside, place_cons] at hrest
  simpa [mentionsFrom, mentions, held_nil] using hrest

theorem readable_of_written {items : List Item} {cs : List Char} (h : Written items cs) :
    Readable items cs := by
  induction h with
  | nil hg => exact readable_nil hg
  | token hg ht _ hs ih => exact readable_token hg ht hs ih
  | group hg ht hg' _ _ ihi ih => exact readable_group hg ht hg' ihi ih
  | bare hg _ _ ihi ih => exact readable_bare hg ihi ih
  | chain hg ht _ hr hd ih => exact readable_chain hg ht hr hd ih

/-- A text may end where only chains are open that a token follows. -/
theorem finish_eq_ok {openings : List Opening} {run : List Char} :
    finish openings run = .ok () ↔ endChains openings = [] ∧ Settled openings run := by
  have hchains : endChains openings = [] ↔
      (openings.filter fun o => !o.isChain).getLast? = none := by
    rw [List.getLast?_eq_none_iff, List.filter_eq_nil_iff]
    simp [endChains]
  rw [hchains]
  unfold finish Settled
  cases hlast : (openings.filter fun o => !o.isChain).getLast? with
  | some outermost => simp
  | none =>
    cases openings with
    | nil => simp
    | cons o os =>
      have hc : o.isChain := by
        have := List.filter_eq_nil_iff.1 (List.getLast?_eq_none_iff.1 hlast) o (.head _)
        simpa using this
      cases hs : situate (o :: os) run with
      | nil => simp [hc, situate_eq_nil.1 hs]
      | cons t ts =>
        have hne : tokens run ≠ [] := fun hnil => by simp [situate_eq_nil.2 hnil] at hs
        simp [hne]

theorem isPath_under {place : List String} {t : String} (hp : Address.IsPath place)
    (ht : IsWord t.toList) : Address.IsPath (under place t) :=
  Address.isPath_append.2 ⟨hp, Address.isPath_singleton.2 ht⟩

mutual

theorem mentions_ofPath : ∀ {place : List String} (item : Item), Address.IsPath place →
    (∀ m ∈ mentions under place item, IsWord m.token.toList) →
    (mentions under place item).map (Mention.map Address.ofPath) =
      mentions Address.child (Address.ofPath place) item
  | _, token _, _, _ => rfl
  | place, group t items, hp, h => by
    obtain ⟨ht, hi⟩ := List.forall_mem_cons.1 h
    unfold mentions
    rw [List.map_cons, mentionsAll_ofPath items (isPath_under hp ht) hi,
      under, Address.ofPath_concat hp]
    rfl
  | place, bare items, hp, h => mentionsAll_ofPath items hp h
  | place, chain t rest, hp, h => by
    obtain ⟨ht, hr⟩ := List.forall_mem_cons.1 h
    unfold mentions
    rw [List.map_cons, mentions_ofPath rest (isPath_under hp ht) hr,
      under, Address.ofPath_concat hp]
    rfl

theorem mentionsAll_ofPath : ∀ {place : List String} (items : List Item), Address.IsPath place →
    (∀ m ∈ mentionsAll under place items, IsWord m.token.toList) →
    (mentionsAll under place items).map (Mention.map Address.ofPath) =
      mentionsAll Address.child (Address.ofPath place) items
  | _, [], _, _ => rfl
  | place, item :: items, hp, h => by
    obtain ⟨hi, his⟩ := List.forall_mem_append.1 h
    rw [mentionsAll, List.map_append, mentions_ofPath item hp hi, mentionsAll_ofPath items hp his,
      mentionsAll]

end

theorem isWord_of_written {Place : Type} {below : Place → String → Place} {items : List Item}
    {cs : List Char} (h : Written items cs) :
    ∀ place, ∀ m ∈ mentionsAll below place items, IsWord m.token.toList := by
  induction h with
  | nil hg => exact fun place m hm => absurd hm List.not_mem_nil
  | token hg ht _ _ ih => exact fun place => List.forall_mem_cons.2 ⟨ht, ih place⟩
  | group hg ht hg' _ _ ihi ih =>
    exact fun place => List.forall_mem_cons.2 ⟨ht, List.forall_mem_append.2 ⟨ihi _, ih place⟩⟩
  | bare hg _ _ ihi ih => exact fun place => List.forall_mem_append.2 ⟨ihi place, ih place⟩
  | @chain _ t _ _ _ hg ht _ _ _ ih =>
    intro place
    have hr := (List.forall_mem_append.1 (ih (below place t))).1
    have hi := (List.forall_mem_append.1 (ih place)).2
    exact List.forall_mem_cons.2 ⟨ht, List.forall_mem_append.2 ⟨hr, hi⟩⟩

mutual

/-- The item with each chain as groups of one item. -/
def grouped : Item → Item
  | token t => token t
  | group t items => group t (groupedAll items)
  | bare items => bare (groupedAll items)
  | chain t rest => group t [grouped rest]

def groupedAll : List Item → List Item
  | [] => []
  | item :: items => grouped item :: groupedAll items

end

mutual

theorem mentions_grouped {Place : Type} (below : Place → String → Place) :
    ∀ (place : Place) (item : Item), mentions below place item.grouped = mentions below place item
  | _, token _ => rfl
  | place, group t items => by
    unfold grouped mentions
    rw [mentionsAll_grouped below _ items]
  | place, bare items => by rw [grouped, mentions, mentions, mentionsAll_grouped below _ items]
  | place, chain t rest => by
    rw [grouped, mentions, mentions, mentionsAll, mentionsAll, List.append_nil,
      mentions_grouped below _ rest]

theorem mentionsAll_grouped {Place : Type} (below : Place → String → Place) :
    ∀ (place : Place) (items : List Item),
      mentionsAll below place (groupedAll items) = mentionsAll below place items
  | _, [] => rfl
  | place, item :: items => by
    unfold groupedAll mentionsAll
    rw [mentions_grouped below _ item,
      mentionsAll_grouped below _ items]

end

end Item

namespace Selector

open Item Opening Outline

/-- What is written from items reads as their mentions do. -/
theorem entries_of_written {items : List Item} {text : String}
    (h : Item.Written items text.toList) :
    Outline.entries [] (ofChars text.toList) =
      (mentionsAll under [] items).mapM Mention.read := by
  obtain ⟨openings, run, read, ha, hms, -, hend, hs⟩ :=
    readable_of_written h 0 [] [] clean_nil (.inl rfl) (fits_nil rfl items _)
  have hread := ha []
  rw [List.append_nil, resume, resume, scan, prependAll_last, List.append_nil, entries_last,
    finish_eq_ok.2 ⟨hend, hs⟩] at hread
  simp only [ok_bind, bind_pure] at hread
  rw [around_nil rfl, held_nil, List.nil_append] at hms
  have hplace : place [] = [] := rfl
  rw [show endChains [] = [] from rfl, hplace, mentionsFrom_self] at hms
  rw [← hms, List.mapM_append]
  exact hread

/-- A text of items whose tokens all read gives the selector of the picks that the items mention, in
their order: a chain is read as groups of one item each. At every address it picks what is mentioned
there. -/
theorem parse_of_written {items : List Item} {text : String}
    (h : Item.Written items text.toList)
    (hread : ∀ m ∈ mentionsAll Address.child "" items, ∃ r, Subset.ofToken? m.token = .ok r) :
    ∃ entries, parse text = .ok (ofEntries entries)
      ∧ entries.map Entry.mention = mentionsAll under [] items
      ∧ entries.map (fun e => e.mention.map Address.ofPath) = mentionsAll Address.child "" items
      ∧ (∀ e ∈ entries, Pick.ofToken e.pick.token = .ok e.pick)
      ∧ (∀ address role pick, (role, pick) ∈ ((ofEntries entries).atAddress address).picks ↔
        ⟨address, role, pick.token⟩ ∈ mentionsAll Address.child "" items
          ∧ Pick.ofToken pick.token = .ok pick)
      ∧ ∀ text' : String, Item.Written (groupedAll items) text'.toList →
        parse text' = parse text := by
  have haddr := mentionsAll_ofPath items Address.isPath_nil (isWord_of_written h [])
  have hok : ∀ m ∈ mentionsAll under [] items, ∃ r, Subset.ofToken? m.token = .ok r := by
    intro m hm
    refine hread (m.map Address.ofPath) ?_
    rw [← Address.ofPath_nil, ← haddr]
    exact List.mem_map_of_mem hm
  obtain ⟨entries, hes⟩ := Mention.exists_mapM_read hok
  obtain ⟨hms, hpicks⟩ := Mention.mapM_read_eq_ok.1 hes
  have hparse : parse text = .ok (ofEntries entries) := by
    rw [parse, entries_of_written h, hes]
    rfl
  have hmentions : entries.map (fun e => e.mention.map Address.ofPath) =
      mentionsAll Address.child "" items := by
    rw [← Address.ofPath_nil, ← haddr, ← hms, List.map_map]
    rfl
  refine ⟨entries, hparse, hms, hmentions, hpicks, fun address role pick => ?_,
    fun text' h' => ?_⟩
  · obtain ⟨es, he, hat⟩ := mem_picks_atAddress_of_parse hparse
    obtain rfl : entries = es :=
      Except.ok.inj (hes.symm.trans ((entries_of_written h).symm.trans he))
    rw [hat, ← hmentions, List.mem_map]
    constructor
    · rintro ⟨e, hm, rfl, heq⟩
      obtain ⟨rfl, rfl⟩ := Prod.mk.inj heq
      exact ⟨⟨e, hm, rfl⟩, hpicks e hm⟩
    · rintro ⟨⟨e, hm, heq⟩, hpick⟩
      obtain ⟨hplace, hrole, htoken⟩ := Mention.mk.inj heq
      -- one token reads as one pick only
      have hp := hpicks e hm
      rw [show e.pick.token = pick.token from htoken, hpick] at hp
      exact ⟨e, hm, hplace, Prod.ext hrole (Except.ok.inj hp).symm⟩
  · rw [parse, entries_of_written h', mentionsAll_grouped, ← entries_of_written h, parse]

theorem parse_of_written_chain :
    ∃ entries, parse "a.b\x7b c[2] \x7d \x7bd\x7d" = .ok (ofEntries entries)
      ∧ entries.map (fun e => e.mention.map Address.ofPath) =
        [⟨"", .descend, "a"⟩, ⟨"a", .descend, "b"⟩, ⟨"a.b", .field, "c[2]"⟩,
          ⟨"", .field, "d"⟩]
      ∧ (.field, ⟨"c[2]", "c", some ⟨some 1, some 1⟩⟩) ∈
        ((ofEntries entries).atAddress "a.b").picks := by
  have hnil : IsGap [] := by decide
  have hspace : IsGap [' '] := by decide
  have hc : Item.Written [token "c[2]"] ([' '] ++ "c[2]".toList ++ [' ']) :=
    .token hspace (by decide) (.nil hspace) trivial
  have hd : Item.Written [bare [token "d"]]
      ([' '] ++ '\x7b' :: ([] ++ "d".toList ++ []) ++ '\x7d' :: []) :=
    .bare hspace (.token hnil (by decide) (.nil hnil) trivial) (.nil hnil)
  have h : Item.Written [chain "a" (group "b" [token "c[2]"]), bare [token "d"]]
      ("a.b\x7b c[2] \x7d \x7bd\x7d" : String).toList :=
    .chain hnil (t := "a") (by decide) (.group hnil (t := "b") (by decide) hnil hc hd) rfl rfl
  obtain ⟨entries, hp, -, haddr, -, hat, -⟩ := parse_of_written h (by
    have hread : ∀ t ∈ ["a", "b", "c[2]", "d"], ∃ r, Subset.ofToken? t = .ok r := by
      simp only [List.forall_mem_cons]
      exact ⟨⟨none, by decide⟩, ⟨none, by decide⟩, ⟨some ("c", ⟨some 1, some 1⟩), by decide⟩,
        ⟨none, by decide⟩, by simp⟩
    intro m hm
    have hm : m.token ∈ ["a", "b", "c[2]", "d"] := List.mem_map_of_mem hm
    exact hread _ hm)
  exact ⟨entries, hp, haddr, (hat _ _ _).2 ⟨by decide, by decide⟩⟩

end Selector

end JsonSelect
