import JsonSelect.Proofs.Chains
import Mathlib.Data.List.Sort

/-!
# The order of the picks

The entries of a text have its tokens, in their order (`Outline.tokens_entries`). At an address the
fields stand where the text first has them, and the descents by what they share with the finished
selector, those that share the same number where the text first has them
(`Selector.picks_atAddress_of_parse`): arranging is a stable sort (`Selector.descents_arrange`).
-/

namespace JsonSelect

open Outline Opening

theorem Outline.tokens_entries (cs : List Char) : ∀ {offset : Nat} {openings : List Opening}
    {es : List Entry}, (scan 0 offset cs).entries openings = .ok es →
      es.map (·.pick.token) = Glyph.tokens (Glyph.ofChars 0 cs) := by
  have hmentions : ∀ {es : List Entry} {ms : List (Mention (List String))},
      es.map Entry.mention = ms → es.map (·.pick.token) = ms.map Mention.token := by
    rintro es ms rfl
    rw [List.map_map]
    rfl
  induction cs using runs_induction with
  | last run hr =>
    intro offset openings es h
    rw [scan_of_unmarked hr, entries_last_eq_ok] at h
    obtain ⟨hms, -⟩ := Mention.mapM_read_eq_ok.1 h.1
    rw [hmentions hms, tokens_held, tokens_eq hr]
  | marked run c m rest hr hm ih =>
    intro offset openings es h
    rw [scan_marked hr hm, entries_marked_eq_ok] at h
    obtain ⟨read, inside, others, hread, -, hothers, rfl⟩ := h
    obtain ⟨hms, -⟩ := Mention.mapM_read_eq_ok.1 hread
    have hmark : ¬ (Glyph.ofChar 0 c).isInner := by
      rw [Glyph.isInner_iff, Glyph.part_ofChar_eq_mark.2 ⟨rfl, hm⟩]
      exact nofun
    rw [List.map_append, hmentions hms, tokens_mentions, ih hothers, tokens_eq hr.unmarked,
      Glyph.ofChars_append, hr.closed, Glyph.ofChars, Glyph.depthAfter_of_not_isInner hmark,
      Glyph.tokens_append_cons _ _ hmark]

namespace Selector

/-- The fields at the root. -/
def fields : Selector → List Pick
  | nil => []
  | field pick rest => pick :: rest.fields
  | descend _ _ rest => rest.fields

/-- The subsets of the fields of this name, in order; a field taken whole has none. -/
def subsetsOn (s : Selector) (name : String) : List (Option Subset) :=
  (s.fields.filter (·.name == name)).map Pick.subset

section SubsetsOn

variable {pick : Pick} {rest : Selector} {key : String}

theorem subsetsOn_field_of_name (h : pick.name = key) :
    (field pick rest).subsetsOn key = pick.subset :: rest.subsetsOn key := by
  rw [subsetsOn, fields, List.filter_cons_of_pos (by simpa using h)]
  rfl

theorem subsetsOn_field_of_ne (h : pick.name ≠ key) :
    (field pick rest).subsetsOn key = rest.subsetsOn key := by
  rw [subsetsOn, fields, List.filter_cons_of_neg (by simpa using h)]
  rfl

theorem subsetsOn_descend (inner : Selector) :
    (descend pick inner rest).subsetsOn key = rest.subsetsOn key := rfl

end SubsetsOn

/-- Of two descents, the one leads to no more places than the other. -/
def Lighter (d d' : Pick × Selector) : Prop := d.2.count ≤ d'.2.count

instance : DecidableRel Lighter := fun d d' => Nat.decLe d.2.count d'.2.count

instance : Std.Total Lighter := ⟨fun _ _ => Nat.le_total _ _⟩

instance : IsTrans (Pick × Selector) Lighter := ⟨fun _ _ _ => Nat.le_trans⟩

theorem fields_eq_filterMap : ∀ s : Selector,
    s.fields = s.picks.filterMap fun x => if x.1 = .field then some x.2 else none
  | nil => rfl
  | field _ rest => by simp [fields, picks, fields_eq_filterMap rest]
  | descend _ _ rest => by simp [fields, picks, fields_eq_filterMap rest]

theorem nodup_fields {s : Selector} (h : s.picks.Nodup) : s.fields.Nodup := by
  rw [fields_eq_filterMap]
  refine h.filterMap fun x y pick hx hy => ?_
  obtain ⟨hxrole, hx⟩ := Option.ite_none_right_eq_some.1 hx
  obtain ⟨hyrole, hy⟩ := Option.ite_none_right_eq_some.1 hy
  exact Prod.ext (hxrole.trans hyrole.symm) (Option.some.inj (hx.trans hy.symm))

theorem map_fst_descents : ∀ s : Selector, s.descents.map (·.1) =
    s.picks.filterMap fun x => if x.1 = .descend then some x.2 else none
  | nil => rfl
  | field _ rest => by simp [descents, picks, map_fst_descents rest]
  | descend _ _ rest => by simp [descents, picks, map_fst_descents rest]

theorem Arranged.picks_eq {s : Selector} (h : s.Arranged) :
    s.picks = s.fields.map (.field, ·) ++ (s.descents.map (·.1)).map (.descend, ·) := by
  obtain ⟨fields, descents, hpicks⟩ := h.exists_picks
  rw [fields_eq_filterMap, map_fst_descents, hpicks]
  simp [List.filterMap_append, List.filterMap_map]

theorem fields_insertDescent (pick : Pick) (inner : Selector) :
    ∀ s : Selector, (insertDescent pick inner s).fields = s.fields
  | nil => rfl
  | field p rest => by rw [insertDescent, fields, fields_insertDescent pick inner rest, fields]
  | descend p i rest => by
    unfold insertDescent
    split
    · rfl
    · rw [fields, fields_insertDescent pick inner rest, fields]

theorem fields_arrange : ∀ s : Selector, s.arrange.fields = s.fields
  | nil => rfl
  | field p rest => by rw [arrange, fields, fields_arrange rest, fields]
  | descend p i rest => by rw [arrange, fields_insertDescent, fields_arrange rest, fields]

theorem insertDescent_descend (pick p : Pick) (inner i rest : Selector) :
    insertDescent pick inner (descend p i rest) =
      if Lighter (pick, inner) (p, i) then descend pick inner (descend p i rest)
      else descend p i (insertDescent pick inner rest) := rfl

theorem descents_insertDescent (pick : Pick) (inner : Selector) : ∀ s : Selector,
    (insertDescent pick inner s).descents = s.descents.orderedInsert Lighter (pick, inner)
  | nil => rfl
  | field _ rest => descents_insertDescent pick inner rest
  | descend p i rest => by
    rw [insertDescent_descend, descents, List.orderedInsert_cons]
    split
    · rfl
    · rw [descents, descents_insertDescent pick inner rest]

theorem descents_arrange : ∀ s : Selector,
    s.arrange.descents = (s.descents.map fun d => (d.1, d.2.arrange)).insertionSort Lighter
  | nil => rfl
  | field _ rest => descents_arrange rest
  | descend p inner rest => by
    rw [arrange, descents_insertDescent, descents_arrange rest, descents, List.map_cons,
      List.insertionSort_cons]

/-- Sorting keeps the order of the descents that lead to `n` places. -/
theorem filter_insertionSort (ds : List (Pick × Selector)) (n : Nat) :
    (ds.insertionSort Lighter).filter (·.2.count = n) = ds.filter (·.2.count = n) := by
  have hpairs : (ds.filter (·.2.count = n)).Pairwise Lighter := by
    refine List.pairwise_of_forall_mem_list fun d hd d' hd' => ?_
    have hd := of_decide_eq_true (List.mem_filter.1 hd).2
    have hd' := of_decide_eq_true (List.mem_filter.1 hd').2
    exact (hd.trans hd'.symm).le
  have hsub := (List.sublist_insertionSort hpairs List.filter_sublist).filter (·.2.count = n)
  rw [List.filter_filter] at hsub
  simp only [Bool.and_self] at hsub
  exact (hsub.eq_of_length (((List.perm_insertionSort Lighter ds).filter _).length_eq.symm)).symm

/-- What is left of a list without its repetitions, where no two elements give the same. -/
theorem filterMap_eraseDups {α β : Type} [BEq α] [LawfulBEq α] [BEq β] [LawfulBEq β]
    {f : α → Option β} (hf : ∀ a a' b, f a = some b → f a' = some b → a = a') (as : List α) :
    as.eraseDups.filterMap f = (as.filterMap f).eraseDups := by
  induction as using List.reverseRecOn with
  | nil => rfl
  | append_singleton as a ih =>
    rw [eraseDups_concat, List.filterMap_append]
    cases ha : f a with
    | none =>
      have hone : [a].filterMap f = [] := by simp [ha]
      rw [hone, List.append_nil, ← ih]
      split
      · rfl
      · rw [List.filterMap_append, hone, List.append_nil]
    | some b =>
      have hone : [a].filterMap f = [b] := by simp [ha]
      have hmem : b ∈ as.filterMap f ↔ a ∈ as := by
        rw [List.mem_filterMap]
        refine ⟨?_, fun hm => ⟨a, hm, ha⟩⟩
        rintro ⟨a', hm, ha'⟩
        rwa [hf a a' b ha ha']
      rw [hone, eraseDups_concat, ← ih]
      by_cases hm : a ∈ as
      · rw [if_pos hm, if_pos (hmem.2 hm)]
      · rw [if_neg hm, if_neg (mt hmem.1 hm), List.filterMap_append, hone]

/-- The picks of a role that entries put at an address, each where it comes first. -/
def firsts (es : List Entry) (role : Role) (address : String) : List Pick :=
  ((es.filter fun e => e.role = role ∧ Address.ofPath e.place = address).map
    Entry.pick).eraseDups

/-- At a place, what stands there before arranging is what the entries put at its address. -/
theorem filterMap_picks_eq_firsts {es : List Entry}
    (h : Mention.InOrder (es.map Entry.mention)) (hpath : ∀ e ∈ es, Address.IsPath e.place)
    {path : List String} (hp : Address.IsPath path) (role : Role) :
    ((follow path (es.foldl addEntry nil)).picks.filterMap fun x =>
      if x.1 = role then some x.2 else none) = firsts es role (Address.ofPath path) := by
  have hinj : ∀ (x x' : Role × Pick) (pick : Pick),
      (if x.1 = role then some x.2 else none) = some pick →
        (if x'.1 = role then some x'.2 else none) = some pick → x = x' := by
    intro x x' pick hx hx'
    obtain ⟨hrole, hpick⟩ := Option.ite_none_right_eq_some.1 hx
    obtain ⟨hrole', hpick'⟩ := Option.ite_none_right_eq_some.1 hx'
    exact Prod.ext (hrole.trans hrole'.symm) (Option.some.inj (hpick.trans hpick'.symm))
  have hplace : ∀ e ∈ es, (e.place = path ↔ Address.ofPath e.place = Address.ofPath path) :=
    fun e he => ⟨fun heq => by rw [heq], Address.ofPath_injective (hpath e he) hp⟩
  rw [picks_follow_foldl h, filterMap_eraseDups hinj, firsts, List.filterMap_map,
    List.filterMap_filter, ← List.filterMap_eq_map, List.filterMap_filter]
  refine congrArg List.eraseDups (List.filterMap_congr fun e he => ?_)
  by_cases hrole : e.role = role <;> by_cases hp : e.place = path <;>
    simp [hrole, hp, ← hplace e he]

/-- A descent shares with the selector what it leads to. -/
theorem Sound.sharedCount_child {s : Selector} (h : s.Sound) {address : String}
    {d : Pick × Selector} (hd : d ∈ (s.atAddress address).descents) :
    s.sharedCount (Address.child address d.1.token) = d.2.count := by
  obtain ⟨path, -, -, hp, hchild, hf⟩ := h.exists_path_of_mem_descents hd
  rw [← hchild, h.sharedCount_eq_count hp (by simp), hf]

/-- An address that descents lead to from the root, each picked where the ones before it lead. -/
inductive Reachable (s : Selector) : String → Prop
  | root : Reachable s ""
  | descend {address : String} {pick : Pick} (h : Reachable s address)
      (hm : (.descend, pick) ∈ (s.atAddress address).picks) :
      Reachable s (Address.child address pick.token)

/-- A descent leads to every occupied place but the root. -/
theorem Sound.exists_descent {s : Selector} (h : s.Sound) {path : List String} {token : String}
    (hne : Selector.follow (path ++ [token]) s ≠ nil) :
    Address.ofPath path ∈ s.addresses ∧ ∃ pick : Pick, pick.token = token
      ∧ (.descend, pick) ∈ (s.atAddress (Address.ofPath path)).picks
      ∧ Address.child (Address.ofPath path) token = Address.ofPath (path ++ [token]) := by
  have hp := (Address.isPath_append.1 (h.isPath hne)).1
  rw [follow_concat] at hne
  obtain ⟨pick, htoken, hm⟩ := exists_of_inside_ne_nil hne
  refine ⟨h.mem_addresses.2 ⟨path, rfl, fun hnil => ?_⟩, pick, htoken, ?_,
    (Address.ofPath_concat hp token).symm⟩
  · rw [hnil] at hne
    exact hne rfl
  · rw [h.atAddress_ofPath hp]
    exact mem_picks_iff_mem_descents.2 ⟨_, hm⟩

theorem Sound.reachable {s : Selector} (h : s.Sound) {path : List String}
    (hne : Selector.follow path s ≠ nil) : s.Reachable (Address.ofPath path) := by
  induction path using List.reverseRecOn with
  | nil => exact .root
  | append_singleton path token ih =>
    obtain ⟨-, pick, rfl, hm, haddr⟩ := h.exists_descent hne
    rw [← haddr]
    refine .descend (ih fun hnil => hne ?_) hm
    rw [follow_concat, hnil]
    rfl

/-- What arranging makes of the picks at an address: fields first, then the descents by what they
share, those that share the same number in the order they had. -/
theorem Sound.exists_descents {s t : Selector} (h : s.Sound) {address : String}
    (ht : s.atAddress address = t.arrange) : ∃ descents : List Pick,
      (s.atAddress address).picks = t.fields.map (.field, ·) ++ descents.map (.descend, ·)
        ∧ (descents.Pairwise fun p q => s.sharedCount (Address.child address p.token)
            ≤ s.sharedCount (Address.child address q.token))
        ∧ ∀ n, (descents.filter fun p => s.sharedCount (Address.child address p.token) = n) =
            (t.descents.map (·.1)).filter fun p =>
              s.sharedCount (Address.child address p.token) = n := by
  have hcount : ∀ d ∈ t.arrange.descents,
      s.sharedCount (Address.child address d.1.token) = d.2.count := by
    rw [← ht]
    exact fun d hd => h.sharedCount_child hd
  refine ⟨t.arrange.descents.map (·.1), ?_, ?_, fun n => ?_⟩
  · rw [ht, (arranged_arrange t).picks_eq, fields_arrange]
  · have hsorted : t.arrange.descents.Pairwise Lighter := by
      rw [descents_arrange]
      exact List.pairwise_insertionSort _ _
    refine List.pairwise_map.2 (hsorted.imp_of_mem fun hd hd' hle => ?_)
    rw [hcount _ hd, hcount _ hd']
    exact hle
  · have hfilter : ∀ ds : List (Pick × Selector), (∀ d ∈ ds, d ∈ t.arrange.descents) →
        ((ds.map (·.1)).filter fun p => s.sharedCount (Address.child address p.token) = n) =
          (ds.filter (·.2.count = n)).map (·.1) := by
      intro ds hds
      rw [List.filter_map]
      refine congrArg _ (List.filter_congr fun d hd => ?_)
      simp [hcount d (hds d hd)]
    have hbefore : t.descents.map (·.1) =
        (t.descents.map fun d => (d.1, d.2.arrange)).map (·.1) := by
      rw [List.map_map]
      rfl
    rw [hfilter _ fun d hd => hd, hbefore, hfilter, descents_arrange, filter_insertionSort]
    intro d hd
    rw [descents_arrange]
    exact (List.mem_insertionSort _).2 hd

/-- The list of an address in the index, as the entries of the text give it. -/
structure WellFormedAt (s : Selector) (es : List Entry) (address : String) : Prop where
  nonempty : (s.atAddress address).picks ≠ []
  nodup : ((s.atAddress address).picks.map fun x => (x.1, x.2.token)).Nodup
  ofToken : ∀ x ∈ (s.atAddress address).picks,
    Subset.ofToken? x.2.token = .ok (x.2.subset.map (x.2.name, ·))
      ∧ (x.2.subset = none → x.2.name = x.2.token)
  order : ∃ descents : List Pick,
    (s.atAddress address).picks =
        (firsts es .field address).map (.field, ·) ++ descents.map (.descend, ·)
      ∧ (descents.Pairwise fun p q => s.sharedCount (Address.child address p.token)
          ≤ s.sharedCount (Address.child address q.token))
      ∧ ∀ n, (descents.filter fun p => s.sharedCount (Address.child address p.token) = n) =
          (firsts es .descend address).filter fun p =>
            s.sharedCount (Address.child address p.token) = n
  parent : address ≠ "" → ∃ parent ∈ s.addresses, parent ≠ address ∧ ∃ pick : Pick,
    (.descend, pick) ∈ (s.atAddress parent).picks ∧ Address.child parent pick.token = address
  reachable : s.Reachable address

/-- Every address of a selector that a text writes has its list of picks from the entries of the
text, and descents lead to it from the root. No entry is lost: its address is one of these, and its
pick stands there. -/
theorem wellFormedAt_of_parse {text : String} {s : Selector} (h : parse text = .ok s) :
    ∃ es, Outline.entries [] (ofChars text.toList) = .ok es
      ∧ es.map (·.pick.token) = Glyph.tokens (Glyph.ofChars 0 text.toList)
      ∧ (∀ e ∈ es, Address.ofPath e.place ∈ s.addresses
        ∧ (e.role, e.pick) ∈ (s.atAddress (Address.ofPath e.place)).picks)
      ∧ ∀ address ∈ s.addresses, s.WellFormedAt es address := by
  have hs := sound_of_parse h
  obtain ⟨es, he, hpicks, hnodup⟩ := exists_entries_of_parse h
  obtain rfl : s = ofEntries es := by
    obtain ⟨es', he', rfl⟩ := exists_of_parse h
    rw [Except.ok.inj (he.symm.trans he')]
  refine ⟨es, he, tokens_entries _ he, fun e hm => ?_, fun address ha => ?_⟩
  · have hx := (hpicks e.place _).2 ⟨e, hm, rfl, rfl⟩
    have hne : follow e.place (ofEntries es) ≠ nil := fun hnil => by simp [hnil, picks] at hx
    refine ⟨hs.mem_addresses.2 ⟨_, rfl, hne⟩, ?_⟩
    rwa [hs.atAddress_ofPath (hs.isPath hne)]
  obtain ⟨path, rfl, hne⟩ := hs.mem_addresses.1 ha
  have hp := hs.isPath hne
  have hat := hs.atAddress_ofPath hp
  have hsound := hs.atAddress (Address.ofPath path)
  refine ⟨?_, ?_, fun x hx => Pick.ofToken_eq_ok (hsound.ofToken_of_mem_picks hx), ?_,
    fun hroot => ?_, hs.reachable hne⟩
  · rw [hat]
    exact picks_ne_nil hne
  · rw [hat] at hsound ⊢
    refine (hnodup path).map_on fun x hx y hy heq => ?_
    obtain ⟨hrole, htoken⟩ := Prod.mk.inj heq
    have hx := hsound.ofToken_of_mem_picks hx
    rw [htoken, hsound.ofToken_of_mem_picks hy] at hx
    exact Prod.ext hrole (Except.ok.inj hx).symm
  · have horder : Mention.InOrder (es.map Entry.mention) :=
      inOrder_entries _ he .nil (Mention.leadTo_nil [])
    have hplaces : ∀ e ∈ es, Address.IsPath e.place := fun e he' =>
      isPath_of_opens (opens_of_mem_entries he he').1
    have hbefore := filterMap_picks_eq_firsts horder hplaces hp
    rw [ofEntries, (sound_foldl he).follow_arrange path] at hat
    rw [← hbefore .field, ← hbefore .descend, ← fields_eq_filterMap, ← map_fst_descents]
    exact hs.exists_descents hat
  · rcases List.eq_nil_or_concat path with rfl | ⟨path, token, rfl⟩
    · exact absurd Address.ofPath_nil hroot
    · rw [List.concat_eq_append] at hne hp ⊢
      obtain ⟨hparent, pick, rfl, hm, haddr⟩ := hs.exists_descent hne
      refine ⟨_, hparent, fun heq => ?_, pick, hm, haddr⟩
      have heq := Address.ofPath_injective (Address.isPath_append.1 hp).1 hp heq
      simp at heq

theorem wellFormedAt_of_parse_reordered :
    ∃ s es, parse "p\x7bq r\x7bs\x7d\x7d a[2] o\x7bt\x7d a[2] p\x7bq\x7d" = .ok s
      ∧ Outline.entries []
        (ofChars "p\x7bq r\x7bs\x7d\x7d a[2] o\x7bt\x7d a[2] p\x7bq\x7d".toList) = .ok es
      ∧ es.map (fun e => (e.place, e.role, e.pick.token)) =
        [([], .descend, "p"), (["p"], .field, "q"), (["p"], .descend, "r"),
          (["p", "r"], .field, "s"), ([], .field, "a[2]"), ([], .descend, "o"),
          (["o"], .field, "t"), ([], .field, "a[2]"), ([], .descend, "p"), (["p"], .field, "q")]
      ∧ (s.atAddress "").picks = [(.field, ⟨"a[2]", "a", some ⟨some 1, some 1⟩⟩),
        (.descend, ⟨"o", "o", none⟩), (.descend, ⟨"p", "p", none⟩)]
      ∧ (∀ e ∈ es, (e.role, e.pick) ∈ (s.atAddress (Address.ofPath e.place)).picks)
      ∧ s.WellFormedAt es "" ∧ s.WellFormedAt es "p.r" := by
  have hparse : parse "p\x7bq r\x7bs\x7d\x7d a[2] o\x7bt\x7d a[2] p\x7bq\x7d" = .ok
      (.field ⟨"a[2]", "a", some ⟨some 1, some 1⟩⟩
        (.descend ⟨"o", "o", none⟩ (.field ⟨"t", "t", none⟩ .nil)
          (.descend ⟨"p", "p", none⟩ (.field ⟨"q", "q", none⟩ (.descend ⟨"r", "r", none⟩
            (.field ⟨"s", "s", none⟩ .nil) .nil)) .nil))) := by
    decide
  obtain ⟨es, he, -, hkept, hall⟩ := wellFormedAt_of_parse hparse
  have hs := sound_of_parse hparse
  have hroot := hs.mem_addresses.2 ⟨[], rfl, by decide⟩
  have hinner := hs.mem_addresses.2 ⟨["p", "r"], rfl, by decide⟩
  have hes : (Outline.entries []
      (ofChars "p\x7bq r\x7bs\x7d\x7d a[2] o\x7bt\x7d a[2] p\x7bq\x7d".toList)).map
        (List.map fun e => (e.place, e.role, e.pick.token)) = .ok
      [([], .descend, "p"), (["p"], .field, "q"), (["p"], .descend, "r"),
        (["p", "r"], .field, "s"), ([], .field, "a[2]"), ([], .descend, "o"),
        (["o"], .field, "t"), ([], .field, "a[2]"), ([], .descend, "p"), (["p"], .field, "q")] := by
    decide
  rw [he] at hes
  exact ⟨_, es, hparse, he, Except.ok.inj hes, by decide, fun e hm => (hkept e hm).2, hall _ hroot,
    hall _ hinner⟩

end Selector

end JsonSelect
