import JsonSelect.Proofs.Places
import Mathlib.Data.List.Nodup

/-!
# Counting addresses

Among addresses of words, those at or below one are those whose words begin with its words
(`Address.isAtOrBelow_ofPath`). The places of a selector are distinct
(`Selector.Sound.nodup_places`), so what is shared with an address is a number of places
(`Selector.Sound.sharedCount_ofPath`), and this is the number of places that the selector found
there occupies (`Selector.Sound.sharedCount_eq_count`).
-/

namespace JsonSelect

open Outline

namespace Address

/-- Cutting what starts with an address and a dot gives the words of the address first. -/
theorem runs_ofPath_append (cs : List Char) : ∀ {path : List String}, IsPath path → path ≠ [] →
    ∀ offset, ∃ offset', (scan 0 offset ((ofPath path).toList ++ '.' :: cs)).runs =
      path ++ (scan 0 offset' cs).runs
  | [], _, hne, _ => absurd rfl hne
  | [t], h, _, offset => by
    rw [ofPath_singleton, scan_marked (isPath_singleton.1 h).clean rfl, runs, String.ofList_toList]
    exact ⟨_, rfl⟩
  | t :: u :: path, h, _, offset => by
    obtain ⟨ht, hp⟩ := isPath_cons.1 h
    rw [toList_ofPath_cons (List.cons_ne_nil _ _), List.append_assoc, List.cons_append,
      scan_marked ht.clean rfl, runs, String.ofList_toList]
    obtain ⟨offset', hruns⟩ := runs_ofPath_append cs hp (List.cons_ne_nil _ _) _
    rw [hruns]
    exact ⟨offset', rfl⟩

theorem ofPath_append {path path' : List String} (h : path ≠ []) (h' : path' ≠ []) :
    ofPath (path ++ path') = ofPath path ++ "." ++ ofPath path' :=
  String.intercalate_append_of_ne_nil h h'

theorem isAtOrBelow_ofPath {path path' : List String} (h : IsPath path) (h' : IsPath path')
    (hne : path ≠ []) : isAtOrBelow (ofPath path) (ofPath path') = path.isPrefixOf path' := by
  rw [Bool.eq_iff_iff, isAtOrBelow, Bool.or_eq_true, beq_iff_eq, List.isPrefixOf_iff_prefix,
    List.isPrefixOf_iff_prefix]
  constructor
  · rintro (heq | ⟨cs, hcs⟩)
    · obtain rfl := ofPath_injective h' h heq
      exact List.prefix_rfl
    · have hne' : path' ≠ [] := by
        rintro rfl
        simp [ofPath_nil] at hcs
      have htext : (ofPath path').toList = (ofPath path).toList ++ '.' :: cs := by
        rw [← hcs, String.toList_append, List.append_assoc]
        rfl
      obtain ⟨offset', hruns⟩ := runs_ofPath_append cs h hne 0
      rw [← htext, runs_ofPath h' hne'] at hruns
      exact ⟨_, hruns.symm⟩
  · rintro ⟨more, rfl⟩
    by_cases hmore : more = []
    · left
      rw [hmore, List.append_nil]
    · right
      rw [ofPath_append hne hmore, String.toList_append, String.toList_append, String.toList_append]
      exact List.prefix_append _ _

end Address

namespace Selector

theorem placesBelow_cons (p : Pick) (inner rest : Selector) (place : List String) :
    (descend p inner rest).placesBelow place =
      (if inner.isEmpty then []
        else (place ++ [p.token], inner) :: inner.placesBelow (place ++ [p.token]))
        ++ rest.placesBelow place := rfl

theorem placesBelow_eq_map : ∀ (s : Selector) (place : List String),
    s.placesBelow place = (s.placesBelow []).map fun e => (place ++ e.1, e.2)
  | nil, _ => rfl
  | field _ rest, place => placesBelow_eq_map rest place
  | descend p inner rest, place => by
    rw [placesBelow_cons, placesBelow_cons, placesBelow_eq_map inner (place ++ [p.token]),
      placesBelow_eq_map inner ([] ++ [p.token]), placesBelow_eq_map rest place, List.map_append]
    congr 1
    split
    · rfl
    · simp

/-- The places behind a descent start with its token. -/
theorem placesBelow_descend (p : Pick) (inner rest : Selector) :
    (descend p inner rest).placesBelow [] =
      inner.places.map (fun e => (p.token :: e.1, e.2)) ++ rest.placesBelow [] := by
  rw [placesBelow_cons, placesBelow_eq_map inner, places]
  congr 1
  split
  · rfl
  · simp

theorem exists_token_of_mem_placesBelow {e : List String × Selector} : ∀ {s : Selector},
    e ∈ s.placesBelow [] → ∃ d ∈ s.descents, ∃ path, e.1 = d.1.token :: path
  | field _ rest, h => exists_token_of_mem_placesBelow (s := rest) h
  | descend p inner rest, h => by
    rw [placesBelow_descend, List.mem_append] at h
    rcases h with h | h
    · obtain ⟨e, -, rfl⟩ := List.mem_map.1 h
      exact ⟨(p, inner), .head _, e.1, rfl⟩
    · obtain ⟨d, hd, path, he⟩ := exists_token_of_mem_placesBelow h
      exact ⟨d, .tail _ hd, path, he⟩

theorem nodup_cons_placesBelow {s : Selector} (h : ((s.placesBelow []).map (·.1)).Nodup) :
    (s.places.map (·.1)).Nodup := by
  unfold places
  split
  · exact .nil
  · refine List.nodup_cons.2 ⟨fun hm => ?_, h⟩
    obtain ⟨e, he, hnil⟩ := List.mem_map.1 hm
    obtain ⟨d, -, path, hpath⟩ := exists_token_of_mem_placesBelow he
    exact List.cons_ne_nil _ _ (hpath.symm.trans hnil)

theorem Sound.nodup_placesBelow : ∀ {s : Selector}, s.Sound →
    ((s.placesBelow []).map (·.1)).Nodup
  | nil, _ => .nil
  | field _ _, h => h.2.nodup_placesBelow
  | descend p inner rest, h => by
    rw [placesBelow_descend, List.map_append, List.map_map]
    refine List.nodup_append.2 ⟨?_, h.2.2.2.2.nodup_placesBelow, ?_⟩
    · have hinner := nodup_cons_placesBelow h.2.2.2.1.nodup_placesBelow
      have hmap := hinner.map (f := (p.token :: ·)) fun _ _ heq => (List.cons.inj heq).2
      rwa [List.map_map] at hmap
    · -- the places behind the other descents start with other tokens
      rintro _ hin _ hrest rfl
      obtain ⟨e, -, he⟩ := List.mem_map.1 hin
      obtain ⟨e', he', heq⟩ := List.mem_map.1 hrest
      obtain ⟨d, hd, path, hpath⟩ := exists_token_of_mem_placesBelow he'
      have htoken := he.trans (heq.symm.trans hpath)
      exact h.2.2.1 d hd (List.cons.inj htoken).1.symm

theorem Sound.nodup_places {s : Selector} (h : s.Sound) : (s.places.map (·.1)).Nodup :=
  nodup_cons_placesBelow h.nodup_placesBelow

theorem Sound.isPath_of_mem_places {s : Selector} (h : s.Sound) {e : List String × Selector}
    (he : e ∈ s.places) : Address.IsPath e.1 := by
  obtain ⟨hf, hne⟩ := h.mem_places.1 he
  exact h.isPath (by rwa [hf])

/-- Every occupied place has an address of its own. -/
theorem Sound.nodup_addresses {s : Selector} (h : s.Sound) : s.addresses.Nodup := by
  refine (List.mergeSort_perm _ _).nodup_iff.2 ?_
  have hmap : s.index.map (·.1) = (s.places.map (·.1)).map Address.ofPath := by
    unfold index
    rw [List.map_map, List.map_map]
    rfl
  rw [hmap]
  refine h.nodup_places.map_on fun path hp path' hp' heq => ?_
  obtain ⟨e, he, rfl⟩ := List.mem_map.1 hp
  obtain ⟨e', he', rfl⟩ := List.mem_map.1 hp'
  exact Address.ofPath_injective (h.isPath_of_mem_places he) (h.isPath_of_mem_places he') heq

theorem Sound.sharedCount_ofPath {s : Selector} (h : s.Sound) {path : List String}
    (hp : Address.IsPath path) (hne : path ≠ []) :
    s.sharedCount (Address.ofPath path) = s.places.countP fun e => path.isPrefixOf e.1 := by
  unfold sharedCount index
  rw [List.countP_map]
  refine List.countP_congr fun e he => ?_
  have := Address.isAtOrBelow_ofPath hp (h.isPath_of_mem_places he) hne
  simp [this]

theorem length_placesBelow : ∀ s : Selector, (s.placesBelow []).length = s.countBelow
  | nil => rfl
  | field _ rest => length_placesBelow rest
  | descend p inner rest => by
    have hinner := length_placesBelow inner
    rw [placesBelow_descend, List.length_append, length_placesBelow rest, List.length_map, places,
      countBelow]
    split
    · rfl
    · rw [List.length_cons, hinner]

theorem length_places (s : Selector) : s.places.length = s.count := by
  unfold places count
  split
  · rfl
  · rw [List.length_cons, length_placesBelow]

theorem Sound.countP_placesBelow {token : String} {path : List String} : ∀ {s : Selector},
    s.Sound → (s.placesBelow []).countP (fun e => (token :: path).isPrefixOf e.1) =
      (s.inside token).places.countP fun e => path.isPrefixOf e.1
  | nil, _ => rfl
  | field _ _, h => h.2.countP_placesBelow
  | descend p inner rest, h => by
    rw [placesBelow_descend, List.countP_append, List.countP_map, h.2.2.2.2.countP_placesBelow,
      inside]
    by_cases hp : p.token = token
    · have hrest : rest.inside token = nil := inside_eq_nil fun d hd => hp ▸ h.2.2.1 d hd
      rw [if_pos hp, hrest]
      simp [Function.comp_def, List.isPrefixOf, hp, places, isEmpty]
    · rw [if_neg hp]
      simp [Function.comp_def, List.isPrefixOf, Ne.symm hp]

/-- The places that begin with a path are those of the selector found along it. -/
theorem Sound.countP_places : ∀ (path : List String) {s : Selector}, s.Sound →
    s.places.countP (fun e => path.isPrefixOf e.1) = (Selector.follow path s).count
  | [], s, _ => by
    rw [Selector.follow, ← length_places]
    simp [List.isPrefixOf]
  | token :: path, s, h => by
    have hinside : (s.inside token).Sound := h.follow [token]
    rw [Selector.follow, ← hinside.countP_places path, ← h.countP_placesBelow, places]
    cases s with
    | nil => rfl
    | _ => simp [isEmpty, List.isPrefixOf]

theorem Sound.sharedCount_eq_count {s : Selector} (h : s.Sound) {path : List String}
    (hp : Address.IsPath path) (hne : path ≠ []) :
    s.sharedCount (Address.ofPath path) = (Selector.follow path s).count := by
  rw [h.sharedCount_ofPath hp hne, h.countP_places path]

end Selector

end JsonSelect
