import JsonSelect.Proofs.Occurrences
import JsonSelect.Proofs.Unmerged
import Mathlib.Algebra.Order.Ring.Nat

/-!
# Fields taken twice

Descents add nothing to a field that is taken whole, but fields with subsets do: what they cut out
of the value is merged with it, in the order of the picks. Merging parts of one value adds up the
elements of its arrays (`Json.weight_merge`), and what has none of its own is absorbed
(`Json.merge_of_weight`). So the field keeps its value just if no subset of it cuts out an element
again (`Selector.get?_retain_of_whole`).
-/

namespace JsonSelect

namespace Object

theorem modify_of_not_mem {key : String} {f : Json → Json} {o : Object} (h : key ∉ o.keys) :
    o.modify key f = o := by
  refine (List.map_congr_left fun m hm => ?_).trans o.map_id
  have hne : m.1 ≠ key := by
    rintro rfl
    exact h (List.mem_map_of_mem hm)
  rw [if_neg hne]
  rfl

theorem HasDistinctKeys.insert_self {o : Object} (h : o.HasDistinctKeys) {key : String} {v : Json}
    (hv : o.get? key = some v) : o.insert key v = o := by
  rw [Object.insert, if_pos (by rw [hv]; rfl)]
  refine (List.map_congr_left fun m hm => ?_).trans o.map_id
  split
  · next hk =>
    have hm : o.get? m.1 = some m.2 := h.get?_eq hm
    rw [hk, hv] at hm
    rw [Option.some.inj hm]
    rfl
  · rfl

end Object

namespace Json

mutual

theorem proper_merge : ∀ {a b : Json}, a.Proper → b.Proper → (a.merge b).Proper
  | a, arr more, ha, hb => by
    cases a with
    | arr items => exact .arr (List.forall_mem_append.2 ⟨proper_arr.1 ha, proper_arr.1 hb⟩)
    | _ => exact hb
  | a, obj more, ha, hb => by
    cases a with
    | obj members => exact proper_mergeMembers ha (proper_obj.1 hb).2
    | _ => exact hb
  | _, null, _, hb | _, bool _, _, hb | _, num _, _, hb | _, str _, _, hb => hb

theorem proper_mergeMembers : ∀ {members : Object} {more : List (String × Json)},
    (obj members).Proper → (∀ m ∈ more, m.2.Proper) → (obj (mergeMembers members more)).Proper
  | _, [], h, _ => h
  | members, (key, value) :: more, h, hmore => by
    obtain ⟨hvalue, hmore⟩ := List.forall_mem_cons.1 hmore
    rw [mergeMembers]
    refine proper_mergeMembers (h.insert ?_) hmore
    cases hexisting : members.get? key with
    | none => exact hvalue
    | some existing => exact proper_merge (h.of_get? hexisting) hvalue

end

mutual

/-- The number of elements of the arrays in a value, without what is inside these elements. -/
def weight : Json → Nat
  | arr items => items.length
  | obj members => weightMembers members
  | _ => 0

def weightMembers : List (String × Json) → Nat
  | [] => 0
  | (_, value) :: members => value.weight + weightMembers members

end

theorem weightMembers_append (members more : List (String × Json)) :
    weightMembers (members ++ more) = weightMembers members + weightMembers more := by
  induction members with
  | nil => exact (Nat.zero_add _).symm
  | cons m members ih =>
    rw [List.cons_append, weightMembers, ih, weightMembers, Nat.add_assoc]

theorem weightMembers_insert_of_none {o : Object} {key : String} (h : o.get? key = none)
    (v : Json) : weightMembers (o.insert key v) = weightMembers o + v.weight := by
  rw [Object.insert, h, if_neg (by decide), weightMembers_append]
  rfl

theorem weightMembers_modify {o : Object} {key : String} {v w : Json} (ho : o.HasDistinctKeys)
    (h : o.get? key = some v) :
    weightMembers (o.modify key fun _ => w) + v.weight = weightMembers o + w.weight := by
  induction o with
  | nil => exact absurd h nofun
  | cons m o ih =>
    obtain ⟨hm, ho⟩ := List.nodup_cons.1 ho
    rw [Object.get?_cons] at h
    have hcons : Object.modify (m :: o) key (fun _ => w) =
        (if m.1 = key then (m.1, w) else m) :: Object.modify o key fun _ => w := rfl
    rw [hcons]
    split at h
    · next hk =>
      obtain rfl := Option.some.inj h
      rw [if_pos hk.symm, Object.modify_of_not_mem (hk ▸ hm), weightMembers, weightMembers]
      omega
    · next hk =>
      have ih := ih ho h
      rw [if_neg (Ne.symm hk), weightMembers, weightMembers]
      omega

mutual

/-- Nothing is lost or replaced when parts of one value are merged. -/
theorem weight_merge : ∀ {a b w : Json}, a.Within w → b.Within w → a.Proper → b.Proper →
    (a.merge b).weight = a.weight + b.weight
  | a, arr more, _, ha, hb, _, _ => by
    obtain ⟨others, rfl, -⟩ := hb
    cases a with
    | arr items => exact List.length_append
    | obj members => obtain ⟨_, ⟨⟩, -⟩ := ha
    | _ => cases ha
  | a, obj more, _, ha, hb, hpa, hpb => by
    obtain ⟨o, rfl, hmore⟩ := hb
    cases a with
    | obj members =>
      obtain ⟨_, ⟨⟩, hmembers⟩ := ha
      exact weightMembers_mergeMembers hmembers hmore hpa (proper_obj.1 hpb).2
    | arr items => obtain ⟨_, ⟨⟩, -⟩ := ha
    | _ => cases ha
  | _, null, _, ha, hb, _, _ | _, bool _, _, ha, hb, _, _ | _, num _, _, ha, hb, _, _
  | _, str _, _, ha, hb, _, _ => by
    obtain rfl := hb
    rw [ha.eq_of_isContainer rfl]
    rfl

theorem weightMembers_mergeMembers : ∀ {members o : Object} {more : List (String × Json)},
    WithinMembers members o → WithinMembers more o → (obj members).Proper →
    (∀ m ∈ more, m.2.Proper) →
      weightMembers (mergeMembers members more) = weightMembers members + weightMembers more
  | _, _, [], _, _, _, _ => rfl
  | members, o, (key, value) :: more, h, ⟨⟨w, hw, hv⟩, hmore⟩, hp, hpm => by
    obtain ⟨hvalue, hpm⟩ := List.forall_mem_cons.1 hpm
    unfold mergeMembers
    cases hexisting : members.get? key with
    | none =>
      rw [weightMembers_mergeMembers (h.insert hw hv) hmore (hp.insert hvalue) hpm,
        weightMembers_insert_of_none hexisting, weightMembers, Nat.add_assoc]
    | some existing =>
      have hwithin := h.of_get? hexisting hw
      have hproper := hp.of_get? hexisting
      have hmodify := weightMembers_modify (w := existing.merge value) hp.distinct hexisting
      dsimp only
      rw [weightMembers_mergeMembers (h.insert hw (hwithin.merge hv)) hmore
          (hp.insert (proper_merge hproper hvalue)) hpm,
        Object.insert, hexisting, if_pos Option.isSome_some, weightMembers]
      rw [weight_merge hwithin hv hproper hvalue] at hmodify
      omega

end

mutual

/-- A part of a value that has no elements of its own adds nothing to it. -/
theorem merge_of_weight : ∀ {b a : Json}, b.weight = 0 → b.Within a → a.Proper → a.merge b = a
  | arr more, _, h, hb, _ => by
    obtain ⟨others, rfl, -⟩ := hb
    rw [List.length_eq_zero_iff.1 h]
    exact congrArg arr others.append_nil
  | obj more, _, h, hb, hp => by
    obtain ⟨o, rfl, hmore⟩ := hb
    exact congrArg obj (mergeMembers_of_weight h hmore hp)
  | null, _, _, hb, _ | bool _, _, _, hb, _ | num _, _, _, hb, _ | str _, _, _, hb, _ => hb

theorem mergeMembers_of_weight : ∀ {more : List (String × Json)} {o : Object},
    weightMembers more = 0 → WithinMembers more o → (obj o).Proper → mergeMembers o more = o
  | [], _, _, _, _ => rfl
  | (key, value) :: more, o, h, ⟨⟨w, hw, hv⟩, hmore⟩, hp => by
    rw [weightMembers] at h
    unfold mergeMembers
    rw [hw]
    dsimp only
    rw [merge_of_weight (by omega) hv (hp.of_get? hw), hp.distinct.insert_self hw]
    exact mergeMembers_of_weight (by omega) hmore hp

end

/-- The value under a key with another one merged into it. -/
def mergeOnto (existing : Option Json) (v : Json) : Option Json :=
  some ((existing.map (·.merge v)).getD v)

/-- Values merged in their order, if there are any. -/
def mergeAll (vs : List Json) : Option Json := vs.foldl mergeOnto none

theorem foldl_mergeOnto_eq_self {e : Json} : ∀ {vs : List Json}, (∀ v ∈ vs, e.merge v = e) →
    vs.foldl mergeOnto (some e) = some e
  | [], _ => rfl
  | v :: vs, h => by
    obtain ⟨hv, hvs⟩ := List.forall_mem_cons.1 h
    have hmerge : mergeOnto (some e) v = some e := congrArg some hv
    rw [List.foldl_cons, hmerge, foldl_mergeOnto_eq_self hvs]

theorem weight_foldl_mergeOnto {w : Json} : ∀ {vs : List Json} {e r : Json},
    (∀ v ∈ vs, v.Within w ∧ v.Proper) → e.Within w → e.Proper →
    vs.foldl mergeOnto (some e) = some r → r.weight = e.weight + (vs.map weight).sum
  | [], _, _, _, _, _, h => by
    obtain rfl := Option.some.inj h
    rfl
  | v :: vs, e, r, hvs, he, hp, h => by
    obtain ⟨⟨hv, hpv⟩, hvs⟩ := List.forall_mem_cons.1 hvs
    rw [weight_foldl_mergeOnto hvs (he.merge hv) (proper_merge hp hpv) h, weight_merge he hv hp hpv,
      List.map_cons, List.sum_cons, Nat.add_assoc]

theorem weight_mergeAll {w : Json} {vs : List Json} {r : Json}
    (hvs : ∀ v ∈ vs, v.Within w ∧ v.Proper) (h : mergeAll vs = some r) :
    r.weight = (vs.map weight).sum := by
  cases vs with
  | nil => exact absurd h nofun
  | cons v vs =>
    obtain ⟨⟨hv, hpv⟩, hvs⟩ := List.forall_mem_cons.1 hvs
    rw [weight_foldl_mergeOnto hvs hv hpv h, List.map_cons, List.sum_cons]

end Json

namespace Object

theorem get?_addAll (key : String) : ∀ (parts : List (String × Json)) (o : Object),
    (o.addAll parts).get? key =
      ((parts.filter (·.1 == key)).map (·.2)).foldl Json.mergeOnto (o.get? key)
  | [], _ => rfl
  | part :: parts, o => by
    rw [addAll_cons, get?_addAll key parts, get?_add, List.filter_cons]
    by_cases hk : part.1 = key
    · rw [if_pos hk.symm, if_pos (by simpa using hk), List.map_cons, List.foldl_cons, hk]
      rfl
    · rw [if_neg (Ne.symm hk), if_neg (by simpa using hk)]

end Object

namespace Selector

theorem parts_on {whole : List String} {node : Object} {key : String} {v : Json}
    (hwhole : whole.contains key) (hv : node.get? key = some v) : ∀ s : Selector,
    ((s.parts whole node).filter (·.1 == key)).map (·.2) = (s.subsetsOn key).map (cut · v)
  | nil => rfl
  | field pick rest => by
    rw [parts, List.filter_append, List.map_append, parts_on hwhole hv rest]
    by_cases hname : pick.name = key
    · rw [subsetsOn_field_of_name hname, hname, hv]
      simp
    · rw [subsetsOn_field_of_ne hname]
      cases node.get? pick.name <;> simp [hname]
  | descend pick inner rest => by
    rw [parts_descend, List.filter_append, List.map_append, parts_on hwhole hv rest,
      subsetsOn_descend]
    by_cases hname : pick.name = key
    · rw [hname, if_pos hwhole]
      rfl
    · split
      · rfl
      · cases (node.get? pick.name).bind (Subset.copyChildren pick.subset inner.retain) <;>
          simp [hname]

/-- Under the name of a field that is taken whole no descent is heard. -/
theorem get?_retain_of_mem_wholeNames {s : Selector} {node : Object} {key : String} {v : Json}
    (hkey : key ∈ s.wholeNames) (hv : node.get? key = some v) :
    (s.retain node).get? key = Json.mergeAll ((s.subsetsOn key).map (cut · v)) := by
  rw [retain, Object.get?_addAll, parts_on (List.contains_iff_mem.2 hkey) hv]
  rfl

section Cut

variable {v : Json} {a b : Option Subset}

theorem proper_cut (a : Option Subset) (hv : v.Proper) : (cut a v).Proper := by
  cases v with
  | arr items =>
    refine .arr fun item hm => ?_
    obtain ⟨i, -, hi⟩ := Subset.mem_covered.1 hm
    exact Json.proper_arr.1 hv item (List.mem_of_getElem? hi)
  | _ => exact hv

theorem cut_merge_cut (hv : v.Proper) (hb : (cut b v).weight = 0) :
    (cut a v).merge (cut b v) = cut a v := by
  cases v with
  | arr items =>
    have hnil : Subset.covered b items = [] := List.length_eq_zero_iff.1 hb
    rw [cut, cut, hnil]
    exact congrArg Json.arr (List.append_nil _)
  | _ => exact Json.merge_of_weight hb hv.within_self hv

theorem cut_merge_self (hv : v.Proper) (ha : (cut a v).weight = 0) : (cut a v).merge v = v := by
  cases v with
  | arr items =>
    have hnil : Subset.covered a items = [] := List.length_eq_zero_iff.1 ha
    rw [cut, hnil]
    rfl
  | _ => exact Json.merge_of_weight ha hv.within_self hv

/-- Among cuts without elements the whole value comes out as it is. -/
theorem mergeAll_cuts (hv : v.Proper) {before behind : List (Option Subset)}
    (hbefore : ∀ a ∈ before, (cut a v).weight = 0) (hbehind : ∀ a ∈ behind, (cut a v).weight = 0) :
    Json.mergeAll ((before ++ none :: behind).map (cut · v)) = some v := by
  -- In front of the whole value all cuts are the same: empty arrays, or the value itself.
  have hwhole : (before.map (cut · v)).foldl Json.mergeOnto none = none
      ∨ ∃ a ∈ before, (before.map (cut · v)).foldl Json.mergeOnto none = some (cut a v) := by
    cases before with
    | nil => exact .inl rfl
    | cons a before =>
      refine .inr ⟨a, .head before, Json.foldl_mergeOnto_eq_self fun w hw => ?_⟩
      obtain ⟨b, hb, rfl⟩ := List.mem_map.1 hw
      exact cut_merge_cut hv (hbefore b (.tail _ hb))
  have hafter : Json.mergeOnto ((before.map (cut · v)).foldl Json.mergeOnto none) (cut none v) =
      some v := by
    rw [cut_none]
    rcases hwhole with h | ⟨a, ha, h⟩
    · rw [h]
      rfl
    · rw [h]
      exact congrArg some (cut_merge_self hv (hbefore a ha))
  rw [Json.mergeAll, List.map_append, List.foldl_append, List.map_cons, List.foldl_cons, hafter]
  refine Json.foldl_mergeOnto_eq_self fun w hw => ?_
  obtain ⟨b, hb, rfl⟩ := List.mem_map.1 hw
  have h := cut_merge_cut (a := none) hv (hbehind b hb)
  rwa [cut_none] at h

theorem weight_of_mergeAll_cuts (hv : v.Proper) {before behind : List (Option Subset)}
    (h : Json.mergeAll ((before ++ none :: behind).map (cut · v)) = some v) :
    ∀ a ∈ before ++ behind, (cut a v).weight = 0 := by
  have hweight := Json.weight_mergeAll (w := v) (fun w hw => by
    obtain ⟨a, -, rfl⟩ := List.mem_map.1 hw
    exact ⟨within_cut a hv, proper_cut a hv⟩) h
  have hsum : (((before ++ behind).map (cut · v)).map Json.weight).sum = 0 := by
    simp only [List.map_append, List.map_cons, List.sum_append, List.sum_cons, cut_none]
      at hweight ⊢
    omega
  intro a ha
  rw [List.sum_eq_zero_iff_forall_eq_nat] at hsum
  exact hsum _ (List.mem_map_of_mem (List.mem_map_of_mem ha))

end Cut

/-- A field is taken whole once at most: without a subset it is just its token. -/
theorem exists_subsetsOn {s : Selector} (hnodup : s.picks.Nodup)
    (hreads : ∀ x ∈ s.picks, Pick.ofToken x.2.token = .ok x.2) {pick : Pick}
    (hp : (.field, pick) ∈ s.picks) (hwhole : pick.subset = none) : ∃ before behind,
      s.subsetsOn pick.name = before ++ none :: behind ∧ none ∉ before ++ behind := by
  have hmem : ∀ {q}, q ∈ s.fields ↔ (.field, q) ∈ s.picks := by
    intro q
    simp [fields_eq_filterMap]
  have hpick : pick ∈ s.fields.filter (·.name == pick.name) :=
    List.mem_filter.2 ⟨hmem.2 hp, beq_iff_eq.2 rfl⟩
  have hfields := (nodup_fields hnodup).filter (·.name == pick.name)
  obtain ⟨before, behind, hsplit⟩ := List.append_of_mem hpick
  refine ⟨before.map Pick.subset, behind.map Pick.subset, ?_, fun hnone => ?_⟩
  · rw [subsetsOn, hsplit, List.map_append, List.map_cons, hwhole]
  · rw [← List.map_append] at hnone
    obtain ⟨q, hq, hqs⟩ := List.mem_map.1 hnone
    have hq' : q ∈ s.fields.filter (·.name == pick.name) := by
      rw [hsplit]
      exact List.perm_middle.mem_iff.2 (.tail _ hq)
    obtain ⟨hqf, hname⟩ := List.mem_filter.1 hq'
    obtain rfl := eq_of_subset_eq_none (hreads _ hp) (hreads _ (hmem.1 hqf)) hwhole hqs
      (beq_iff_eq.1 hname).symm
    rw [hsplit] at hfields
    exact (List.nodup_cons.1 (List.nodup_middle.1 hfields)).1 hq

/-- A field that is taken whole is merged with what other fields cut out of it, and with nothing
else. It keeps its value just if all they cut out is without elements. -/
theorem get?_retain_of_whole {text : String} {s : Selector} (hs : parse text = .ok s)
    (address : String) {pick : Pick} (hp : (.field, pick) ∈ (s.atAddress address).picks)
    (hwhole : pick.subset = none) {node : Object} (hnode : (Json.obj node).Proper) {v : Json}
    (hv : node.get? pick.name = some v) :
    ((s.atAddress address).retain node).get? pick.name =
        Json.mergeAll (((s.atAddress address).subsetsOn pick.name).map (cut · v))
      ∧ (((s.atAddress address).retain node).get? pick.name = some v ↔
        ∀ subset, some subset ∈ (s.atAddress address).subsetsOn pick.name →
          (cut (some subset) v).weight = 0) := by
  have hmerge := get?_retain_of_mem_wholeNames (mem_wholeNames.2 ⟨pick, hp, hwhole, rfl⟩) hv
  obtain ⟨before, behind, hsubsets, hnone⟩ := exists_subsetsOn (nodup_picks_atAddress hs address)
    (fun _ hx => ((sound_of_parse hs).atAddress address).ofToken_of_mem_picks hx) hp hwhole
  have hproper := hnode.of_get? hv
  refine ⟨hmerge, ?_⟩
  rw [hmerge, hsubsets]
  constructor
  · intro h subset hm
    refine weight_of_mergeAll_cuts hproper h _ ?_
    simpa using hm
  · intro h
    have hweight : ∀ a ∈ before ++ behind, (cut a v).weight = 0 := by
      intro a ha
      cases a with
      | none => exact absurd ha hnone
      | some subset => exact h subset (by simpa using ha)
    obtain ⟨hbefore, hbehind⟩ := List.forall_mem_append.1 hweight
    exact mergeAll_cuts hproper hbefore hbehind

theorem get?_retain_of_whole_again :
    ∃ (s : Selector) (node : Object) (v w : Json),
      parse "x\x7ba[3] a.c a b[1] b\x7d" = .ok s ∧ (Json.obj node).Proper
      ∧ node = [("a", v), ("b", w)]
      ∧ v = .arr [.null, .obj [("c", .null), ("d", .null)]] ∧ w = .arr [.str "1", .str "2"]
      ∧ ((s.atAddress "x").retain node).get? "a" = some v
      ∧ ((s.atAddress "x").retain node).get? "b" =
        some (.arr [.str "1", .str "1", .str "2"])
      ∧ ((s.atAddress "x").retain node).get? "b" ≠ some w := by
  have hparse : parse "x\x7ba[3] a.c a b[1] b\x7d" = .ok (.descend ⟨"x", "x", none⟩
      (.field ⟨"a[3]", "a", some ⟨some 2, some 2⟩⟩ (.field ⟨"a", "a", none⟩
        (.field ⟨"b[1]", "b", some ⟨some 0, some 0⟩⟩ (.field ⟨"b", "b", none⟩
          (.descend ⟨"a", "a", none⟩ (.field ⟨"c", "c", none⟩ .nil) .nil))))) .nil) := by
    decide
  have hproper : (Json.obj [("a", .arr [.null, .obj [("c", .null), ("d", .null)]]),
      ("b", .arr [.str "1", .str "2"])]).Proper := by
    simp [Object.HasDistinctKeys, Object.keys]
  obtain ⟨-, hkept⟩ := get?_retain_of_whole hparse "x"
    (by decide : (Role.field, (⟨"a", "a", none⟩ : Pick)) ∈ _) rfl hproper rfl
  obtain ⟨hmerged, hchanged⟩ := get?_retain_of_whole hparse "x"
    (by decide : (Role.field, (⟨"b", "b", none⟩ : Pick)) ∈ _) rfl hproper rfl
  refine ⟨_, _, _, _, hparse, hproper, rfl, rfl, rfl, hkept.2 fun subset hm => ?_,
    hmerged.trans (by decide +kernel), fun h => ?_⟩
  · have hm : some subset ∈ [some (⟨some 2, some 2⟩ : Subset), none] := hm
    obtain rfl : subset = ⟨some 2, some 2⟩ := by simpa using hm
    rfl
  · exact absurd (hchanged.1 h ⟨some 0, some 0⟩ (by decide)) (by decide +kernel)

end Selector

end JsonSelect
