import JsonSelect.Json.Reading
import JsonSelect.Proofs.Reach

/-!
# Values with distinct keys

In a proper value no object, at any depth, has two members of one key (`Json.Proper`). Whatever is
read from a text is proper (`Json.proper_of_read`, `Json.proper_of_readLoosely`), and so is what a
descent leads to in a proper value (`Json.Proper.of_leads`).
-/

namespace JsonSelect

namespace Object

theorem hasDistinctKeys_nil : HasDistinctKeys [] := List.nodup_nil

theorem mem_of_get? {o : Object} {key : String} {v : Json} (h : o.get? key = some v) :
    (key, v) ∈ o := by
  induction o with
  | nil => simp at h
  | cons m o ih =>
    rw [get?_cons] at h
    split at h
    · next hk =>
      obtain rfl := Option.some.inj h
      exact hk ▸ .head _
    · exact .tail _ (ih h)

theorem HasDistinctKeys.get?_eq {o : Object} (h : o.HasDistinctKeys) {key : String} {v : Json}
    (hm : (key, v) ∈ o) : o.get? key = some v := by
  induction o with
  | nil => simp at hm
  | cons m o ih =>
    obtain ⟨hne, ho⟩ := List.nodup_cons.1 h
    rw [get?_cons]
    rcases List.mem_cons.1 hm with rfl | hm
    · rw [if_pos rfl]
    · have hmem : key ∈ keys o := List.mem_map_of_mem (f := (·.1)) hm
      have hk : key ≠ m.1 := by
        rintro rfl
        exact hne hmem
      rw [if_neg hk, ih ho hm]

theorem flatMap_get? {α : Type} {o : Object} (h : o.HasDistinctKeys) (name : String)
    (f : Json → List α) :
    (o.flatMap fun x => if x.1 = name then f x.2 else []) = (o.get? name).elim [] f := by
  induction o with
  | nil => rfl
  | cons x o ih =>
    obtain ⟨hne, ho⟩ := List.nodup_cons.1 h
    rw [List.flatMap_cons, ih ho, get?_cons]
    by_cases hk : x.1 = name
    · have hnone : get? o name = none := by
        rw [← Option.not_isSome_iff_eq_none, isSome_get?, ← hk]
        exact hne
      rw [if_pos hk, if_pos hk.symm, hnone]
      exact List.append_nil _
    · rw [if_neg hk, if_neg (Ne.symm hk), List.nil_append]

end Object

namespace Json

/-- No object in the value has two members of one key. -/
inductive Proper : Json → Prop
  | null : Proper null
  | bool (value : Bool) : Proper (bool value)
  | num (value : Number) : Proper (num value)
  | str (value : String) : Proper (str value)
  | arr {items : List Json} (h : ∀ item ∈ items, Proper item) : Proper (arr items)
  | obj {members : List (String × Json)} (hk : Object.HasDistinctKeys members)
      (h : ∀ m ∈ members, Proper m.2) : Proper (obj members)

@[simp] theorem proper_null : null.Proper := .null

@[simp] theorem proper_bool (b : Bool) : (bool b).Proper := .bool b

@[simp] theorem proper_num (n : Number) : (num n).Proper := .num n

@[simp] theorem proper_str (text : String) : (str text).Proper := .str text

@[simp] theorem proper_arr {items : List Json} :
    (arr items).Proper ↔ ∀ item ∈ items, item.Proper :=
  ⟨fun h => by cases h with | arr h => exact h, .arr⟩

@[simp] theorem proper_obj {members : Object} :
    (obj members).Proper ↔ members.HasDistinctKeys ∧ ∀ m ∈ members, m.2.Proper :=
  ⟨fun h => by cases h with | obj hk h => exact ⟨hk, h⟩, fun h => .obj h.1 h.2⟩

theorem Proper.distinct {o : Object} (h : (Json.obj o).Proper) : o.HasDistinctKeys :=
  (proper_obj.1 h).1

theorem Proper.of_get? {o : Object} (h : (Json.obj o).Proper) {key : String} {v : Json}
    (hv : o.get? key = some v) : v.Proper :=
  (proper_obj.1 h).2 _ (Object.mem_of_get? hv)

theorem Proper.of_leads {subset : Option Subset} {v : Json} {way : List Step} {child : Object}
    (h : v.Proper) (hl : Subset.Leads subset v way child) : (Json.obj child).Proper := by
  cases hl with
  | obj => exact h
  | arr hi _ => exact proper_arr.1 h _ (List.mem_of_getElem? hi)

theorem Proper.insert {o : Object} {key : String} {v : Json} (h : (Json.obj o).Proper)
    (hv : v.Proper) : (Json.obj (o.insert key v)).Proper := by
  refine .obj (h.distinct.insert key v) ?_
  unfold Object.insert
  split
  · intro m hm
    obtain ⟨m', hm', rfl⟩ := List.mem_map.1 hm
    split
    · exact hv
    · exact (proper_obj.1 h).2 m' hm'
  · exact List.forall_mem_append.2 ⟨(proper_obj.1 h).2, List.forall_mem_singleton.2 hv⟩

namespace Written

variable {number : Literal → Option Number}

mutual

theorem proper_of_value : ∀ {w : Written} {v : Json}, w.value? number = some v → v.Proper
  | null, _, h => Option.some.inj h ▸ .null
  | bool b, _, h => Option.some.inj h ▸ .bool b
  | num literal, _, h => by
    obtain ⟨n, -, rfl⟩ := Option.map_eq_some_iff.1 h
    exact .num n
  | str text, _, h => Option.some.inj h ▸ .str text
  | arr items, _, h => by
    obtain ⟨vs, hvs, rfl⟩ := Option.map_eq_some_iff.1 h
    exact .arr (proper_of_itemValues hvs)
  | obj members, _, h => by
    obtain ⟨o, ho, rfl⟩ := Option.map_eq_some_iff.1 h
    exact proper_of_memberValues (.obj Object.hasDistinctKeys_nil (by simp)) ho

theorem proper_of_itemValues : ∀ {ws : List Written} {vs : List Json},
    itemValues? number ws = some vs → ∀ v ∈ vs, v.Proper
  | [], _, h => by
    obtain rfl := Option.some.inj h
    simp
  | w :: ws, _, h => by
    obtain ⟨v, hv, h⟩ := Option.bind_eq_some_iff.1 h
    obtain ⟨vs, hvs, h⟩ := Option.bind_eq_some_iff.1 h
    obtain rfl := Option.some.inj h
    exact List.forall_mem_cons.2 ⟨proper_of_value hv, proper_of_itemValues hvs⟩

theorem proper_of_memberValues : ∀ {ws : List (String × Written)} {done o : Object},
    (Json.obj done).Proper → memberValues? number done ws = some o → (Json.obj o).Proper
  | [], _, _, hd, h => Option.some.inj h ▸ hd
  | (_, w) :: _, _, _, hd, h => by
    obtain ⟨v, hv, h⟩ := Option.bind_eq_some_iff.1 h
    exact proper_of_memberValues (hd.insert (proper_of_value hv)) h

end

end Written

theorem proper_of_read {text : String} {v : Json} (h : read? text = some v) : v.Proper := by
  obtain ⟨w, -, hv⟩ := Option.bind_eq_some_iff.1 h
  unfold Written.limitedValue? at hv
  split at hv
  · exact Written.proper_of_value hv
  · simp at hv

theorem proper_of_readLoosely {text : String} {v : Json} (h : readLoosely? text = some v) :
    v.Proper := by
  obtain ⟨w, -, hv⟩ := Option.bind_eq_some_iff.1 h
  exact Written.proper_of_value hv

end Json

end JsonSelect
