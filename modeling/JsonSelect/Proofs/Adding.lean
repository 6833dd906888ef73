import JsonSelect.Proofs.Within
import Mathlib.Data.List.Induction

/-!
# Adding parts to an object

Parts are added to an object one after the other, each merged into what is under its key. So the
keys come in the order of their first parts (`Object.keys_addAll`), arrays under one key are
appended (`Object.get?_addAll_of_none`), and what is made from parts of the members of another
object stays so (`Object.within_addAll`), without a value ever being replaced
(`Object.addAll_eq_joinAll`).
-/

namespace JsonSelect

namespace Json

/-- The elements of an array, none of any other value. -/
def elements : Json → List Json
  | arr items => items
  | _ => []

end Json

namespace Object

theorem addAll_cons (o : Object) (part : String × Json) (parts : List (String × Json)) :
    o.addAll (part :: parts) = (o.add part.1 part.2).addAll parts := rfl

theorem addAll_append (o : Object) (parts more : List (String × Json)) :
    o.addAll (parts ++ more) = (o.addAll parts).addAll more := by
  simp [addAll]

theorem get?_add (o : Object) (key k : String) (v : Json) :
    (o.add key v).get? k =
      if k = key then some (((o.get? key).map (·.merge v)).getD v) else o.get? k := by
  unfold add
  rw [get?_insert]
  cases o.get? key <;> rfl

theorem keys_addAll (parts : List (String × Json)) :
    (addAll [] parts).keys = (parts.map (·.1)).eraseDups := by
  induction parts using List.reverseRecOn with
  | nil => rfl
  | append_singleton parts part ih =>
    rw [addAll_append, addAll_cons, addAll, List.foldl_nil, add, keys_insert, ih,
      List.map_append, List.eraseDups_append]
    have hmem : part.1 ∈ (parts.map (·.1)).eraseDups ↔ part.1 ∈ parts.map (·.1) :=
      List.mem_eraseDups
    by_cases h : part.1 ∈ parts.map (·.1)
    · rw [if_pos (hmem.2 h), List.map_singleton, List.cons_removeAll,
        if_neg (by simpa using h), List.nil_removeAll, List.eraseDups_nil, List.append_nil]
    · rw [if_neg (mt hmem.1 h), List.map_singleton, List.cons_removeAll,
        if_pos (by simpa using h), List.nil_removeAll]
      rfl

section Arrays

variable {parts : List (String × Json)} {key : String}

/-- Arrays that are added to an array go behind it. -/
theorem get?_addAll_of_some (h : ∀ part ∈ parts, part.1 = key → ∃ items, part.2 = .arr items) :
    ∀ {o : Object} {items : List Json}, o.get? key = some (.arr items) →
      (o.addAll parts).get? key =
        some (.arr (items ++ (parts.filter (·.1 == key)).flatMap (·.2.elements))) := by
  induction parts with
  | nil => exact fun ho => by simpa [addAll] using ho
  | cons part parts ih =>
    intro o items ho
    obtain ⟨hpart, hparts⟩ := List.forall_mem_cons.1 h
    rw [addAll_cons]
    by_cases hk : part.1 = key
    · obtain ⟨more, hmore⟩ := hpart hk
      have hadd : (o.add part.1 part.2).get? key = some (.arr (items ++ more)) := by
        rw [get?_add, if_pos hk.symm, hk, ho, hmore]
        rfl
      rw [ih hparts hadd]
      simp [hk, hmore, Json.elements]
    · have hadd : (o.add part.1 part.2).get? key = some (.arr items) := by
        rw [get?_add, if_neg (Ne.symm hk), ho]
      rw [ih hparts hadd]
      simp [hk]

theorem get?_addAll_of_none (h : ∀ part ∈ parts, part.1 = key → ∃ items, part.2 = .arr items)
    (hkey : ∃ part ∈ parts, part.1 = key) : ∀ {o : Object}, o.get? key = none →
      (o.addAll parts).get? key =
        some (.arr ((parts.filter (·.1 == key)).flatMap (·.2.elements))) := by
  induction parts with
  | nil =>
    obtain ⟨part, hm, -⟩ := hkey
    exact absurd hm List.not_mem_nil
  | cons part parts ih =>
    intro o ho
    obtain ⟨hpart, hparts⟩ := List.forall_mem_cons.1 h
    rw [addAll_cons]
    by_cases hk : part.1 = key
    · obtain ⟨items, hitems⟩ := hpart hk
      have hadd : (o.add part.1 part.2).get? key = some (.arr items) := by
        rw [get?_add, if_pos hk.symm, hk, ho, hitems]
        rfl
      rw [get?_addAll_of_some hparts hadd]
      simp [hk, hitems, Json.elements]
    · have hadd : (o.add part.1 part.2).get? key = none := by
        rw [get?_add, if_neg (Ne.symm hk), ho]
      have hkey : ∃ part ∈ parts, part.1 = key := by
        obtain ⟨part', hm, rfl⟩ := hkey
        rcases List.mem_cons.1 hm with rfl | hm
        · exact absurd rfl hk
        · exact ⟨part', hm, rfl⟩
      rw [ih hparts hkey hadd]
      simp [hk]

end Arrays

theorem within_add {o whole : Object} {key : String} {v w : Json}
    (h : Json.WithinMembers o whole) (hw : whole.get? key = some w) (hv : v.Within w) :
    Json.WithinMembers (o.add key v) whole := by
  unfold add
  cases he : o.get? key with
  | none => exact h.insert hw hv
  | some existing => exact h.insert hw ((h.of_get? he hw).merge hv)

theorem within_addAll {whole : Object} : ∀ {parts : List (String × Json)} {o : Object},
    Json.WithinMembers o whole →
    (∀ part ∈ parts, ∃ w, whole.get? part.1 = some w ∧ part.2.Within w) →
      Json.WithinMembers (o.addAll parts) whole
  | [], _, h, _ => h
  | part :: parts, o, h, hp => by
    obtain ⟨⟨w, hw, hv⟩, hp⟩ := List.forall_mem_cons.1 hp
    rw [addAll_cons]
    exact within_addAll (within_add h hw hv) hp

/-- The object with all of `parts` added in order, where no value is replaced by a later one. -/
def joinAll (o : Object) (parts : List (String × Json)) : Object := Json.joinMembers o parts

theorem addAll_eq_joinAll {whole o : Object} {parts : List (String × Json)}
    (h : Json.WithinMembers o whole)
    (hp : ∀ part ∈ parts, ∃ w, whole.get? part.1 = some w ∧ part.2.Within w) :
    o.addAll parts = o.joinAll parts := by
  rw [← mergeMembers_eq_addAll]
  exact h.mergeMembers_eq_joinMembers (Json.withinMembers_iff.2 hp)

end Object

end JsonSelect
