import JsonSelect.Json.Merge
import JsonSelect.Proofs.Proper

/-!
# Values made from parts of a value

A value lies within another if it is of the same kind and made from parts of it (`Json.Within`).
Merging two values that lie within a third gives a value within the third (`Json.Within.merge`), and
never has to replace one value by another: keeping the earlier one in that case gives the same
(`Json.Within.merge_eq_join`).
-/

namespace JsonSelect

namespace Json

mutual

/-- A scalar lies within itself only; an array has elements that lie within elements of the other,
an object has members that lie within the other's members of the same keys. -/
def Within : Json → Json → Prop
  | arr items, whole => ∃ others, whole = arr others ∧ WithinItems items others
  | obj members, whole => ∃ o, whole = obj o ∧ WithinMembers members o
  | scalar, whole => scalar = whole

def WithinItems : List Json → List Json → Prop
  | [], _ => True
  | item :: items, others => (∃ other ∈ others, Within item other) ∧ WithinItems items others

def WithinMembers : List (String × Json) → Object → Prop
  | [], _ => True
  | (key, value) :: members, o =>
    (∃ other, o.get? key = some other ∧ Within value other) ∧ WithinMembers members o

end

theorem withinItems_iff {others : List Json} : ∀ {items : List Json},
    WithinItems items others ↔ ∀ item ∈ items, ∃ other ∈ others, item.Within other
  | [] => by simp [WithinItems]
  | item :: items => by rw [WithinItems, withinItems_iff, List.forall_mem_cons]

theorem withinMembers_iff {o : Object} {members : List (String × Json)} :
    WithinMembers members o ↔
      ∀ m ∈ members, ∃ other, o.get? m.1 = some other ∧ m.2.Within other := by
  induction members with
  | nil => simp [WithinMembers]
  | cons m members ih =>
    obtain ⟨key, value⟩ := m
    rw [WithinMembers, ih, List.forall_mem_cons]

mutual

theorem Proper.within_self : ∀ {v : Json}, v.Proper → v.Within v
  | arr _, h => ⟨_, rfl, withinItems_of_forall (proper_arr.1 h) fun _ => id⟩
  | obj _, h => ⟨_, rfl, withinMembers_of_forall (proper_obj.1 h).2
      fun _ hm => h.distinct.get?_eq hm⟩
  | null, _ | bool _, _ | num _, _ | str _, _ => rfl

theorem withinItems_of_forall {others : List Json} : ∀ {items : List Json},
    (∀ item ∈ items, item.Proper) → (∀ item ∈ items, item ∈ others) → WithinItems items others
  | [], _, _ => trivial
  | _ :: _, hp, hm =>
    ⟨⟨_, hm _ (.head _), (hp _ (.head _)).within_self⟩,
      withinItems_of_forall (fun v hv => hp v (.tail _ hv)) fun v hv => hm v (.tail _ hv)⟩

theorem withinMembers_of_forall {o : Object} : ∀ {members : List (String × Json)},
    (∀ m ∈ members, m.2.Proper) → (∀ m ∈ members, o.get? m.1 = some m.2) →
      WithinMembers members o
  | [], _, _ => trivial
  | _ :: _, hp, hm =>
    ⟨⟨_, hm _ (.head _), (hp _ (.head _)).within_self⟩,
      withinMembers_of_forall (fun m hv => hp m (.tail _ hv)) fun m hv => hm m (.tail _ hv)⟩

end

theorem Within.eq_of_isContainer {v w : Json} (h : v.Within w) (hw : w.isContainer = false) :
    v = w := by
  cases v with
  | arr items =>
    obtain ⟨_, rfl, -⟩ := h
    exact absurd hw (by simp [isContainer])
  | obj members =>
    obtain ⟨_, rfl, -⟩ := h
    exact absurd hw (by simp [isContainer])
  | _ => exact h

theorem WithinMembers.insert {members o : Object} {key : String} {v w : Json}
    (h : WithinMembers members o) (hw : o.get? key = some w) (hv : v.Within w) :
    WithinMembers (Object.insert members key v) o := by
  rw [withinMembers_iff] at h ⊢
  unfold Object.insert
  split
  · intro m hm
    obtain ⟨m', hm', rfl⟩ := List.mem_map.1 hm
    split
    · next hk => exact ⟨w, hk ▸ hw, hv⟩
    · exact h m' hm'
  · exact List.forall_mem_append.2 ⟨h, List.forall_mem_singleton.2 ⟨w, hw, hv⟩⟩

theorem WithinMembers.of_get? {members o : Object} {key : String} {v w : Json}
    (h : WithinMembers members o) (hv : members.get? key = some v) (hw : o.get? key = some w) :
    v.Within w := by
  obtain ⟨w', hw', hwithin⟩ := withinMembers_iff.1 h _ (Object.mem_of_get? hv)
  obtain rfl : w = w' := Option.some.inj (hw.symm.trans hw')
  exact hwithin

mutual

theorem Within.merge : ∀ {a b w : Json}, a.Within w → b.Within w → (a.merge b).Within w
  | a, arr more, _, ha, hb => by
    obtain ⟨others, rfl, hmore⟩ := hb
    cases a with
    | arr items =>
      obtain ⟨_, ⟨⟩, hitems⟩ := ha
      refine ⟨others, rfl, withinItems_iff.2 (List.forall_mem_append.2 ⟨?_, ?_⟩)⟩
      · exact withinItems_iff.1 hitems
      · exact withinItems_iff.1 hmore
    | obj members => obtain ⟨_, ⟨⟩, -⟩ := ha
    | _ => cases ha
  | a, obj more, _, ha, hb => by
    obtain ⟨o, rfl, hmore⟩ := hb
    cases a with
    | obj members =>
      obtain ⟨_, ⟨⟩, hmembers⟩ := ha
      exact ⟨o, rfl, hmembers.mergeMembers hmore⟩
    | arr items => obtain ⟨_, ⟨⟩, -⟩ := ha
    | _ => cases ha
  | _, null, _, _, hb | _, bool _, _, _, hb | _, num _, _, _, hb | _, str _, _, _, hb => hb

theorem WithinMembers.mergeMembers : ∀ {members o : Object} {more : List (String × Json)},
    WithinMembers members o → WithinMembers more o → WithinMembers (mergeMembers members more) o
  | _, _, [], h, _ => h
  | members, o, (key, value) :: more, h, ⟨⟨w, hw, hv⟩, hmore⟩ => by
    refine (WithinMembers.insert h hw ?_).mergeMembers hmore
    cases he : members.get? key with
    | none => exact hv
    | some existing => exact (h.of_get? he hw).merge hv

end

mutual

/-- Merging that keeps the earlier value where `Json.merge` replaces it by the later one. -/
def join (existing : Json) : Json → Json
  | arr more =>
    match existing with
    | arr items => arr (items ++ more)
    | kept => kept
  | obj more =>
    match existing with
    | obj members => obj (joinMembers members more)
    | kept => kept
  | _ => existing

def joinMembers (members : Object) : List (String × Json) → Object
  | [] => members
  | (key, value) :: more =>
    joinMembers
      (members.insert key (match members.get? key with
        | some existing => join existing value
        | none => value))
      more

end

mutual

theorem Within.merge_eq_join : ∀ {a b w : Json}, a.Within w → b.Within w → a.merge b = a.join b
  | a, arr more, _, ha, hb => by
    obtain ⟨others, rfl, -⟩ := hb
    cases a with
    | arr items => rfl
    | obj members => obtain ⟨_, ⟨⟩, -⟩ := ha
    | _ => cases ha
  | a, obj more, _, ha, hb => by
    obtain ⟨o, rfl, hmore⟩ := hb
    cases a with
    | obj members =>
      obtain ⟨_, ⟨⟩, hmembers⟩ := ha
      exact congrArg obj (hmembers.mergeMembers_eq_joinMembers hmore)
    | arr items => obtain ⟨_, ⟨⟩, -⟩ := ha
    | _ => cases ha
  | _, null, _, ha, hb | _, bool _, _, ha, hb | _, num _, _, ha, hb | _, str _, _, ha, hb => by
    obtain rfl := hb
    exact (ha.eq_of_isContainer rfl).symm

theorem WithinMembers.mergeMembers_eq_joinMembers :
    ∀ {members o : Object} {more : List (String × Json)},
      WithinMembers members o → WithinMembers more o →
        Json.mergeMembers members more = joinMembers members more
  | _, _, [], _, _ => rfl
  | members, o, (key, value) :: more, h, ⟨⟨w, hw, hv⟩, hmore⟩ => by
    unfold Json.mergeMembers joinMembers
    cases he : members.get? key with
    | none => exact (WithinMembers.insert h hw hv).mergeMembers_eq_joinMembers hmore
    | some existing =>
      have hwithin := h.of_get? he hw
      have hjoin := hwithin.merge_eq_join hv
      dsimp only
      rw [← hjoin]
      exact (WithinMembers.insert h hw (hwithin.merge hv)).mergeMembers_eq_joinMembers hmore

end

end Json

end JsonSelect
