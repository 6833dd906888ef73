import JsonSelect.Proofs.Proper
import Mathlib.Data.List.Perm.Basic

/-!
# Marked parts

Marks are put on parts of a value, each by the way that leads to it. The marked parts can be taken
out of the value (`Json.marked`) or be deleted from it (`Json.unmarked`); where elements of an array
are deleted the marks speak of the positions as they were. Erasing a member of what is left, or
deleting more below a member, is marking more (`Object.erase_unmarked_member`,
`Object.modify_unmarked_member`).

If only members are marked, no element of an array moves (`Marks.SparesItems`,
`Json.unmarked_arr`). If no marked part lies in another (`Marks.Apart`), each piece of the value is
in one of the marked parts or is left, and not both (`Json.pieces_perm`).
-/

namespace JsonSelect

/-- The parts of a value that are marked, each by the way to it. -/
abbrev Marks := List Step → Bool

namespace Marks

def none : Marks := fun _ => false

/-- The value itself. -/
def whole : Marks := List.isEmpty

/-- The elements of an array at the positions `p`. -/
def items (p : Nat → Bool) : Marks
  | [.item i] => p i
  | _ => false

def or (m m' : Marks) : Marks := fun way => m way || m' way

/-- What is marked below a step. -/
def below (m : Marks) (step : Step) : Marks := fun way => m (step :: way)

/-- What is marked behind a way. -/
def behind (m : Marks) (way : List Step) : Marks := fun way' => m (way ++ way')

/-- What `m` marks in the part that the step leads to. -/
def under (step : Step) (m : Marks) : Marks
  | step' :: way => step' == step && m way
  | [] => false

variable {m m' : Marks}

theorem or_assoc (m₁ m₂ m₃ : Marks) : (m₁.or m₂).or m₃ = m₁.or (m₂.or m₃) := by
  funext way
  exact Bool.or_assoc _ _ _

theorem or_left_comm (m₁ m₂ m₃ : Marks) : m₁.or (m₂.or m₃) = m₂.or (m₁.or m₃) := by
  funext way
  exact Bool.or_left_comm _ _ _

theorem or_self (m : Marks) : m.or m = m := by
  funext way
  exact Bool.or_self _

theorem or_none (m : Marks) : m.or none = m := by
  funext way
  exact Bool.or_false _

theorem none_or (m : Marks) : none.or m = m := rfl

theorem below_none (step : Step) : none.below step = none := rfl

theorem below_whole (step : Step) : whole.below step = none := rfl

theorem below_or (m m' : Marks) (step : Step) :
    (m.or m').below step = (m.below step).or (m'.below step) := rfl

theorem below_items_item (p : Nat → Bool) (i : Nat) :
    (items p).below (.item i) = if p i then whole else none := by
  funext way
  cases way <;> cases h : p i <;> simp [below, items, whole, none, h]

theorem below_under_self (step : Step) (m : Marks) : (under step m).below step = m := by
  funext way
  simp [below, under]

theorem below_under_of_ne {step step' : Step} (h : step' ≠ step) (m : Marks) :
    (under step m).below step' = none := by
  funext way
  simp [below, under, none, h]

/-- No element of an array is marked. -/
def SparesItems (m : Marks) : Prop := ∀ way i, m (way ++ [.item i]) = false

theorem sparesItems_none : none.SparesItems := fun _ _ => rfl

theorem SparesItems.below (h : m.SparesItems) (step : Step) : (m.below step).SparesItems :=
  fun way => h (step :: way)

theorem SparesItems.behind (h : m.SparesItems) (way : List Step) : (m.behind way).SparesItems := by
  intro way' i
  unfold Marks.behind
  rw [← List.append_assoc, h]

theorem SparesItems.or (h : m.SparesItems) (h' : m'.SparesItems) : (m.or m').SparesItems := by
  intro way i
  unfold Marks.or
  rw [h, h', Bool.or_false]

theorem SparesItems.under (h : m.SparesItems) (name : String) :
    (under (.key name) m).SparesItems := by
  intro way i
  cases way with
  | nil => rfl
  | cons step way =>
    unfold Marks.under
    rw [List.cons_append]
    dsimp only
    rw [h, Bool.and_false]

theorem sparesItems_whole : whole.SparesItems := by
  intro way i
  cases way <;> rfl

/-- No marked part lies in another. -/
def Apart (m : Marks) : Prop := ∀ way step way', m way → m (way ++ step :: way') = false

theorem Apart.intro (hroot : m [] → ∀ step, m.below step = none)
    (hbelow : ∀ step, (m.below step).Apart) : m.Apart := by
  intro way step way' h
  cases way with
  | nil => exact congrFun (hroot h step) way'
  | cons first way => exact hbelow first way step way' h

theorem Apart.below (h : m.Apart) (step : Step) : (m.below step).Apart :=
  fun way => h (step :: way)

theorem Apart.eq_whole (h : m.Apart) (hroot : m []) : m = whole := by
  funext way
  cases way with
  | nil => exact hroot
  | cons step way => exact h [] step way hroot

theorem apart_none : none.Apart := fun _ _ _ _ => rfl

theorem apart_whole : whole.Apart := .intro (fun _ => below_whole) fun _ => apart_none

theorem apart_items (p : Nat → Bool) : (items p).Apart := by
  refine .intro nofun fun step => ?_
  cases step with
  | key key => exact apart_none
  | item i =>
    rw [below_items_item]
    split
    · exact apart_whole
    · exact apart_none

/-- Marks below a step where the others have none. -/
theorem Apart.under_or {step : Step} (h : m.Apart) (h' : m'.Apart) (hroot : m' [] = false)
    (hstep : m'.below step = none) : ((under step m).or m').Apart := by
  refine .intro (fun hor => ?_) fun step' => ?_
  · have hfalse : (under step m).or m' [] = m' [] := rfl
    rw [hfalse, hroot] at hor
    exact absurd hor Bool.false_ne_true
  · rw [below_or]
    by_cases hs : step' = step
    · subst hs
      rwa [below_under_self, hstep, or_none]
    · rw [below_under_of_ne hs, none_or]
      exact h'.below step'

end Marks

namespace Json

mutual

/-- The value without its marked parts. It stays as it is if it is itself a marked part. -/
def unmarked (m : Marks) : Json → Json
  | arr items => arr (unmarkedItems m 0 items)
  | obj members => obj (unmarkedMembers m members)
  | value => value

def unmarkedItems (m : Marks) (i : Nat) : List Json → List Json
  | [] => []
  | item :: items =>
    if m [.item i] then unmarkedItems m (i + 1) items
    else unmarked (m.below (.item i)) item :: unmarkedItems m (i + 1) items

def unmarkedMembers (m : Marks) : List (String × Json) → Object
  | [] => []
  | (key, value) :: members =>
    if m [.key key] then unmarkedMembers m members
    else (key, unmarked (m.below (.key key)) value) :: unmarkedMembers m members

end

mutual

/-- The marked parts of the value, in the order of the document. -/
def marked (m : Marks) : Json → List Json
  | arr items => (if m [] then [arr items] else []) ++ markedItems m 0 items
  | obj members => (if m [] then [obj members] else []) ++ markedMembers m members
  | value => if m [] then [value] else []

def markedItems (m : Marks) (i : Nat) : List Json → List Json
  | [] => []
  | item :: items => marked (m.below (.item i)) item ++ markedItems m (i + 1) items

def markedMembers (m : Marks) : List (String × Json) → List Json
  | [] => []
  | (key, value) :: members => marked (m.below (.key key)) value ++ markedMembers m members

end

mutual

/-- What a value is made of: its scalars, and its arrays and objects without what is in them. -/
def pieces : Json → List Json
  | arr items => arr [] :: itemPieces items
  | obj members => obj [] :: memberPieces members
  | value => [value]

def itemPieces : List Json → List Json
  | [] => []
  | item :: items => pieces item ++ itemPieces items

def memberPieces : List (String × Json) → List Json
  | [] => []
  | (_, value) :: members => pieces value ++ memberPieces members

end

theorem unmarkedItems_eq (m : Marks) (i : Nat) (items : List Json) :
    unmarkedItems m i items = (items.zipIdx i).filterMap fun x =>
      if m [.item x.2] then none else some (x.1.unmarked (m.below (.item x.2))) := by
  induction items generalizing i with
  | nil => rfl
  | cons item items ih =>
    unfold unmarkedItems
    rw [ih, List.zipIdx_cons, List.filterMap_cons]
    split <;> rfl

theorem markedItems_eq (m : Marks) (i : Nat) (items : List Json) :
    markedItems m i items =
      (items.zipIdx i).flatMap fun x => x.1.marked (m.below (.item x.2)) := by
  induction items generalizing i with
  | nil => rfl
  | cons item items ih =>
    unfold markedItems
    rw [ih, List.zipIdx_cons, List.flatMap_cons]

theorem markedMembers_eq (m : Marks) (members : Object) :
    markedMembers m members = members.flatMap fun x => x.2.marked (m.below (.key x.1)) := by
  induction members with
  | nil => rfl
  | cons member members ih =>
    unfold markedMembers
    rw [ih, List.flatMap_cons]

theorem marked_arr {m : Marks} (h : m [] = false) (items : List Json) :
    (arr items).marked m = items.zipIdx.flatMap fun x => x.1.marked (m.below (.item x.2)) := by
  rw [marked, h, markedItems_eq]
  rfl

theorem marked_obj {m : Marks} (h : m [] = false) (members : Object) :
    (obj members).marked m = members.flatMap fun x => x.2.marked (m.below (.key x.1)) := by
  rw [marked, h, markedMembers_eq]
  rfl

mutual

theorem unmarked_none : ∀ v : Json, v.unmarked Marks.none = v
  | arr items => by rw [unmarked, unmarkedItems_none]
  | obj members => by rw [unmarked, unmarkedMembers_none]
  | null | bool _ | num _ | str _ => rfl

theorem unmarkedItems_none : ∀ (i : Nat) (items : List Json),
    unmarkedItems Marks.none i items = items
  | _, [] => rfl
  | i, item :: items => by
    unfold unmarkedItems
    rw [Marks.below_none, unmarked_none, unmarkedItems_none]
    exact if_neg Bool.false_ne_true

theorem unmarkedMembers_none : ∀ members : List (String × Json),
    unmarkedMembers Marks.none members = members
  | [] => rfl
  | (key, value) :: members => by
    unfold unmarkedMembers
    rw [Marks.below_none, unmarked_none, unmarkedMembers_none]
    exact if_neg Bool.false_ne_true

end

mutual

theorem marked_none : ∀ v : Json, v.marked Marks.none = []
  | arr items => markedItems_none 0 items
  | obj members => markedMembers_none members
  | null | bool _ | num _ | str _ => rfl

theorem markedItems_none : ∀ (i : Nat) (items : List Json), markedItems Marks.none i items = []
  | _, [] => rfl
  | i, item :: items => by
    unfold markedItems
    rw [Marks.below_none, marked_none, markedItems_none, List.append_nil]

theorem markedMembers_none : ∀ members : List (String × Json),
    markedMembers Marks.none members = []
  | [] => rfl
  | (key, value) :: members => by
    unfold markedMembers
    rw [Marks.below_none, marked_none, markedMembers_none, List.append_nil]

end

theorem marked_whole (v : Json) : v.marked Marks.whole = [v] := by
  cases v with
  | arr items =>
    have hitems : markedItems Marks.whole 0 items = [] := by
      rw [markedItems_eq]
      exact List.flatMap_eq_nil_iff.2 fun x _ => marked_none x.1
    rw [marked, hitems]
    rfl
  | obj members =>
    have hmembers : markedMembers Marks.whole members = [] := by
      rw [markedMembers_eq]
      exact List.flatMap_eq_nil_iff.2 fun x _ => marked_none x.2
    rw [marked, hmembers]
    rfl
  | _ => rfl

/-- Where no element is marked, none moves. -/
theorem unmarked_arr {m : Marks} (h : ∀ i, m [.item i] = false) (items : List Json) :
    (arr items).unmarked m =
      arr (items.mapIdx fun i item => item.unmarked (m.below (.item i))) := by
  rw [unmarked, unmarkedItems_eq, List.mapIdx_eq_zipIdx_map]
  simp [h]

end Json

namespace Marks

/-- What `f` marks in the member under `name`, if there is one. -/
def member (o : Object) (name : String) (f : Json → Marks) : Marks :=
  under (.key name) ((o.get? name).elim none f)

theorem below_member_of_ne {name key : String} (h : key ≠ name) (o : Object) (f : Json → Marks) :
    (member o name f).below (.key key) = none :=
  below_under_of_ne (by simpa using h) _

end Marks

namespace Object

/-- The object without its marked parts. -/
def unmarked (m : Marks) (o : Object) : Object := Json.unmarkedMembers m o

theorem unmarked_none (o : Object) : unmarked Marks.none o = o := Json.unmarkedMembers_none o

theorem unmarked_cons (m : Marks) (key : String) (value : Json) (o : Object) :
    unmarked m ((key, value) :: o) =
      if m [.key key] then unmarked m o
      else (key, value.unmarked (m.below (.key key))) :: unmarked m o := by
  rw [unmarked, Json.unmarkedMembers]
  rfl

theorem unmarked_nil (m : Marks) : unmarked m [] = [] := rfl

theorem exists_of_mem_unmarked {m : Marks} {key : String} {v : Json} : ∀ {o : Object},
    (key, v) ∈ unmarked m o →
      m [.key key] = false ∧ ∃ w, (key, w) ∈ o ∧ v = w.unmarked (m.below (.key key))
  | [], h => absurd h List.not_mem_nil
  | (k, w) :: o, h => by
    rw [unmarked_cons] at h
    split at h
    · obtain ⟨hm, w', hw, heq⟩ := exists_of_mem_unmarked h
      exact ⟨hm, w', .tail _ hw, heq⟩
    · next hk =>
      rcases List.mem_cons.1 h with heq | h
      · obtain ⟨rfl, rfl⟩ := Prod.mk.inj heq
        exact ⟨by simpa using hk, w, .head _, rfl⟩
      · obtain ⟨hm, w', hw, heq⟩ := exists_of_mem_unmarked h
        exact ⟨hm, w', .tail _ hw, heq⟩

theorem get?_unmarked (m : Marks) (name : String) : ∀ o : Object,
    (unmarked m o).get? name =
      if m [.key name] then none else (o.get? name).map (Json.unmarked (m.below (.key name)))
  | [] => by simp [unmarked_nil]
  | (k, v) :: o => by
    have ih := get?_unmarked m name o
    rw [unmarked_cons, get?_cons]
    by_cases hk : name = k
    · subst hk
      by_cases hm : m [.key name] <;> simp [hm, get?_cons, ih]
    · by_cases hm : m [.key k] <;> simp [hm, hk, get?_cons, ih]

/-- A member without marks stays as it is. -/
theorem get?_unmarked_of_none {m : Marks} {name : String}
    (hm : m.below (.key name) = Marks.none) (o : Object) :
    (unmarked m o).get? name = o.get? name := by
  have hroot : m [.key name] = false := congrFun hm []
  have hid : Json.unmarked Marks.none = id := funext Json.unmarked_none
  rw [get?_unmarked, hroot, if_neg Bool.false_ne_true, hm, hid, Option.map_id_apply]

theorem erase_unmarked (m : Marks) (name : String) : ∀ o : Object,
    (unmarked m o).erase name = unmarked (m.or (Marks.under (.key name) Marks.whole)) o
  | [] => rfl
  | (k, v) :: o => by
    have ih := erase_unmarked m name o
    rw [unmarked_cons, unmarked_cons, ← ih, Marks.below_or]
    by_cases hk : k = name
    · subst hk
      have hroot : m.or (Marks.under (.key k) Marks.whole) [.key k] = true := by
        simp [Marks.or, Marks.under, Marks.whole]
      rw [if_pos hroot]
      split
      · rfl
      · exact List.filter_cons_of_neg (by simp)
    · have hstep : Step.key k ≠ .key name := by simpa using hk
      have hroot : m.or (Marks.under (.key name) Marks.whole) [.key k] = m [.key k] := by
        simp [Marks.or, Marks.under, hk]
      rw [Marks.below_under_of_ne hstep, Marks.or_none, hroot]
      split
      · rfl
      · exact List.filter_cons_of_pos (by simpa using hk)

theorem modify_unmarked {m e : Marks} {name : String} {f : Json → Json} (he : e [] = false) :
    ∀ o : Object, (∀ v, (name, v) ∈ o →
      f (v.unmarked (m.below (.key name))) = v.unmarked ((m.below (.key name)).or e)) →
        (unmarked m o).modify name f = unmarked (m.or (Marks.under (.key name) e)) o
  | [], _ => rfl
  | (k, v) :: o, hf => by
    have ih := modify_unmarked he o fun v hv => hf v (.tail _ hv)
    have hroot : m.or (Marks.under (.key name) e) [.key k] = m [.key k] := by
      simp [Marks.or, Marks.under, he]
    rw [unmarked_cons, unmarked_cons, ← ih, Marks.below_or, hroot]
    by_cases hmk : m [.key k]
    · rw [if_pos hmk, if_pos hmk]
    · rw [if_neg hmk, if_neg hmk, modify, List.map_cons]
      refine congrArg (· :: _) ?_
      by_cases hk : k = name
      · subst hk
        rw [if_pos rfl, hf v (.head _), Marks.below_under_self]
      · rw [if_neg hk, Marks.below_under_of_ne (by simpa using hk), Marks.or_none]

theorem erase_of_get?_eq_none {o : Object} {name : String} (h : o.get? name = none) :
    o.erase name = o := by
  refine List.filter_eq_self.2 fun x hx => ?_
  have hne : x.1 ≠ name := by
    rintro rfl
    have := isSome_get?.2 (List.mem_map_of_mem (f := (·.1)) hx)
    rw [h] at this
    exact Bool.false_ne_true this
  simpa using hne

section Member

variable {m : Marks} {name : String} {f : Json → Marks} {o : Object}

theorem erase_unmarked_member (hf : ∀ v, o.get? name = some v → f v = Marks.whole) :
    (unmarked m o).erase name = unmarked (m.or (Marks.member o name f)) o := by
  unfold Marks.member
  cases hget : o.get? name with
  | none =>
    have hnone : Marks.under (.key name) Marks.none = Marks.none := by
      funext way
      cases way <;> simp [Marks.under, Marks.none]
    rw [erase_of_get?_eq_none (by simp [get?_unmarked, hget]), Option.elim_none, hnone,
      Marks.or_none]
  | some v => rw [Option.elim_some, hf v hget, erase_unmarked]

theorem modify_unmarked_member {g : Json → Json} (ho : o.HasDistinctKeys)
    (hf : ∀ v, o.get? name = some v → f v [] = false
      ∧ g (v.unmarked (m.below (.key name))) = v.unmarked ((m.below (.key name)).or (f v))) :
    (unmarked m o).modify name g = unmarked (m.or (Marks.member o name f)) o := by
  refine modify_unmarked ?_ o fun v hv => ?_
  · cases hget : o.get? name with
    | none => rfl
    | some v => exact (hf v hget).1
  · have hget := ho.get?_eq hv
    rw [hget]
    exact (hf v hget).2

end Member

end Object

namespace Json

/-- Marks in a member where the others have none. -/
theorem marked_member_or {o : Object} (ho : o.HasDistinctKeys) {name : String} {m : Marks}
    (hroot : m [] = false) (hm : m.below (.key name) = Marks.none) (f : Json → Marks) :
    ((obj o).marked ((Marks.member o name f).or m)).Perm
      (((o.get? name).elim [] fun v => v.marked (f v)) ++ (obj o).marked m) := by
  rw [marked_obj (by exact hroot), marked_obj hroot,
    ← Object.flatMap_get? ho name fun v => v.marked (f v)]
  -- in the member under `name` only `f` marks anything, in the others only `m`
  refine .trans (.of_eq ?_) (List.flatMap_append_perm o _ _).symm
  refine List.flatMap_congr fun x hx => ?_
  rw [Marks.below_or]
  by_cases hk : x.1 = name
  · have hget : o.get? name = some x.2 := ho.get?_eq (hk ▸ hx)
    rw [if_pos hk, hk, hm, Marks.or_none, marked_none, List.append_nil, Marks.member,
      Marks.below_under_self, hget]
    rfl
  · rw [if_neg hk, Marks.below_member_of_ne hk, Marks.none_or]
    rfl

theorem pieces_perm_of_root {m : Marks} (h : m.Apart) {v : Json}
    (hv : m [] = false → v.pieces.Perm ((v.marked m).flatMap pieces ++ (v.unmarked m).pieces)) :
    v.pieces.Perm
      ((v.marked m).flatMap pieces ++ if m [] then [] else (v.unmarked m).pieces) := by
  by_cases hroot : m []
  · rw [if_pos hroot, h.eq_whole hroot, marked_whole]
    simp
  · rw [if_neg hroot]
    exact hv (by simpa using hroot)

theorem append_perm_append {α : Type} {l l₁ l₂ r r₁ r₂ : List α} (hl : l.Perm (l₁ ++ l₂))
    (hr : r.Perm (r₁ ++ r₂)) : (l ++ r).Perm ((l₁ ++ r₁) ++ (l₂ ++ r₂)) := by
  refine (hl.append hr).trans ?_
  rw [List.append_assoc, List.append_assoc]
  exact (List.perm_append_comm_assoc l₂ r₁ r₂).append_left l₁

mutual

/-- A piece of the value is in a marked part or is left, and not both. -/
theorem pieces_perm : ∀ (v : Json) {m : Marks}, m.Apart → v.pieces.Perm
    ((v.marked m).flatMap pieces ++ if m [] then [] else (v.unmarked m).pieces)
  | arr items, m, h => pieces_perm_of_root h fun hroot => by
    rw [marked, hroot]
    exact ((itemPieces_perm 0 items h).cons _).trans List.perm_middle.symm
  | obj members, m, h => pieces_perm_of_root h fun hroot => by
    rw [marked, hroot]
    exact ((memberPieces_perm members h).cons _).trans List.perm_middle.symm
  | null, m, h | bool _, m, h | num _, m, h | str _, m, h => pieces_perm_of_root h fun hroot => by
    simp [marked, unmarked, hroot]

theorem itemPieces_perm : ∀ (i : Nat) (items : List Json) {m : Marks}, m.Apart →
    (itemPieces items).Perm
      ((markedItems m i items).flatMap pieces ++ itemPieces (unmarkedItems m i items))
  | _, [], _, _ => .refl _
  | i, item :: items, m, h => by
    have hstep := append_perm_append (pieces_perm item (h.below (.item i)))
      (itemPieces_perm (i + 1) items h)
    unfold markedItems unmarkedItems
    rw [List.flatMap_append]
    by_cases hi : m [.item i]
    · rw [if_pos hi]
      rwa [if_pos (show m.below (.item i) [] from hi)] at hstep
    · rw [if_neg hi]
      rwa [if_neg (show ¬ m.below (.item i) [] from hi)] at hstep

theorem memberPieces_perm : ∀ (members : List (String × Json)) {m : Marks}, m.Apart →
    (memberPieces members).Perm
      ((markedMembers m members).flatMap pieces ++ memberPieces (unmarkedMembers m members))
  | [], _, _ => .refl _
  | (key, value) :: members, m, h => by
    have hstep := append_perm_append (pieces_perm value (h.below (.key key)))
      (memberPieces_perm members h)
    unfold markedMembers unmarkedMembers
    rw [List.flatMap_append]
    by_cases hk : m [.key key]
    · rw [if_pos hk]
      rwa [if_pos (show m.below (.key key) [] from hk)] at hstep
    · rw [if_neg hk]
      rwa [if_neg (show ¬ m.below (.key key) [] from hk)] at hstep

end

end Json

end JsonSelect
