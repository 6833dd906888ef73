import JsonSelect.Json.Basic

/-!
# Objects

The operations speak of the member under a key. The keys of an object that was read from a text are
distinct (`Object.HasDistinctKeys`), and every operation keeps them so. Erasing and modifying keep
the order of the keys (`keys_erase`, `keys_modify`); inserting adds a key at the end if it is new
(`keys_insert`). What is found under a key afterwards is said by `get?_erase`, `get?_modify` and
`get?_insert`.
-/

namespace JsonSelect

namespace Object

def keys (o : Object) : List String := o.map (·.1)

def HasDistinctKeys (o : Object) : Prop := o.keys.Nodup

def get? (o : Object) (key : String) : Option Json := o.lookup key

/-- The object without the member under `key`. -/
def erase (o : Object) (key : String) : Object := o.filter fun m => m.1 != key

/-- The object with `f` applied to the value under `key`. -/
def modify (o : Object) (key : String) (f : Json → Json) : Object :=
  o.map fun m => if m.1 = key then (m.1, f m.2) else m

/-- The object with `value` under `key`, at the place of an earlier member of that key if there is
one and at the end if not. -/
def insert (o : Object) (key : String) (value : Json) : Object :=
  if (o.get? key).isSome then o.modify key fun _ => value else o ++ [(key, value)]

@[simp] theorem get?_nil (key : String) : get? [] key = none := rfl

theorem get?_cons (m : String × Json) (o : Object) (key : String) :
    get? (m :: o) key = if key = m.1 then some m.2 else o.get? key := by
  obtain ⟨k, v⟩ := m
  by_cases h : key = k
  · simp [get?, h]
  · simp [get?, List.lookup_cons, h, beq_eq_false_iff_ne.2 h]

theorem isSome_get? {key : String} : ∀ {o : Object}, (o.get? key).isSome ↔ key ∈ o.keys
  | [] => by simp [keys]
  | m :: o => by
    rw [get?_cons]
    by_cases h : key = m.1
    · simp [keys, h]
    · simpa [keys, h] using isSome_get? (o := o)

theorem get?_erase (key k : String) :
    ∀ o : Object, (o.erase key).get? k = if k = key then none else o.get? k
  | [] => by simp [erase]
  | m :: o => by
    have ih := get?_erase key k o
    rw [erase, List.filter_cons]
    by_cases h : m.1 = key
    · by_cases hk : k = key <;> simp_all [erase, get?_cons]
    · by_cases hk : k = m.1 <;> simp_all [erase, get?_cons]

theorem get?_modify (key k : String) (f : Json → Json) :
    ∀ o : Object, (o.modify key f).get? k = if k = key then (o.get? k).map f else o.get? k
  | [] => by simp [modify]
  | m :: o => by
    have ih := get?_modify key k f o
    rw [modify, List.map_cons, get?_cons, get?_cons]
    by_cases h : m.1 = key
    · by_cases hk : k = m.1 <;> simp_all [modify]
    · have ih : get? (List.map _ o) k = _ := ih
      rw [if_neg h, ih]
      by_cases hk : k = m.1
      · simp [hk, h]
      · simp [hk]

theorem get?_append (o p : Object) (key : String) :
    get? (o ++ p) key = (o.get? key).or (p.get? key) := by
  induction o with
  | nil => simp
  | cons m o ih =>
    rw [List.cons_append, get?_cons, get?_cons, ih]
    split <;> simp

theorem get?_insert (o : Object) (key k : String) (value : Json) :
    (o.insert key value).get? k = if k = key then some value else o.get? k := by
  rw [insert]
  split
  · next h =>
    obtain ⟨v, hv⟩ := Option.isSome_iff_exists.1 h
    rw [get?_modify]
    by_cases hk : k = key
    · simp [hk, hv]
    · simp [hk]
  · next h =>
    rw [get?_append, get?_cons]
    by_cases hk : k = key
    · subst hk
      simp at h
      simp [h]
    · simp [hk]

theorem keys_erase (o : Object) (key : String) :
    (o.erase key).keys = o.keys.filter fun k => k != key := by
  simp [keys, erase, List.filter_map, Function.comp_def]

@[simp] theorem keys_modify (o : Object) (key : String) (f : Json → Json) :
    (o.modify key f).keys = o.keys := by
  simp only [keys, modify, List.map_map]
  refine List.map_congr_left fun m _ => ?_
  by_cases h : m.1 = key <;> simp [h]

theorem keys_insert (o : Object) (key : String) (value : Json) :
    (o.insert key value).keys = if key ∈ o.keys then o.keys else o.keys ++ [key] := by
  rw [insert]
  by_cases h : key ∈ o.keys
  · rw [if_pos (isSome_get?.2 h), if_pos h, keys_modify]
  · rw [if_neg (mt isSome_get?.1 h), if_neg h]
    simp [keys]

theorem HasDistinctKeys.erase {o : Object} (h : o.HasDistinctKeys) (key : String) :
    (o.erase key).HasDistinctKeys := by
  rw [HasDistinctKeys, keys_erase]
  exact h.filter _

theorem HasDistinctKeys.modify {o : Object} (h : o.HasDistinctKeys) (key : String)
    (f : Json → Json) : (o.modify key f).HasDistinctKeys := by
  rwa [HasDistinctKeys, keys_modify]

theorem HasDistinctKeys.insert {o : Object} (h : o.HasDistinctKeys) (key : String) (value : Json) :
    (o.insert key value).HasDistinctKeys := by
  rw [HasDistinctKeys, keys_insert]
  split
  · exact h
  · next hk =>
    refine List.nodup_append.2 ⟨h, by simp, fun a ha b hb => ?_⟩
    rw [List.mem_singleton.1 hb]
    exact fun hab => hk (hab ▸ ha)

end Object

end JsonSelect
