import JsonSelect.Proofs.Sound
import JsonSelect.Selector.Index

/-!
# The selectors at the addresses of a selector

The selector at an address of words is the one found along these words
(`Selector.Sound.atAddress_ofPath`). So the address one segment further down holds what a descent
leads to (`Selector.Sound.atAddress_child`), and walking the addresses is walking the selector: what
holds of the selectors at the addresses holds of every one that descents lead to
(`Selector.Sound.everywhere`).
-/

namespace JsonSelect.Selector

open Outline

/-- What the descent of `token` leads to, nothing if there is none. -/
def inside (token : String) : Selector → Selector
  | nil => nil
  | field _ rest => rest.inside token
  | descend pick inner rest => if pick.token = token then inner else rest.inside token

/-- The selector found along a path. -/
def follow : List String → Selector → Selector
  | [], s => s
  | token :: path, s => follow path (s.inside token)

theorem follow_concat (token : String) : ∀ (path : List String) (s : Selector),
    follow (path ++ [token]) s = (follow path s).inside token
  | [], _ => rfl
  | _ :: path, _ => follow_concat token path _

theorem follow_nil : ∀ path : List String, follow path nil = nil
  | [] => rfl
  | _ :: path => follow_nil path

theorem inside_eq_nil {token : String} : ∀ {s : Selector},
    (∀ d ∈ s.descents, d.1.token ≠ token) → s.inside token = nil
  | nil, _ => rfl
  | field _ rest, h => inside_eq_nil (s := rest) h
  | descend _ _ _, h => by
    obtain ⟨hne, hrest⟩ := List.forall_mem_cons.1 h
    unfold inside
    rw [if_neg hne, inside_eq_nil hrest]

theorem Sound.inside_eq {pick : Pick} {inner : Selector} : ∀ {s : Selector}, s.Sound →
    (pick, inner) ∈ s.descents → s.inside pick.token = inner
  | field _ _, h, hm => h.2.inside_eq hm
  | descend p _ _, h, hm => by
    rcases List.mem_cons.1 hm with heq | hm
    · obtain ⟨rfl, rfl⟩ := Prod.mk.inj heq
      unfold inside
      rw [if_pos rfl]
    · have hne := h.2.2.1 _ hm
      unfold inside
      rw [if_neg hne.symm, h.2.2.2.2.inside_eq hm]

theorem exists_of_inside_ne_nil {token : String} : ∀ {s : Selector}, s.inside token ≠ nil →
    ∃ pick, pick.token = token ∧ (pick, s.inside token) ∈ s.descents
  | nil, h => absurd rfl h
  | field _ rest, h => exists_of_inside_ne_nil (s := rest) h
  | descend p inner rest, h => by
    unfold inside at h ⊢
    split
    · next heq => exact ⟨p, heq, .head _⟩
    · next hne =>
      rw [if_neg hne] at h
      obtain ⟨pick, hp, hm⟩ := exists_of_inside_ne_nil h
      exact ⟨pick, hp, .tail _ hm⟩

/-- Only words lead to an occupied place. -/
theorem Sound.isPath : ∀ {path : List String} {s : Selector}, s.Sound → follow path s ≠ nil →
    Address.IsPath path
  | [], _, _, _ => Address.isPath_nil
  | token :: path, s, h, hne => by
    have hin : s.inside token ≠ nil := fun hnil => hne (by rw [follow, hnil, follow_nil])
    obtain ⟨pick, rfl, hm⟩ := exists_of_inside_ne_nil hin
    obtain ⟨-, hw, hi⟩ := h.of_mem_descents hm
    exact Address.isPath_cons.2 ⟨hw, hi.isPath hne⟩

theorem isEmpty_iff {s : Selector} : s.isEmpty ↔ s = nil := by
  cases s <;> simp [isEmpty]

/-- The places of a selector that is found at `place` itself, by those below it. -/
theorem mem_places_of_placesBelow {place q : List String} {s t : Selector}
    (h : (q, t) ∈ s.placesBelow place ↔
      ∃ token path, q = place ++ token :: path ∧ follow path (s.inside token) = t ∧ t ≠ nil) :
    ((q, t) ∈ if s.isEmpty then [] else (place, s) :: s.placesBelow place) ↔
      ∃ path, q = place ++ path ∧ follow path s = t ∧ t ≠ nil := by
  split
  · next hs =>
    refine iff_of_false List.not_mem_nil ?_
    rintro ⟨path, -, rfl, hne⟩
    rw [isEmpty_iff.1 hs, follow_nil] at hne
    exact hne rfl
  · next hs =>
    rw [List.mem_cons, h]
    constructor
    · intro hcase
      rcases hcase with heq | ⟨token, path, rfl, rfl, hne⟩
      · obtain ⟨rfl, rfl⟩ := Prod.mk.inj heq
        exact ⟨[], by simp, rfl, fun hnil => hs (isEmpty_iff.2 hnil)⟩
      · exact ⟨token :: path, rfl, rfl, hne⟩
    · intro hcase
      rcases hcase with ⟨_ | ⟨token, path⟩, rfl, rfl, hne⟩
      · exact .inl (by rw [List.append_nil]; rfl)
      · exact .inr ⟨token, path, rfl, rfl, hne⟩

theorem mem_placesBelow : ∀ {s : Selector} {place q : List String} {t : Selector}, s.Sound →
    ((q, t) ∈ s.placesBelow place ↔
      ∃ token path, q = place ++ token :: path ∧ follow path (s.inside token) = t ∧ t ≠ nil)
  | nil, _, _, _, _ => by
    refine iff_of_false List.not_mem_nil ?_
    rintro ⟨token, path, -, rfl, hne⟩
    exact hne (follow_nil path)
  | field _ rest, _, _, _, h => mem_placesBelow (s := rest) h.2
  | descend p inner rest, place, q, t, h => by
    unfold placesBelow
    rw [List.mem_append, mem_places_of_placesBelow (mem_placesBelow h.2.2.2.1),
      mem_placesBelow h.2.2.2.2]
    constructor
    · intro hcase
      rcases hcase with ⟨path, rfl, rfl, hne⟩ | ⟨token, path, rfl, rfl, hne⟩
      · exact ⟨p.token, path, by simp, by rw [inside, if_pos rfl], hne⟩
      · -- another descent of the same token would be found first, but there is none
        have hin : rest.inside token ≠ nil := fun hnil => hne (by rw [hnil, follow_nil])
        obtain ⟨pick, rfl, hm⟩ := exists_of_inside_ne_nil hin
        exact ⟨pick.token, path, rfl, by rw [inside, if_neg (h.2.2.1 _ hm).symm], hne⟩
    · rintro ⟨token, path, rfl, rfl, hne⟩
      rw [inside] at hne ⊢
      split
      · next heq =>
        rw [if_pos heq] at hne
        exact .inl ⟨path, by simp [heq], rfl, hne⟩
      · next hneq =>
        rw [if_neg hneq] at hne
        exact .inr ⟨token, path, rfl, rfl, hne⟩

theorem Sound.mem_places {path : List String} {s t : Selector} (h : s.Sound) :
    (path, t) ∈ s.places ↔ follow path s = t ∧ t ≠ nil := by
  unfold places
  rw [mem_places_of_placesBelow (mem_placesBelow h)]
  constructor
  · rintro ⟨path, rfl, hf, hne⟩
    exact ⟨hf, hne⟩
  · exact fun ⟨hf, hne⟩ => ⟨path, rfl, hf, hne⟩

theorem Sound.mem_index {address : String} {s t : Selector} (h : s.Sound) :
    (address, t) ∈ s.index ↔
      ∃ path, Address.ofPath path = address ∧ follow path s = t ∧ t ≠ nil := by
  unfold index
  constructor
  · intro hm
    obtain ⟨⟨path, t'⟩, hp, heq⟩ := List.mem_map.1 hm
    obtain ⟨rfl, rfl⟩ := Prod.mk.inj heq
    exact ⟨path, rfl, h.mem_places.1 hp⟩
  · rintro ⟨path, rfl, hf⟩
    exact List.mem_map.2 ⟨(path, t), h.mem_places.2 hf, rfl⟩

theorem Sound.mem_addresses {s : Selector} (h : s.Sound) {address : String} :
    address ∈ s.addresses ↔ ∃ path, Address.ofPath path = address
      ∧ Selector.follow path s ≠ nil := by
  unfold addresses
  rw [List.mem_mergeSort, List.mem_map]
  constructor
  · rintro ⟨⟨_, t⟩, hm, rfl⟩
    obtain ⟨path, haddr, rfl, hne⟩ := h.mem_index.1 hm
    exact ⟨path, haddr, hne⟩
  · rintro ⟨path, rfl, hne⟩
    exact ⟨(_, _), h.mem_index.2 ⟨path, rfl, rfl, hne⟩, rfl⟩

theorem atAddress_eq_nil_or_mem (s : Selector) (address : String) :
    s.atAddress address = nil ∨ (address, s.atAddress address) ∈ s.index := by
  unfold atAddress
  cases hl : s.index.lookup address with
  | none => exact .inl rfl
  | some t =>
    obtain ⟨l, l', heq, -⟩ := List.lookup_eq_some_iff.1 hl
    exact .inr (heq ▸ List.mem_append_right l (.head l'))

theorem atAddress_of_index {s : Selector} {P : Selector → Prop} (hnil : P nil)
    (h : ∀ e ∈ s.index, P e.2) (address : String) : P (s.atAddress address) := by
  rcases s.atAddress_eq_nil_or_mem address with heq | hm
  · rwa [heq]
  · exact h _ hm

theorem picks_atAddress_of_index {s : Selector} {P : Role × Pick → Prop}
    (h : ∀ e ∈ s.index, ∀ x ∈ e.2.picks, P x) :
    ∀ address, ∀ x ∈ (s.atAddress address).picks, P x :=
  atAddress_of_index (P := fun t => ∀ x ∈ t.picks, P x) (by simp [picks]) h

theorem Sound.exists_path {s : Selector} (h : s.Sound) {address : String}
    (hne : s.atAddress address ≠ nil) :
    ∃ path, Address.IsPath path ∧ Address.ofPath path = address
      ∧ follow path s = s.atAddress address := by
  have hm := (s.atAddress_eq_nil_or_mem address).resolve_left hne
  obtain ⟨path, haddr, hf, -⟩ := h.mem_index.1 hm
  exact ⟨path, h.isPath (by rwa [hf]), haddr, hf⟩

theorem Sound.atAddress_ofPath {s : Selector} (h : s.Sound) {path : List String}
    (hp : Address.IsPath path) : s.atAddress (Address.ofPath path) = follow path s := by
  by_cases hne : s.atAddress (Address.ofPath path) = nil
  · by_contra hf
    have hm := h.mem_index.2 ⟨path, rfl, rfl, fun hnil => hf (hne.trans hnil.symm)⟩
    unfold atAddress at hne
    cases hl : s.index.lookup (Address.ofPath path) with
    | none => simpa using List.lookup_eq_none_iff.1 hl _ hm
    | some t =>
      obtain ⟨l, l', heq, -⟩ := List.lookup_eq_some_iff.1 hl
      obtain ⟨-, -, -, ht⟩ := h.mem_index.1 (heq ▸ List.mem_append_right l (.head l'))
      exact ht (by simpa [hl] using hne)
  · obtain ⟨path', hp', haddr, hf⟩ := h.exists_path hne
    rw [← hf, Address.ofPath_injective hp' hp haddr]

theorem Sound.atAddress_empty {s : Selector} (h : s.Sound) : s.atAddress "" = s :=
  h.atAddress_ofPath Address.isPath_nil

theorem Sound.follow : ∀ (path : List String) {s : Selector}, s.Sound → (follow path s).Sound
  | [], _, h => h
  | token :: path, s, h => by
    refine Sound.follow path ?_
    by_cases hin : s.inside token = nil
    · rw [hin]
      exact trivial
    · obtain ⟨pick, -, hm⟩ := exists_of_inside_ne_nil hin
      exact (h.of_mem_descents hm).2.2

theorem Arranged.follow : ∀ (path : List String) {s : Selector}, s.Arranged →
    (follow path s).Arranged
  | [], _, h => h
  | token :: path, s, h => by
    refine Arranged.follow path ?_
    by_cases hin : s.inside token = nil
    · rw [hin]
      exact trivial
    · obtain ⟨pick, -, hm⟩ := exists_of_inside_ne_nil hin
      exact h.of_mem_descents hm

/-- What holds along every path holds at every address. -/
theorem Sound.atAddress_of_follow {s : Selector} (h : s.Sound) {P : Selector → Prop} (hnil : P nil)
    (hp : ∀ path, P (Selector.follow path s)) (address : String) : P (s.atAddress address) := by
  by_cases hne : s.atAddress address = nil
  · rwa [hne]
  · obtain ⟨path, -, -, hf⟩ := h.exists_path hne
    rw [← hf]
    exact hp path

/-- What holds at every address holds along every path. -/
theorem Sound.follow_of_atAddress {s : Selector} (h : s.Sound) {P : Selector → Prop} (hnil : P nil)
    (ha : ∀ address, P (s.atAddress address)) (path : List String) :
    P (Selector.follow path s) := by
  by_cases hne : Selector.follow path s = nil
  · rwa [hne]
  · rw [← h.atAddress_ofPath (h.isPath hne)]
    exact ha _

theorem Sound.arranged_atAddress {s : Selector} (h : s.Sound) (ha : s.Arranged) :
    ∀ address, (s.atAddress address).Arranged :=
  h.atAddress_of_follow trivial ha.follow

theorem Sound.atAddress {s : Selector} (h : s.Sound) : ∀ address, (s.atAddress address).Sound :=
  h.atAddress_of_follow trivial h.follow

/-- Where a descent stands at an address, its token is a word, and one segment further down is what
it leads to. -/
theorem Sound.exists_path_of_mem_descents {s inner : Selector} {pick : Pick} (h : s.Sound)
    {address : String} (hm : (pick, inner) ∈ (s.atAddress address).descents) :
    ∃ path, Address.ofPath path = address ∧ (pick, inner) ∈ (Selector.follow path s).descents
      ∧ Address.IsPath (path ++ [pick.token])
      ∧ Address.ofPath (path ++ [pick.token]) = Address.child address pick.token
      ∧ Selector.follow (path ++ [pick.token]) s = inner := by
  have hne : s.atAddress address ≠ nil := by
    intro hnil
    rw [hnil] at hm
    exact List.not_mem_nil hm
  obtain ⟨path, hp, rfl, hf⟩ := h.exists_path hne
  rw [← hf] at hm
  have hw := ((h.follow path).of_mem_descents hm).2.1
  refine ⟨path, rfl, hm, Address.isPath_append.2 ⟨hp, Address.isPath_singleton.2 hw⟩,
    Address.ofPath_concat hp pick.token, ?_⟩
  rw [follow_concat, (h.follow path).inside_eq hm]

/-- The selector that a descent at an address leads to is found at its child address. -/
theorem Sound.atAddress_child {s inner : Selector} {pick : Pick} (h : s.Sound) {address : String}
    (hm : (pick, inner) ∈ (s.atAddress address).descents) :
    s.atAddress (Address.child address pick.token) = inner := by
  obtain ⟨path, -, -, hp, hchild, hf⟩ := h.exists_path_of_mem_descents hm
  rw [← hchild, h.atAddress_ofPath hp, hf]

/-- What a descent at an address leads to. -/
def innerAt (s : Selector) (address : String) (pick : Pick) : Selector :=
  s.atAddress (Address.child address pick.token)

theorem Sound.innerAt_eq {s : Selector} (hs : s.Sound) (address : String) :
    ∀ d ∈ (s.atAddress address).descents, s.innerAt address d.1 = d.2 :=
  fun _ hd => hs.atAddress_child hd

/-- The selector, and every one that descents lead to from it, has the property. -/
inductive Everywhere (P : Selector → Prop) : Selector → Prop
  | intro {s : Selector} (here : P s) (below : ∀ d ∈ s.descents, Everywhere P d.2) : Everywhere P s

namespace Everywhere

variable {P : Selector → Prop} {s inner rest : Selector} {pick : Pick}

theorem here (h : s.Everywhere P) : P s := by
  obtain ⟨hs, -⟩ := h
  exact hs

theorem of_descend (h : (descend pick inner rest).Everywhere P) : inner.Everywhere P := by
  obtain ⟨-, hbelow⟩ := h
  exact hbelow (pick, inner) (.head _)

theorem rest_field (h : (field pick rest).Everywhere P) (hrest : P rest) : rest.Everywhere P := by
  obtain ⟨-, hbelow⟩ := h
  exact ⟨hrest, hbelow⟩

theorem rest_descend (h : (descend pick inner rest).Everywhere P) (hrest : P rest) :
    rest.Everywhere P := by
  obtain ⟨-, hbelow⟩ := h
  exact ⟨hrest, fun d hd => hbelow d (.tail _ hd)⟩

end Everywhere

theorem sizeOf_of_mem_descents {d : Pick × Selector} : ∀ {s : Selector}, d ∈ s.descents →
    sizeOf d.2 < sizeOf s
  | field _ rest, h => by
    have := sizeOf_of_mem_descents (s := rest) h
    simp only [field.sizeOf_spec]
    omega
  | descend _ inner rest, h => by
    simp only [descend.sizeOf_spec]
    rcases List.mem_cons.1 h with rfl | h
    · dsimp only
      omega
    · have := sizeOf_of_mem_descents h
      omega

/-- What holds of a selector if it holds of those that its descents lead to. -/
theorem descents_induction {motive : Selector → Prop}
    (h : ∀ s : Selector, (∀ d ∈ s.descents, motive d.2) → motive s) (s : Selector) : motive s := by
  induction s using WellFounded.induction (measure (sizeOf : Selector → Nat)).wf with
  | _ s ih => exact h s fun d hd => ih d.2 (sizeOf_of_mem_descents hd)

/-- What holds at an address if it holds at the addresses that its descents lead to. -/
theorem Sound.address_induction {s : Selector} (hs : s.Sound) {motive : String → Prop}
    (h : ∀ address, (∀ d ∈ (s.atAddress address).descents,
      motive (Address.child address d.1.token)) → motive address)
    (address : String) : motive address := by
  have hplace : ∀ (t : Selector) (address : String), s.atAddress address = t →
      motive address := by
    intro t
    induction t using descents_induction with
    | h t ih =>
      rintro address rfl
      exact h address fun d hd => ih d hd _ (hs.atAddress_child hd)
  exact hplace _ address rfl

/-- What holds of the selectors at the addresses holds everywhere. -/
theorem Sound.everywhere {s : Selector} (hs : s.Sound) {P : Selector → Prop}
    (h : ∀ address, P (s.atAddress address)) : s.Everywhere P := by
  have hplace : ∀ address, (s.atAddress address).Everywhere P := by
    intro address
    induction address using hs.address_induction with
    | h address ih =>
      refine ⟨h address, fun d hd => ?_⟩
      rw [← hs.atAddress_child hd]
      exact ih d hd
  rw [← hs.atAddress_empty]
  exact hplace ""

end JsonSelect.Selector
