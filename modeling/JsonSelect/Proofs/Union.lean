import JsonSelect.Proofs.Entries
import JsonSelect.Proofs.Exclusion
import JsonSelect.Proofs.Joining

/-!
# Pruning with two selectors

A selector whose picks at every place are those of two others takes the parts that these take
(`Selector.Unites.finds_iff`), in whatever order its descents come. So pruning with it is pruning
with the one and then with the other, although the first pruning has deleted some of what the second
one selects (`Selector.Unites.prune_prune`). Two texts, one behind the other, write such a selector
(`Selector.pruneAll_join`).
-/

namespace JsonSelect.Selector

open Outline

/-- No field at the root has a subset. -/
def FieldsWhole (s : Selector) : Prop := ∀ pick, (.field, pick) ∈ s.picks → pick.subset = none

theorem fieldsWhole_nil : nil.FieldsWhole := fun _ hp => absurd hp List.not_mem_nil

section Union

variable {s s₁ s₂ : Selector}

/-- A descent of the token leads to what stands inside, if a part is taken there. -/
theorem Finds.of_inside {o child : Object} {pick : Pick} {v : Json} {way way' : List Step}
    (hs : s.Sound) (hp : Pick.ofToken pick.token = .ok pick) (hv : o.get? pick.name = some v)
    (hl : Subset.Leads pick.subset v way child) (h : Finds (s.inside pick.token) child way') :
    Finds s o (.key pick.name :: (way ++ way')) := by
  have hne : s.inside pick.token ≠ nil := by
    intro hnil
    rw [hnil] at h
    cases h with
    | field hp _ _ => exact List.not_mem_nil hp
    | descend hd _ _ _ => exact List.not_mem_nil hd
  obtain ⟨pick', htoken, hd⟩ := exists_of_inside_ne_nil hne
  obtain rfl : pick' = pick := by
    have hp' := (hs.of_mem_descents hd).1
    rw [htoken, hp] at hp'
    exact (Except.ok.inj hp').symm
  exact .descend hd hv hl h

/-- More picks take more parts. -/
theorem Finds.of_subset {o : Object} {way : List Step} (h : Finds s o way) :
    ∀ {t : Selector}, s.Sound → t.Sound →
      (∀ path, ∀ x ∈ (follow path s).picks, x ∈ (follow path t).picks) → Finds t o way := by
  induction h with
  | field hp hv ht => exact fun _ _ hpicks => .field (hpicks [] _ hp) hv ht
  | @descend s inner _ _ pick _ _ _ hd hv hl _ ih =>
    intro t hs ht hpicks
    obtain ⟨hp, -, hinner⟩ := hs.of_mem_descents hd
    refine .of_inside ht hp hv hl (ih hinner (ht.follow [pick.token]) fun path x hx => ?_)
    rw [← hs.inside_eq hd] at hx
    exact hpicks (pick.token :: path) x hx

/-- The picks of `s` at every place are those of `s₁` and `s₂`. -/
def Unites (s₁ s₂ s : Selector) : Prop := ∀ path x,
  x ∈ (follow path s).picks ↔ x ∈ (follow path s₁).picks ∨ x ∈ (follow path s₂).picks

/-- By induction on the way: each descent of `s` is a descent of one of the others. -/
theorem Unites.finds_iff (hpicks : Unites s₁ s₂ s) (hs : s.Sound) (h₁ : s₁.Sound) (h₂ : s₂.Sound)
    {o : Object} {way : List Step} : Finds s o way ↔ Finds s₁ o way ∨ Finds s₂ o way := by
  constructor
  · intro h
    induction h generalizing s₁ s₂ with
    | field hp hv ht => exact ((hpicks [] _).1 hp).imp (.field · hv ht) (.field · hv ht)
    | @descend s inner _ _ pick _ _ _ hd hv hl _ ih =>
      obtain ⟨hp, -, hinner⟩ := hs.of_mem_descents hd
      have hin : Unites (s₁.inside pick.token) (s₂.inside pick.token) inner := by
        rw [← hs.inside_eq hd]
        exact fun path => hpicks (pick.token :: path)
      exact (ih hin hinner (h₁.follow [pick.token]) (h₂.follow [pick.token])).imp
        (.of_inside h₁ hp hv hl) (.of_inside h₂ hp hv hl)
  · intro h
    rcases h with h | h
    · exact h.of_subset h₁ hs fun path x hx => (hpicks path x).2 (.inl hx)
    · exact h.of_subset h₂ hs fun path x hx => (hpicks path x).2 (.inr hx)

theorem Unites.prune_prune (hpicks : Unites s₁ s₂ s) (hs : s.Sound) (h₁ : s₁.Sound)
    (h₂ : s₂.Sound) (hw : s.TakesWhole) (hw₁ : s₁.TakesWhole) (hw₂ : s₂.TakesWhole) {o : Object}
    (ho : (Json.obj o).Proper) : s₂.prune (s₁.prune o) = s.prune o := by
  have hmarks : (s₁.marks o).or (s₂.marks o) = s.marks o := by
    funext way
    rw [Bool.eq_iff_iff, marks_iff_finds, hpicks.finds_iff hs h₁ h₂, ← marks_iff_finds,
      ← marks_iff_finds]
    exact Bool.or_eq_true_iff
  rw [prune_eq_of_takesWhole hw₁ ho,
    prune_unmarked_of_takesWhole hw₂ ho (sparesItems_marks hw₁ o), hmarks,
    prune_eq_of_takesWhole hw ho]

theorem Unites.fieldsWhole (hpicks : Unites s₁ s₂ s)
    (h₁ : ∀ path, (follow path s₁).FieldsWhole) (h₂ : ∀ path, (follow path s₂).FieldsWhole)
    (path : List String) : (follow path s).FieldsWhole := fun pick hp =>
  ((hpicks path (.field, pick)).1 hp).elim (h₁ path pick) (h₂ path pick)

end Union

section Texts

variable {t₁ t₂ : String} {s₁ s₂ : Selector}

theorem exists_parse_join (h₁ : parse t₁ = .ok s₁) (h₂ : parse t₂ = .ok s₂)
    (hclosed : depthThrough 0 t₁.toList = 0)
    (hhead : ∀ c ∈ (t₂.toList.dropWhile separates).head?, c ≠ '\x7b') :
    ∃ s, parse (t₁ ++ " " ++ t₂) = .ok s ∧ Unites s₁ s₂ s := by
  obtain ⟨es₁, he₁, hpicks₁, -⟩ := exists_entries_of_parse h₁
  obtain ⟨es₂, he₂, hpicks₂, -⟩ := exists_entries_of_parse h₂
  have hjoin : Outline.entries [] (ofChars (t₁ ++ " " ++ t₂).toList) = .ok (es₁ ++ es₂) := by
    have := entries_join he₂ hhead t₁.toList hclosed he₁
    simpa [ofChars] using this
  have h : parse (t₁ ++ " " ++ t₂) = .ok (ofEntries (es₁ ++ es₂)) := by
    rw [parse, hjoin]
    rfl
  obtain ⟨es, he, hpicks, -⟩ := exists_entries_of_parse h
  obtain rfl : es₁ ++ es₂ = es := Except.ok.inj (hjoin.symm.trans he)
  refine ⟨_, h, fun path x => ?_⟩
  rw [hpicks, hpicks₁, hpicks₂]
  simp [or_and_right, exists_or]

/-- Pruning with one selector and then with another is pruning with the selector that their texts
write one behind the other. -/
theorem pruneAll_join (h₁ : parse t₁ = .ok s₁) (h₂ : parse t₂ = .ok s₂)
    (hclosed : depthThrough 0 t₁.toList = 0)
    (hhead : ∀ c ∈ (t₂.toList.dropWhile separates).head?, c ≠ '\x7b')
    (hfields₁ : ∀ address pick, (.field, pick) ∈ (s₁.atAddress address).picks → pick.subset = none)
    (hfields₂ : ∀ address pick, (.field, pick) ∈ (s₂.atAddress address).picks →
      pick.subset = none) :
    ∃ s, parse (t₁ ++ " " ++ t₂) = .ok s ∧ ∀ nodes : List Object,
      (∀ node ∈ nodes, (Json.obj node).Proper) →
        s₂.pruneAll (s₁.pruneAll nodes) = s.pruneAll nodes := by
  obtain ⟨s, h, hunites⟩ := exists_parse_join h₁ h₂ hclosed hhead
  have hs := sound_of_parse h
  have hs₁ := sound_of_parse h₁
  have hs₂ := sound_of_parse h₂
  have hfields := hunites.fieldsWhole (hs₁.follow_of_atAddress fieldsWhole_nil hfields₁)
    (hs₂.follow_of_atAddress fieldsWhole_nil hfields₂)
  have hw := takesWhole_of_atAddress hs (hs.atAddress_of_follow fieldsWhole_nil hfields)
  refine ⟨s, h, fun nodes hnodes => ?_⟩
  rw [pruneAll_eq_map, pruneAll_eq_map, pruneAll_eq_map, List.map_map]
  exact List.map_congr_left fun node hn => hunites.prune_prune hs hs₁ hs₂ hw
    (takesWhole_of_atAddress hs₁ hfields₁) (takesWhole_of_atAddress hs₂ hfields₂) (hnodes node hn)

theorem pruneAll_join_chain :
    ∃ (s₁ s₂ s : Selector) (nodes : List Object), parse "k a[1].b" = .ok s₁
      ∧ parse "a\x7bc\x7d k" = .ok s₂ ∧ parse "k a[1].b a\x7bc\x7d k" = .ok s
      ∧ nodes = [[("a", .arr [.obj [("b", .null), ("c", .null)], .obj [("b", .null)]]),
        ("k", .null)], [("c", .null), ("k", .null)]]
      ∧ s.pruneAll nodes = [[("a", .arr [.obj [], .obj [("b", .null)]])], [("c", .null)]]
      ∧ s₂.pruneAll (s₁.pruneAll nodes) = s.pruneAll nodes := by
  have hparse₁ : parse "k a[1].b" = .ok (.field ⟨"k", "k", none⟩
      (.descend ⟨"a[1]", "a", some ⟨some 0, some 0⟩⟩ (.field ⟨"b", "b", none⟩ .nil) .nil)) := by
    decide
  have hparse₂ : parse "a\x7bc\x7d k" = .ok (.field ⟨"k", "k", none⟩
      (.descend ⟨"a", "a", none⟩ (.field ⟨"c", "c", none⟩ .nil) .nil)) := by
    decide
  have hindex₁ : ∀ e ∈ index (.field ⟨"k", "k", none⟩ (.descend ⟨"a[1]", "a", some ⟨some 0, some 0⟩⟩
      (.field ⟨"b", "b", none⟩ .nil) .nil)), ∀ x ∈ e.2.picks, x.1 = .field → x.2.subset = none := by
    decide
  have hindex₂ : ∀ e ∈ index (.field ⟨"k", "k", none⟩ (.descend ⟨"a", "a", none⟩
      (.field ⟨"c", "c", none⟩ .nil) .nil)), ∀ x ∈ e.2.picks, x.1 = .field → x.2.subset = none := by
    decide
  have hnodes : ∀ node ∈ [[("a", Json.arr [.obj [("b", .null), ("c", .null)], .obj [("b", .null)]]),
      ("k", .null)], [("c", .null), ("k", .null)]], (Json.obj node).Proper := by
    simp [Object.HasDistinctKeys, Object.keys, or_imp, forall_and]
  obtain ⟨s, hparse, hprune⟩ := pruneAll_join hparse₁ hparse₂ (by decide) (by simp [separates])
    (fun address _ hp => picks_atAddress_of_index hindex₁ address _ hp rfl)
    (fun address _ hp => picks_atAddress_of_index hindex₂ address _ hp rfl)
  have heq := hprune _ hnodes
  refine ⟨_, _, s, _, hparse₁, hparse₂, hparse, rfl, ?_, heq⟩
  rw [← heq]
  decide

end Texts

end JsonSelect.Selector
