import JsonSelect.Proofs.Adding
import JsonSelect.Proofs.Places
import JsonSelect.Selector.Retain

/-!
# Copying pick by pick

The parts that a selector retains are those of its picks, in order (`Selector.parts_eq_flatMap`).
Where the fields stand before the descents it makes no difference whether a descent asks for all
fields that are taken whole or for those found so far (`Selector.foldl_copyPick`). So retaining is a
walk over the picks at an address and at those below it (`Selector.retain_atAddress`).
-/

namespace JsonSelect.Selector

/-- The part that a pick gives, where `inner` is what a descent leads to. -/
def part (whole : List String) (node : Object) (inner : Pick → Selector) :
    Role × Pick → List (String × Json)
  | (.field, pick) => ((node.get? pick.name).map (cut pick.subset)).toList.map (pick.name, ·)
  | (.descend, pick) =>
    if whole.contains pick.name then []
    else ((node.get? pick.name).bind
      (Subset.copyChildren pick.subset (inner pick).retain)).toList.map (pick.name, ·)

theorem parts_eq_flatMap (whole : List String) (node : Object) {f : Pick → Selector} :
    ∀ {s : Selector}, (∀ d ∈ s.descents, f d.1 = d.2) →
      s.parts whole node = s.picks.flatMap (part whole node f)
  | nil, _ => rfl
  | field pick rest, h => by
    unfold parts
    rw [parts_eq_flatMap whole node (s := rest) h, picks, List.flatMap_cons]
    rfl
  | descend pick inner rest, h => by
    obtain ⟨hinner, hrest⟩ := List.forall_mem_cons.1 h
    rw [parts_descend, parts_eq_flatMap whole node hrest, picks, List.flatMap_cons, part, hinner]

theorem mem_wholeNames {name : String} : ∀ {s : Selector},
    name ∈ s.wholeNames ↔ ∃ pick, (.field, pick) ∈ s.picks ∧ pick.subset = none ∧ pick.name = name
  | nil => by simp [wholeNames, picks]
  | field pick rest => by
    unfold wholeNames picks
    split
    · next hnone =>
      rw [List.mem_cons, mem_wholeNames]
      simp [Option.isNone_iff_eq_none.1 hnone, or_and_right, exists_or, eq_comm]
    · next hsome =>
      rw [mem_wholeNames]
      simp [or_and_right, exists_or, mt Option.isNone_iff_eq_none.2 hsome]
  | descend pick inner rest => by
    unfold wholeNames
    rw [mem_wholeNames, picks]
    simp

theorem mem_wholeNames_of_picks {s : Selector} {fields descents : List Pick} {name : String}
    (hpicks : s.picks = fields.map (.field, ·) ++ descents.map (.descend, ·)) :
    name ∈ s.wholeNames ↔ ∃ pick ∈ fields, pick.subset = none ∧ pick.name = name := by
  simp [mem_wholeNames, hpicks]

/-- The object copied so far and the names of the fields taken whole, after one more pick. -/
def copyPick (node : Object) (inner : Pick → Selector) (done : Object × List String) :
    Role × Pick → Object × List String
  | (.field, pick) =>
    match node.get? pick.name with
    | none => done
    | some v => (done.1.add pick.name (cut pick.subset v),
        if pick.subset.isNone then pick.name :: done.2 else done.2)
  | (.descend, pick) =>
    if done.2.contains pick.name then done
    else match (node.get? pick.name).bind
        (Subset.copyChildren pick.subset (inner pick).retain) with
      | none => done
      | some copy => (done.1.add pick.name copy, done.2)

section Folding

variable {whole : List String} {node : Object} {f : Pick → Selector}

theorem fst_copyPick_field (done : Object × List String) (pick : Pick) :
    (copyPick node f done (.field, pick)).1 =
      done.1.addAll (part whole node f (.field, pick)) := by
  rw [copyPick, part]
  cases node.get? pick.name <;> rfl

theorem mem_copyPick_field {done : Object × List String} {pick : Pick} {name : String}
    (hname : (node.get? name).isSome) : name ∈ (copyPick node f done (.field, pick)).2 ↔
      name ∈ done.2 ∨ pick.subset = none ∧ pick.name = name := by
  rw [copyPick]
  cases hv : node.get? pick.name with
  | none =>
    have hne : pick.name ≠ name := by
      rintro rfl
      simp [hv] at hname
    simp [hne]
  | some v => cases pick.subset <;> simp [or_comm, eq_comm]

theorem copyPick_descend {done : Object × List String} {pick : Pick}
    (h : (node.get? pick.name).isSome → (pick.name ∈ done.2 ↔ pick.name ∈ whole)) :
    copyPick node f done (.descend, pick) =
      (done.1.addAll (part whole node f (.descend, pick)), done.2) := by
  rw [copyPick, part]
  cases hv : node.get? pick.name with
  | none => simp [Object.addAll]
  | some v =>
    have hiff := h (by rw [hv]; rfl)
    by_cases hw : pick.name ∈ whole
    · rw [if_pos (by simpa using hiff.2 hw), if_pos (by simpa using hw)]
      rfl
    · rw [if_neg (by simpa using mt hiff.1 hw), if_neg (by simpa using hw)]
      cases v <;> rfl

variable (whole node f) in
theorem foldl_copyPick_fields : ∀ (fields : List Pick) (done : Object × List String), ∃ names,
    (fields.map (.field, ·)).foldl (copyPick node f) done =
        (done.1.addAll ((fields.map (.field, ·)).flatMap (part whole node f)), names)
      ∧ ∀ name, (node.get? name).isSome → (name ∈ names ↔
        name ∈ done.2 ∨ ∃ pick ∈ fields, pick.subset = none ∧ pick.name = name)
  | [], done => ⟨done.2, rfl, by simp⟩
  | pick :: fields, done => by
    obtain ⟨names, hfold, hnames⟩ :=
      foldl_copyPick_fields fields (copyPick node f done (.field, pick))
    refine ⟨names, ?_, fun name hname => ?_⟩
    · rw [List.map_cons, List.foldl_cons, hfold, fst_copyPick_field, List.flatMap_cons,
        Object.addAll_append]
    · rw [hnames name hname, mem_copyPick_field hname]
      simp [or_assoc]

theorem foldl_copyPick_descents : ∀ (descents : List Pick) (done : Object × List String),
    (∀ name, (node.get? name).isSome → (name ∈ done.2 ↔ name ∈ whole)) →
      (descents.map (.descend, ·)).foldl (copyPick node f) done =
        (done.1.addAll ((descents.map (.descend, ·)).flatMap (part whole node f)), done.2)
  | [], _, _ => rfl
  | pick :: descents, done, h => by
    have hfold := foldl_copyPick_descents descents
      (done.1.addAll (part whole node f (.descend, pick)), done.2) h
    rw [List.map_cons, List.foldl_cons, copyPick_descend (h pick.name), hfold, List.flatMap_cons,
      Object.addAll_append]

end Folding

/-- The fields that are taken whole have all been seen before the first descent. -/
theorem foldl_copyPick {s : Selector} {f : Pick → Selector} (ha : s.Arranged)
    (hf : ∀ d ∈ s.descents, f d.1 = d.2) (node : Object) :
    (s.picks.foldl (copyPick node f) ([], [])).1 = s.retain node := by
  obtain ⟨fields, descents, hpicks⟩ := ha.exists_picks
  obtain ⟨names, hfold, hnames⟩ := foldl_copyPick_fields s.wholeNames node f fields ([], [])
  unfold retain
  rw [parts_eq_flatMap _ _ hf, hpicks, List.flatMap_append, List.foldl_append, hfold,
    foldl_copyPick_descents, Object.addAll_append]
  intro name hname
  rw [hnames name hname, mem_wholeNames_of_picks hpicks]
  simp

theorem retain_atAddress {text : String} {s : Selector} (hs : parse text = .ok s)
    (address : String) (node : Object) : (s.atAddress address).retain node =
      ((s.atAddress address).picks.foldl
        (copyPick node fun pick => s.atAddress (Address.child address pick.token)) ([], [])).1 := by
  have hsound := sound_of_parse hs
  have ha := hsound.arranged_atAddress (arranged_of_parse hs) address
  exact (foldl_copyPick ha (fun d hm => hsound.atAddress_child hm) node).symm

end JsonSelect.Selector
