import JsonSelect.Proofs.Glyphs

/-!
# Words and gaps

A word is a token that closes its brackets: a run that is apart at its end grows by one token when a
word is written to it (`Outline.tokens_append_word`), and by none when separators are
(`Outline.tokens_append_gap`). Every token of a clean run is a word
(`Outline.isWord_of_mem_tokens`).
-/

namespace JsonSelect.Outline

open Glyph

/-- A token that closes its brackets and has separators and marks only inside them. -/
structure IsWord (cs : List Char) : Prop where
  ne_nil : cs ≠ []
  closed : depthThrough 0 cs = 0
  isInner : ∀ g ∈ Glyph.ofChars 0 cs, g.isInner

instance : DecidablePred IsWord := fun cs =>
  decidable_of_iff (cs ≠ [] ∧ depthThrough 0 cs = 0 ∧ ∀ g ∈ Glyph.ofChars 0 cs, g.isInner)
    ⟨fun ⟨h, hd, hi⟩ => ⟨h, hd, hi⟩, fun ⟨h, hd, hi⟩ => ⟨h, hd, hi⟩⟩

/-- A stretch of separators. -/
def IsGap (cs : List Char) : Prop := ∀ c ∈ cs, separates c

instance : DecidablePred IsGap := fun cs => List.decidableBAll _ cs

theorem IsWord.clean {cs : List Char} (h : IsWord cs) : Clean cs where
  unmarked := fun g hg m hm => by
    have := isInner_iff.1 (h.isInner g hg)
    simp [hm] at this
  closed := h.closed

theorem clean_nil : Clean [] := ⟨by simp [Unmarked, Glyph.ofChars], rfl⟩

theorem IsGap.part_eq : ∀ {cs : List Char}, IsGap cs →
    (∀ g ∈ Glyph.ofChars 0 cs, g.part = .gap) ∧ depthThrough 0 cs = 0
  | [], _ => ⟨by simp [Glyph.ofChars], rfl⟩
  | c :: cs, h => by
    have hc := part_ofChar_eq_gap.2 ⟨rfl, h c (by simp)⟩
    have hd : depthAfter 0 c = 0 := depthAfter_of_not_isInner (by simp [isInner, hc])
    obtain ⟨hp, ht⟩ := IsGap.part_eq fun d hd => h d (List.mem_cons_of_mem _ hd)
    refine ⟨fun g hg => ?_, by rw [depthThrough, List.foldl_cons, hd]; exact ht⟩
    unfold Glyph.ofChars at hg
    rw [hd] at hg
    rcases List.mem_cons.1 hg with rfl | hg
    · exact hc
    · exact hp g hg

theorem IsGap.clean {cs : List Char} (h : IsGap cs) : Clean cs where
  unmarked := fun g hg m hm => by simp [h.part_eq.1 g hg] at hm
  closed := h.part_eq.2

theorem IsGap.not_isInner {cs : List Char} (h : IsGap cs) : ∀ g ∈ Glyph.ofChars 0 cs, ¬ g.isInner :=
  fun g hg => by simp [isInner, h.part_eq.1 g hg]

/-- A stretch of token characters is not apart from what precedes it. -/
theorem startsApart_of_isInner {cs : List Char} (h : ∀ g ∈ Glyph.ofChars 0 cs, g.isInner)
    (hne : cs ≠ []) (rest : List Char) : startsApart (cs ++ rest) = false := by
  obtain ⟨c, cs, rfl⟩ := List.exists_cons_of_ne_nil hne
  have hc := h (Glyph.ofChar 0 c) (by simp [Glyph.ofChars])
  cases hs : separates c with
  | false => simp [startsApart, hs]
  | true =>
    have := part_ofChar_eq_gap.2 ⟨rfl, hs⟩
    simp [Glyph.isInner, this] at hc

theorem IsWord.not_startsApart {cs : List Char} (h : IsWord cs) (rest : List Char) :
    startsApart (cs ++ rest) = false :=
  startsApart_of_isInner h.isInner h.ne_nil rest

theorem tokens_nil : tokens [] = [] := rfl

theorem Clean.tokens_append {run cs : List Char} (hr : Clean run) (hc : Clean cs) :
    tokens (run ++ cs) = Glyph.tokens (Glyph.ofChars 0 run ++ Glyph.ofChars 0 cs) := by
  rw [tokens_eq (hr.append hc).unmarked, ofChars_append, hr.closed]

theorem tokens_append_gap {run gap : List Char} (hr : Clean run) (hg : IsGap gap) :
    tokens (run ++ gap) = tokens run := by
  rw [hr.tokens_append hg.clean, tokens_append_of_head, tokens_of_forall_not_isInner hg.not_isInner,
    List.append_nil, tokens_eq hr.unmarked]
  exact fun g hm => hg.not_isInner g (List.mem_of_mem_head? hm)

theorem tokens_append_word {run gap word : List Char} (hr : Clean run) (hg : IsGap gap)
    (hw : IsWord word) (h : run = [] ∨ gap ≠ []) :
    tokens (run ++ gap ++ word) = tokens run ++ [String.ofList word] := by
  have hrg : ∀ g ∈ (Glyph.ofChars 0 (run ++ gap)).getLast?, ¬ g.isInner := by
    intro g hm
    rw [Glyph.ofChars_append, hr.closed] at hm
    rcases List.eq_nil_or_concat gap with rfl | ⟨gap, c, rfl⟩
    · obtain rfl := h.resolve_right (by simp)
      simp [Glyph.ofChars] at hm
    · refine hg.not_isInner g ?_
      rw [List.concat_eq_append, ofChars_append, Glyph.ofChars, Glyph.ofChars] at hm ⊢
      rw [← List.append_assoc, List.getLast?_concat] at hm
      simp [Option.mem_some.1 hm]
  rw [(hr.append hg.clean).tokens_append hw.clean, tokens_append_of_getLast hrg,
    tokens_of_forall_isInner hw.isInner, text_ofChars, ← tokens_eq (hr.append hg.clean).unmarked,
    tokens_append_gap hr hg]
  obtain ⟨c, cs, rfl⟩ := List.exists_cons_of_ne_nil hw.ne_nil
  simp [Glyph.ofChars]

theorem ofChars_eq_append : ∀ {depth : Nat} {cs : List Char} {xs ys : List Glyph},
    Glyph.ofChars depth cs = xs ++ ys →
      ∃ as bs, cs = as ++ bs ∧ xs = Glyph.ofChars depth as
        ∧ ys = Glyph.ofChars (depthThrough depth as) bs
  | depth, cs, [], ys, h => ⟨[], cs, rfl, rfl, h.symm⟩
  | depth, [], x :: xs, ys, h => by simp [Glyph.ofChars] at h
  | depth, c :: cs, x :: xs, ys, h => by
    obtain ⟨rfl, hcs⟩ : Glyph.ofChar depth c = x ∧ _ := by simpa [Glyph.ofChars] using h
    obtain ⟨as, bs, rfl, rfl, rfl⟩ := ofChars_eq_append hcs
    exact ⟨c :: as, bs, rfl, rfl, rfl⟩

/-- No bracket is open behind a character that belongs to no token. -/
theorem depthThrough_of_getLast {cs : List Char}
    (h : ∀ g ∈ (Glyph.ofChars 0 cs).getLast?, ¬ g.isInner) : depthThrough 0 cs = 0 := by
  rcases List.eq_nil_or_concat cs with rfl | ⟨cs, c, rfl⟩
  · rfl
  · rw [List.concat_eq_append] at h ⊢
    rw [depthThrough_append]
    refine depthAfter_of_not_isInner (h _ ?_)
    simp [ofChars_append, Glyph.ofChars]

/-- A token that stands in a text is read from depth 0. -/
theorem exists_of_isToken {cs : List Char} {before token after : List Glyph}
    (h : IsToken (Glyph.ofChars 0 cs) before token after) :
    ∃ as t bs, cs = as ++ t ++ bs ∧ before = Glyph.ofChars 0 as ∧ depthThrough 0 as = 0
      ∧ token = Glyph.ofChars 0 t ∧ after = Glyph.ofChars (depthThrough 0 t) bs := by
  obtain ⟨cs', bs, rfl, hbt, rfl⟩ := ofChars_eq_append h.eq
  obtain ⟨as, t, rfl, rfl, rfl⟩ := ofChars_eq_append hbt.symm
  have hd := depthThrough_of_getLast h.left
  refine ⟨as, t, bs, rfl, rfl, hd, ?_, ?_⟩
  · rw [hd]
  · rw [depthThrough_append, hd]

theorem isWord_of_mem_tokens {run : List Char} {t : String} (hr : Clean run)
    (h : t ∈ tokens run) : IsWord t.toList := by
  rw [tokens_eq hr.unmarked] at h
  obtain ⟨l, l', hl⟩ := List.append_of_mem h
  obtain ⟨before, token, after, ht, rfl, -, -⟩ := exists_isToken _ hl
  obtain ⟨as, t, bs, rfl, rfl, hd, rfl, rfl⟩ := exists_of_isToken ht
  rw [text_ofChars, String.toList_ofList]
  refine ⟨?_, ?_, ht.isInner⟩
  · rintro rfl
    exact ht.ne_nil rfl
  · cases bs with
    | nil =>
      have := hr.closed
      rwa [List.append_nil, depthThrough_append, hd] at this
    | cons b bs => exact eq_zero_of_not_isInner (ht.right _ rfl)

end JsonSelect.Outline
