import JsonSelect.Proofs.Glyphs
import Mathlib.Data.List.Induction

/-!
# Braces that are not closed

An opening brace of a text is unclosed if what follows it never closes more braces than it opens
(`Glyph.Unclosed`). A character at the end of a text changes which ones are: an opening brace adds
itself (`Glyph.unclosed_concat_open`), a closing one takes the last away
(`Glyph.unclosed_concat_close`), and nothing else changes any (`Glyph.unclosed_append`).
-/

namespace JsonSelect.Glyph

def opens (gs : List Glyph) : Nat := gs.countP fun g => g.part == .mark .openGroup

def closes (gs : List Glyph) : Nat := gs.countP fun g => g.part == .mark .closeGroup

/-- No start of the stretch closes more braces than it opens. -/
def StaysOpen (gs : List Glyph) : Prop := ∀ p, p <+: gs → closes p ≤ opens p

/-- The brace behind `before` is open at the end of `gs`. -/
def Unclosed (gs before : List Glyph) : Prop :=
  ∃ c after, gs = before ++ ⟨c, .mark .openGroup⟩ :: after ∧ StaysOpen after

theorem opens_cons (g : Glyph) (gs : List Glyph) :
    opens (g :: gs) = opens gs + if g.part = .mark .openGroup then 1 else 0 := by
  simp [opens, List.countP_cons]

theorem closes_cons (g : Glyph) (gs : List Glyph) :
    closes (g :: gs) = closes gs + if g.part = .mark .closeGroup then 1 else 0 := by
  simp [closes, List.countP_cons]

@[simp] theorem opens_nil : opens [] = 0 := rfl

@[simp] theorem closes_nil : closes [] = 0 := rfl

theorem opens_append (gs hs : List Glyph) : opens (gs ++ hs) = opens gs + opens hs :=
  List.countP_append

theorem closes_append (gs hs : List Glyph) : closes (gs ++ hs) = closes gs + closes hs :=
  List.countP_append

theorem staysOpen_nil : StaysOpen [] := by
  intro p hp
  rw [List.prefix_nil.1 hp]
  exact Nat.le_refl _

theorem StaysOpen.closes_le {gs : List Glyph} (h : StaysOpen gs) : closes gs ≤ opens gs :=
  h gs (List.prefix_refl gs)

theorem staysOpen_concat {gs : List Glyph} {g : Glyph} :
    StaysOpen (gs ++ [g]) ↔ StaysOpen gs ∧ closes (gs ++ [g]) ≤ opens (gs ++ [g]) := by
  constructor
  · exact fun h => ⟨fun p hp => h p (hp.trans (List.prefix_append _ _)), h.closes_le⟩
  · rintro ⟨h, hle⟩ p hp
    rcases List.prefix_concat_iff.1 hp with rfl | hp
    · exact hle
    · exact h p hp

/-- A stretch that opens more braces than it closes leaves one open: the first one of its shortest
end of this kind. -/
theorem exists_unclosed (gs : List Glyph) (h : closes gs < opens gs) : ∃ b, Unclosed gs b := by
  match gs with
  | [] => simp at h
  | g :: gs =>
    by_cases hs : ∃ p q, gs = p ++ q ∧ closes q < opens q
    · obtain ⟨p, q, rfl, hq⟩ := hs
      obtain ⟨b, c, after, rfl, ho⟩ := exists_unclosed q hq
      exact ⟨g :: p ++ b, c, after, by simp, ho⟩
    · push Not at hs
      have hgs := hs [] gs rfl
      have hg : g.part = .mark .openGroup := by
        by_contra hne
        rw [opens_cons, closes_cons, if_neg hne] at h
        omega
      rw [opens_cons, closes_cons, hg, if_pos rfl, if_neg (by simp)] at h
      refine ⟨[], g.char, gs, by rw [List.nil_append, ← hg], ?_⟩
      rintro p ⟨q, rfl⟩
      have := hs p q rfl
      rw [opens_append] at h hgs
      rw [closes_append] at h hgs
      omega
termination_by gs.length
decreasing_by
  subst_vars
  simp only [List.length_cons, List.length_append]
  omega

theorem unclosed_nil {b : List Glyph} : ¬ Unclosed [] b := by
  rintro ⟨c, after, h, -⟩
  simp at h

theorem Unclosed.length_lt {gs b : List Glyph} (h : Unclosed gs b) : b.length < gs.length := by
  obtain ⟨c, after, rfl, -⟩ := h
  simp

theorem unclosed_concat {gs b : List Glyph} {g : Glyph} :
    Unclosed (gs ++ [g]) b ↔ (b = gs ∧ g.part = .mark .openGroup) ∨
      ∃ c after, gs = b ++ ⟨c, .mark .openGroup⟩ :: after ∧ StaysOpen (after ++ [g]) := by
  constructor
  · intro ⟨c, after, h, ho⟩
    rcases List.eq_nil_or_concat after with rfl | ⟨after, d, rfl⟩
    · obtain ⟨rfl, hg⟩ := List.append_inj' h rfl
      obtain rfl := List.singleton_inj.1 hg
      exact .inl ⟨rfl, rfl⟩
    · rw [List.concat_eq_append, ← List.cons_append, ← List.append_assoc] at h
      obtain ⟨rfl, hg⟩ := List.append_inj' h rfl
      obtain rfl := List.singleton_inj.1 hg
      rw [List.concat_eq_append] at ho
      exact .inr ⟨c, after, rfl, ho⟩
  · intro hcase
    rcases hcase with ⟨rfl, hg⟩ | ⟨c, after, rfl, ho⟩
    · exact ⟨g.char, [], by rw [← hg], staysOpen_nil⟩
    · exact ⟨c, after ++ [g], by simp, ho⟩

theorem unclosed_concat_open {gs b : List Glyph} {c : Char} :
    Unclosed (gs ++ [⟨c, .mark .openGroup⟩]) b ↔ Unclosed gs b ∨ b = gs := by
  rw [unclosed_concat, or_comm]
  refine or_congr ⟨?_, ?_⟩ (by simp)
  · rintro ⟨d, after, rfl, ho⟩
    exact ⟨d, after, rfl, (staysOpen_concat.1 ho).1⟩
  · rintro ⟨d, after, rfl, ho⟩
    refine ⟨d, after, rfl, staysOpen_concat.2 ⟨ho, ?_⟩⟩
    have := ho.closes_le
    simp only [opens_append, closes_append, opens_cons, closes_cons, opens_nil, closes_nil]
    simp
    omega

/-- A closing brace closes the last of the open ones. -/
theorem unclosed_concat_close {gs b : List Glyph} {c : Char} :
    Unclosed (gs ++ [⟨c, .mark .closeGroup⟩]) b ↔
      Unclosed gs b ∧ ∃ b', Unclosed gs b' ∧ b.length < b'.length := by
  rw [unclosed_concat]
  constructor
  · intro hcase
    rcases hcase with ⟨-, h⟩ | ⟨d, after, rfl, ho⟩
    · simp at h
    · obtain ⟨ho, hle⟩ := staysOpen_concat.1 ho
      have hlt : closes after < opens after := by
        simp only [opens_append, closes_append, opens_cons, closes_cons, opens_nil, closes_nil]
          at hle
        simp at hle
        omega
      obtain ⟨b', d', after', rfl, ho'⟩ := exists_unclosed after hlt
      refine ⟨⟨d, _, rfl, ho⟩, b ++ ⟨d, .mark .openGroup⟩ :: b', ⟨d', after', by simp, ho'⟩, ?_⟩
      simp
  · rintro ⟨⟨d, after, rfl, ho⟩, b', ⟨d', after', h, ho'⟩, hl⟩
    refine .inr ⟨d, after, rfl, staysOpen_concat.2 ⟨ho, ?_⟩⟩
    obtain ⟨mid, rfl⟩ : ∃ mid, after = mid ++ ⟨d', .mark .openGroup⟩ :: after' := by
      rcases List.append_eq_append_iff.1 h with ⟨_ | ⟨x, mid⟩, rfl, hm⟩ | ⟨x, rfl, -⟩
      · simp at hl
      · exact ⟨mid, (List.cons.inj hm).2⟩
      · rw [List.length_append] at hl
        omega
    have := ho mid (List.prefix_append _ _)
    have := ho'.closes_le
    simp only [opens_append, closes_append, opens_cons, closes_cons, opens_nil, closes_nil]
    simp
    omega

theorem unclosed_append {gs hs b : List Glyph}
    (h : ∀ g ∈ hs, g.part ≠ .mark .openGroup ∧ g.part ≠ .mark .closeGroup) :
    Unclosed (gs ++ hs) b ↔ Unclosed gs b := by
  induction hs using List.reverseRecOn with
  | nil => rw [List.append_nil]
  | append_singleton hs g ih =>
    obtain ⟨hhs, hg⟩ := List.forall_mem_append.1 h
    obtain ⟨hopen, hclose⟩ := hg g (by simp)
    rw [← ih hhs, ← List.append_assoc, unclosed_concat]
    constructor
    · intro hcase
      rcases hcase with ⟨-, hp⟩ | ⟨c, after, heq, ho⟩
      · exact absurd hp hopen
      · exact ⟨c, after, heq, (staysOpen_concat.1 ho).1⟩
    · intro ⟨c, after, heq, ho⟩
      refine .inr ⟨c, after, heq, staysOpen_concat.2 ⟨ho, ?_⟩⟩
      have := ho.closes_le
      simp only [opens_append, closes_append, opens_cons, closes_cons, opens_nil, closes_nil]
      simp [hclose]
      omega

/-- The offsets of the unclosed braces, the last one first. -/
def Groups (gs : List Glyph) (offsets : List Nat) : Prop :=
  ∃ bs : List (List Glyph), bs.Pairwise (fun b b' => b'.length < b.length)
    ∧ (∀ b, b ∈ bs ↔ Unclosed gs b) ∧ offsets = bs.map bytes

theorem groups_nil : Groups [] [] :=
  ⟨[], .nil, fun _ => iff_of_false List.not_mem_nil unclosed_nil, rfl⟩

theorem Groups.append {gs hs : List Glyph} {ns : List Nat} (h : Groups gs ns)
    (hhs : ∀ g ∈ hs, g.part ≠ .mark .openGroup ∧ g.part ≠ .mark .closeGroup) :
    Groups (gs ++ hs) ns := by
  obtain ⟨bs, hp, hb, rfl⟩ := h
  exact ⟨bs, hp, fun b => (hb b).trans (unclosed_append hhs).symm, rfl⟩

theorem Groups.open {gs : List Glyph} {ns : List Nat} (h : Groups gs ns) (c : Char) :
    Groups (gs ++ [⟨c, .mark .openGroup⟩]) (bytes gs :: ns) := by
  obtain ⟨bs, hp, hb, rfl⟩ := h
  refine ⟨gs :: bs, hp.cons fun b hm => ((hb b).1 hm).length_lt, fun b => ?_, rfl⟩
  rw [List.mem_cons, unclosed_concat_open, hb, or_comm]

theorem Groups.close {gs : List Glyph} {n : Nat} {ns : List Nat} (h : Groups gs (n :: ns))
    (c : Char) : Groups (gs ++ [⟨c, .mark .closeGroup⟩]) ns := by
  obtain ⟨bs, hp, hb, hns⟩ := h
  obtain ⟨b₀, bs, rfl, rfl, rfl⟩ := List.map_eq_cons_iff.1 hns.symm
  obtain ⟨hlast, hp⟩ := List.pairwise_cons.1 hp
  refine ⟨bs, hp, fun b => ?_, rfl⟩
  rw [unclosed_concat_close, ← hb]
  constructor
  · exact fun hm => ⟨.tail _ hm, b₀, (hb b₀).1 (.head _), hlast b hm⟩
  · intro ⟨hm, b', hb', hl⟩
    refine (List.mem_cons.1 hm).resolve_left ?_
    rintro rfl
    rcases List.mem_cons.1 ((hb b').2 hb') with rfl | hm'
    · exact absurd hl (Nat.lt_irrefl _)
    · exact absurd (hlast b' hm') (Nat.lt_asymm hl)

theorem Groups.not_unclosed {gs : List Glyph} (h : Groups gs []) (b : List Glyph) :
    ¬ Unclosed gs b := by
  obtain ⟨bs, -, hb, hns⟩ := h
  obtain rfl := List.map_eq_nil_iff.1 hns.symm
  exact fun hu => List.not_mem_nil ((hb b).2 hu)

/-- The outermost of the open groups is the earliest unclosed brace. -/
theorem Groups.exists_earliest {gs : List Glyph} {ns : List Nat} {n : Nat} (h : Groups gs ns)
    (hn : ns.getLast? = some n) :
    ∃ b, bytes b = n ∧ Unclosed gs b ∧ ∀ b', Unclosed gs b' → b.length ≤ b'.length := by
  obtain ⟨bs, hp, hb, rfl⟩ := h
  rcases List.eq_nil_or_concat bs with rfl | ⟨bs, b, rfl⟩
  · simp at hn
  rw [List.concat_eq_append] at hp hb hn
  refine ⟨b, by simpa using hn, (hb b).1 (by simp), fun b' hb' => ?_⟩
  rcases List.mem_append.1 ((hb b').2 hb') with hm | hm
  · exact Nat.le_of_lt ((List.pairwise_append.1 hp).2.2 b' hm b (by simp))
  · obtain rfl := List.mem_singleton.1 hm
    exact Nat.le_refl _

end JsonSelect.Glyph
