import JsonSelect.Selector.Outline
import Mathlib.Data.List.Induction
import Mathlib.Tactic.Common

/-!
# The characters of a selector text

By the brackets open in front of it, a character of a text belongs to a token, separates or is a
mark (`Glyph.ofChars`). A stretch that holds no mark and closes its brackets only lengthens the
run it stands in (`Outline.scan_append`), so a text is a last run or a run, a mark and a text
(`Outline.runs_induction`).

The tokens of a run are the longest stretches of token characters in it (`Outline.tokens_eq`):
each of them stands somewhere in it (`Glyph.exists_isToken`), and whatever stands there is one
of them (`Glyph.IsToken.tokens_eq`).
-/

namespace JsonSelect

/-- The part of a character in a selector text. -/
inductive Part where
  | inner
  | gap
  | mark (mark : Mark)
  deriving DecidableEq, Repr

structure Glyph where
  char : Char
  part : Part
  deriving DecidableEq, Repr

namespace Outline

/-- The number of brackets open after a stretch. -/
def depthThrough (depth : Nat) (cs : List Char) : Nat := cs.foldl depthAfter depth

/-- The number of bytes of a stretch. -/
def size : List Char → Nat
  | [] => 0
  | c :: cs => c.utf8Size + size cs

theorem size_append (cs ds : List Char) : size (cs ++ ds) = size cs + size ds := by
  induction cs with
  | nil => simp [size]
  | cons c cs ih => rw [List.cons_append, size, ih, size, Nat.add_assoc]

theorem depthThrough_append (depth : Nat) (cs ds : List Char) :
    depthThrough depth (cs ++ ds) = depthThrough (depthThrough depth cs) ds :=
  List.foldl_append

end Outline

namespace Glyph

open Outline

/-- A character behind `depth` open brackets. -/
def ofChar (depth : Nat) (c : Char) : Glyph :=
  ⟨c,
    if depth = 0 then
      match Mark.ofChar? c with
      | some mark => .mark mark
      | none => if separates c then .gap else .inner
    else .inner⟩

def ofChars (depth : Nat) : List Char → List Glyph
  | [] => []
  | c :: cs => ofChar depth c :: ofChars (depthAfter depth c) cs

def isInner (g : Glyph) : Bool := g.part == .inner

/-- The text of some characters. -/
def text (gs : List Glyph) : String := String.ofList (gs.map char)

/-- The number of bytes of some characters. -/
def bytes (gs : List Glyph) : Nat := size (gs.map char)

/-- The longest stretches of token characters, in order. -/
noncomputable def tokens (gs : List Glyph) : List String :=
  ((gs.splitOnP fun g => !g.isInner).filter fun t => !t.isEmpty).map text

theorem isInner_iff {g : Glyph} : g.isInner ↔ g.part = .inner := by
  simp [isInner]

theorem bytes_append (gs hs : List Glyph) : bytes (gs ++ hs) = bytes gs + bytes hs := by
  rw [bytes, List.map_append, size_append]
  rfl

theorem ofChars_append : ∀ (depth : Nat) (cs ds : List Char),
    ofChars depth (cs ++ ds) = ofChars depth cs ++ ofChars (depthThrough depth cs) ds
  | _, [], _ => rfl
  | depth, c :: cs, ds => by
    rw [List.cons_append, ofChars, ofChars_append, ofChars, List.cons_append]
    rfl

theorem map_char_ofChars : ∀ (depth : Nat) (cs : List Char), (ofChars depth cs).map char = cs
  | _, [] => rfl
  | depth, c :: cs => by
    unfold ofChars
    rw [List.map_cons, map_char_ofChars]
    rfl

theorem text_ofChars (depth : Nat) (cs : List Char) :
    text (ofChars depth cs) = String.ofList cs := by
  unfold text
  rw [map_char_ofChars]

theorem bytes_ofChars (depth : Nat) (cs : List Char) : bytes (ofChars depth cs) = size cs := by
  unfold bytes
  rw [map_char_ofChars]

/-- A mark stands outside brackets. -/
theorem part_ofChar_eq_mark {depth : Nat} {c : Char} {m : Mark} :
    (ofChar depth c).part = .mark m ↔ depth = 0 ∧ Mark.ofChar? c = some m := by
  by_cases h : depth = 0
  · cases hm : Mark.ofChar? c with
    | none => by_cases hs : separates c <;> simp [ofChar, h, hm, hs]
    | some m' => simp [ofChar, h, hm]
  · simp [ofChar, h]

theorem ofChar?_of_separates {c : Char} (h : separates c) : Mark.ofChar? c = none := by
  simp only [separates, Bool.or_eq_true, beq_iff_eq] at h
  rcases h with (rfl | rfl) | rfl <;> rfl

theorem part_ofChar_eq_gap {depth : Nat} {c : Char} :
    (ofChar depth c).part = .gap ↔ depth = 0 ∧ separates c := by
  by_cases h : depth = 0
  · cases hm : Mark.ofChar? c with
    | none => by_cases hs : separates c <;> simp [ofChar, h, hm, hs]
    | some m =>
      have hs : ¬ separates c := fun hs => by simp [ofChar?_of_separates hs] at hm
      simp [ofChar, h, hm, hs]
  · simp [ofChar, h]

/-- Outside tokens no bracket is open. -/
theorem eq_zero_of_not_isInner {depth : Nat} {c : Char} (h : ¬ (ofChar depth c).isInner) :
    depth = 0 := by
  by_contra hd
  exact h (by simp [isInner, ofChar, hd])

theorem depthAfter_of_not_isInner {depth : Nat} {c : Char} (h : ¬ (ofChar depth c).isInner) :
    depthAfter depth c = 0 := by
  obtain rfl := eq_zero_of_not_isInner h
  unfold depthAfter
  split_ifs with h1 h2
  · subst h1
    exact absurd rfl h
  · rfl
  · rfl

end Glyph

namespace Outline

/-- No mark stands in the stretch. -/
def Unmarked (depth : Nat) (cs : List Char) : Prop :=
  ∀ g ∈ Glyph.ofChars depth cs, ∀ m, g.part ≠ .mark m

/-- The outline with a stretch in front of its first run. -/
def prependAll (cs : List Char) (o : Outline) : Outline := cs.foldr prepend o

theorem unmarked_cons {depth : Nat} {c : Char} {cs : List Char} :
    Unmarked depth (c :: cs) ↔
      (∀ m, (Glyph.ofChar depth c).part ≠ .mark m) ∧ Unmarked (depthAfter depth c) cs := by
  simp [Unmarked, Glyph.ofChars]

theorem unmarked_append {depth : Nat} {cs ds : List Char} :
    Unmarked depth (cs ++ ds) ↔ Unmarked depth cs ∧ Unmarked (depthThrough depth cs) ds := by
  simp only [Unmarked, Glyph.ofChars_append, List.mem_append]
  exact ⟨fun h => ⟨fun g hg => h g (.inl hg), fun g hg => h g (.inr hg)⟩,
    fun h g hg => hg.elim (h.1 g) (h.2 g)⟩

theorem scan_cons_of_ne_mark {depth offset : Nat} {c : Char} {cs : List Char}
    (h : ∀ m, (Glyph.ofChar depth c).part ≠ .mark m) :
    scan depth offset (c :: cs) =
      (scan (depthAfter depth c) (offset + c.utf8Size) cs).prepend c := by
  rw [scan]
  split
  · next m hm =>
    refine absurd ?_ (h m)
    rw [Glyph.part_ofChar_eq_mark]
    split_ifs at hm with hd
    exact ⟨hd, hm⟩
  · rfl

theorem scan_cons_mark {offset : Nat} {c : Char} {cs : List Char} {m : Mark}
    (h : Mark.ofChar? c = some m) :
    scan 0 offset (c :: cs) = marked [] m offset (scan 0 (offset + c.utf8Size) cs) := by
  simp [scan, h]

theorem scan_append {depth offset : Nat} {cs ds : List Char} (h : Unmarked depth cs) :
    scan depth offset (cs ++ ds) =
      (scan (depthThrough depth cs) (offset + size cs) ds).prependAll cs := by
  induction cs generalizing depth offset with
  | nil => rfl
  | cons c cs ih =>
    obtain ⟨hc, hcs⟩ := unmarked_cons.1 h
    rw [List.cons_append, scan_cons_of_ne_mark hc, ih hcs, size, ← Nat.add_assoc]
    rfl

@[simp] theorem prependAll_last (cs run : List Char) :
    (last run).prependAll cs = last (cs ++ run) := by
  induction cs with
  | nil => rfl
  | cons c cs ih => rw [prependAll, List.foldr_cons, ← prependAll, ih]; rfl

@[simp] theorem prependAll_marked (cs run : List Char) (m : Mark) (offset : Nat)
    (rest : Outline) :
    (marked run m offset rest).prependAll cs = marked (cs ++ run) m offset rest := by
  induction cs with
  | nil => rfl
  | cons c cs ih => rw [prependAll, List.foldr_cons, ← prependAll, ih]; rfl

theorem scan_of_unmarked {offset : Nat} {run : List Char} (h : Unmarked 0 run) :
    scan 0 offset run = last run := by
  have := @scan_append 0 offset run [] h
  simpa [scan] using this

/-- A stretch that is part of a run and closes its brackets. -/
structure Clean (cs : List Char) : Prop where
  unmarked : Unmarked 0 cs
  closed : depthThrough 0 cs = 0

theorem Clean.append {cs ds : List Char} (hc : Clean cs) (hd : Clean ds) : Clean (cs ++ ds) where
  unmarked := unmarked_append.2 ⟨hc.unmarked, by rw [hc.closed]; exact hd.unmarked⟩
  closed := by rw [depthThrough_append, hc.closed, hd.closed]

theorem Clean.scan {cs ds : List Char} (h : Clean cs) (offset : Nat) :
    scan 0 offset (cs ++ ds) =
      (scan 0 (offset + size cs) ds).prependAll cs := by
  rw [scan_append h.unmarked, h.closed]

/-- The first mark of a text ends its first run. -/
theorem exists_mark : ∀ (depth : Nat) (cs : List Char), Unmarked depth cs ∨
    ∃ run c m rest, cs = run ++ c :: rest ∧ Unmarked depth run ∧ depthThrough depth run = 0
      ∧ Mark.ofChar? c = some m
  | depth, [] => .inl (by simp [Unmarked, Glyph.ofChars])
  | depth, c :: cs => by
    by_cases h : ∀ m, (Glyph.ofChar depth c).part ≠ .mark m
    · rcases exists_mark (depthAfter depth c) cs with hu | ⟨run, d, m, rest, rfl, hu, hd, hm⟩
      · exact .inl (unmarked_cons.2 ⟨h, hu⟩)
      · exact .inr ⟨c :: run, d, m, rest, rfl, unmarked_cons.2 ⟨h, hu⟩, hd, hm⟩
    · push Not at h
      obtain ⟨m, hm⟩ := h
      obtain ⟨rfl, hc⟩ := Glyph.part_ofChar_eq_mark.1 hm
      exact .inr ⟨[], c, m, cs, rfl, by simp [Unmarked, Glyph.ofChars], rfl, hc⟩

/-- Induction on a text by its runs. -/
@[elab_as_elim]
theorem runs_induction {motive : List Char → Prop}
    (last : ∀ run, Unmarked 0 run → motive run)
    (marked : ∀ run c m rest, Clean run → Mark.ofChar? c = some m → motive rest →
      motive (run ++ c :: rest)) :
    ∀ cs, motive cs := by
  intro cs
  rcases exists_mark 0 cs with hu | ⟨run, c, m, rest, hcs, hu, hd, hm⟩
  · exact last cs hu
  · rw [hcs]
    exact marked run c m rest ⟨hu, hd⟩ hm (runs_induction last marked rest)
termination_by cs => cs.length
decreasing_by
  simp only [hcs, List.length_append, List.length_cons]
  omega

theorem scan_marked {offset : Nat} {run : List Char} {c : Char} {m : Mark} {rest : List Char}
    (hr : Clean run) (hm : Mark.ofChar? c = some m) :
    scan 0 offset (run ++ c :: rest) =
      .marked run m (offset + size run)
        (scan 0 (offset + size run + c.utf8Size) rest) := by
  rw [hr.scan, scan_cons_mark hm, prependAll_marked, List.append_nil]

theorem stretches_eq : ∀ {depth : Nat} {cs : List Char}, Unmarked depth cs →
    stretches depth cs =
      ((Glyph.ofChars depth cs).splitOnP fun g => !g.isInner).map (·.map Glyph.char)
  | _, [], _ => by simp [stretches, Glyph.ofChars]
  | depth, c :: cs, h => by
    obtain ⟨hc, hcs⟩ := unmarked_cons.1 h
    have ih := stretches_eq hcs
    unfold stretches Glyph.ofChars
    rw [List.splitOnP_cons_eq_if_modifyHead]
    by_cases hg : depth = 0 ∧ separates c
    · obtain ⟨rfl, hs⟩ := hg
      have hp := Glyph.part_ofChar_eq_gap.2 ⟨rfl, hs⟩
      have hd : depthAfter 0 c = 0 :=
        Glyph.depthAfter_of_not_isInner (by simp [Glyph.isInner_iff, hp])
      rw [hd] at ih
      simp [hs, Glyph.isInner, hp, ih, hd]
    · have hp : (Glyph.ofChar depth c).part = .inner := by
        cases hp : (Glyph.ofChar depth c).part with
        | inner => rfl
        | gap => exact absurd (Glyph.part_ofChar_eq_gap.1 hp) hg
        | mark m => exact absurd hp (hc m)
      obtain ⟨t, ts, ht⟩ := List.exists_cons_of_ne_nil
        (List.splitOnP_ne_nil (fun g : Glyph => !g.isInner) (Glyph.ofChars (depthAfter depth c) cs))
      rw [ht] at ih
      simp only [Bool.and_eq_true, decide_eq_true_eq, hg, if_false, ih, List.map_cons, ht]
      simp [Glyph.isInner, hp]
      rfl

theorem tokens_eq {run : List Char} (h : Unmarked 0 run) :
    tokens run = Glyph.tokens (Glyph.ofChars 0 run) := by
  unfold tokens
  rw [stretches_eq h, List.filter_map, List.map_map, Glyph.tokens]
  congr 1
  refine List.filter_congr fun t _ => ?_
  simp

end Outline

namespace Glyph

theorem tokens_append_cons (gs hs : List Glyph) {g : Glyph} (h : ¬ g.isInner) :
    tokens (gs ++ g :: hs) = tokens gs ++ tokens hs := by
  simp [tokens, List.splitOnP_append_cons gs hs (p := fun g => !g.isInner) (by simpa using h)]

theorem tokens_cons {g : Glyph} (h : ¬ g.isInner) (gs : List Glyph) :
    tokens (g :: gs) = tokens gs := by
  simpa [tokens] using tokens_append_cons [] gs h

theorem tokens_of_forall_isInner {gs : List Glyph} (h : ∀ g ∈ gs, g.isInner) (hne : gs ≠ []) :
    tokens gs = [text gs] := by
  unfold tokens
  rw [List.splitOnP_eq_singleton fun g hg => by simp [h g hg]]
  simp [hne]

theorem tokens_of_forall_not_isInner : ∀ {gs : List Glyph}, (∀ g ∈ gs, ¬ g.isInner) →
    tokens gs = []
  | [], _ => by simp [tokens]
  | g :: gs, h => by
    rw [tokens_cons (h g (by simp)), tokens_of_forall_not_isInner fun g hg => h g (by simp [hg])]

/-- Nothing but a token character can be glued to the end of a token. -/
theorem tokens_append_of_head {gs hs : List Glyph} (h : ∀ g ∈ hs.head?, ¬ g.isInner) :
    tokens (gs ++ hs) = tokens gs ++ tokens hs := by
  cases hs with
  | nil => simp [tokens]
  | cons g hs =>
    have hg := h g (by simp)
    rw [tokens_append_cons gs hs hg, tokens_cons hg]

theorem tokens_append_of_getLast {gs hs : List Glyph} (h : ∀ g ∈ gs.getLast?, ¬ g.isInner) :
    tokens (gs ++ hs) = tokens gs ++ tokens hs := by
  rcases List.eq_nil_or_concat gs with rfl | ⟨gs, g, rfl⟩
  · simp [tokens]
  · have hg := h g (by simp)
    rw [List.concat_eq_append, List.append_assoc, List.singleton_append,
      tokens_append_cons gs hs hg, tokens_append_cons gs [] hg]
    simp [tokens]

/-- A token of the text `gs` that stands between `before` and `after`. -/
structure IsToken (gs before token after : List Glyph) : Prop where
  eq : gs = before ++ token ++ after
  ne_nil : token ≠ []
  isInner : ∀ g ∈ token, g.isInner
  left : ∀ g ∈ before.getLast?, ¬ g.isInner
  right : ∀ g ∈ after.head?, ¬ g.isInner

theorem IsToken.tokens_eq {gs before token after : List Glyph}
    (h : IsToken gs before token after) :
    tokens gs = tokens before ++ text token :: tokens after := by
  rw [h.eq, tokens_append_of_head h.right, tokens_append_of_getLast h.left,
    tokens_of_forall_isInner h.isInner h.ne_nil, List.append_assoc, List.singleton_append]

/-- A token that starts with the text. -/
theorem isToken_takeWhile {g : Glyph} (h : g.isInner) (gs : List Glyph) :
    IsToken (g :: gs) [] ((g :: gs).takeWhile isInner) ((g :: gs).dropWhile isInner) where
  eq := by simp
  ne_nil := by simp [h]
  isInner := fun x hx => List.all_eq_true.1 List.all_takeWhile x hx
  left := by simp
  right := fun x hx => by
    have := List.head?_dropWhile_not isInner (g :: gs)
    rw [Option.mem_def.1 hx] at this
    simpa using this

theorem tokens_eq_nil {gs : List Glyph} : tokens gs = [] ↔ ∀ g ∈ gs, ¬ g.isInner := by
  refine ⟨fun h => ?_, tokens_of_forall_not_isInner⟩
  induction gs with
  | nil => simp
  | cons g gs ih =>
    by_cases hg : g.isInner
    · simp [(isToken_takeWhile hg gs).tokens_eq] at h
    · rw [tokens_cons hg] at h
      exact List.forall_mem_cons.2 ⟨hg, ih h⟩

theorem IsToken.cons {g : Glyph} {gs before token after : List Glyph}
    (h : IsToken gs before token after) (hg : ¬ g.isInner) :
    IsToken (g :: gs) (g :: before) token after where
  eq := by simp [h.eq]
  ne_nil := h.ne_nil
  isInner := h.isInner
  left := fun x hx => by
    cases before with
    | nil =>
      obtain rfl : g = x := by simpa using hx
      exact hg
    | cons b before => exact h.left x (by simpa using hx)
  right := h.right

/-- A token behind another one. -/
theorem IsToken.trans {gs before token rest before' token' after : List Glyph}
    (h : IsToken gs before token rest) (h' : IsToken rest before' token' after) :
    IsToken gs (before ++ token ++ before') token' after where
  eq := by simp [h.eq, h'.eq]
  ne_nil := h'.ne_nil
  isInner := h'.isInner
  left := fun x hx => by
    rcases List.eq_nil_or_concat before' with rfl | ⟨bs, b, rfl⟩
    · obtain ⟨y, ys, rfl⟩ := List.exists_cons_of_ne_nil h'.ne_nil
      exact absurd (h'.isInner y (by simp)) (h.right y (by simp [h'.eq]))
    · obtain rfl : b = x := by simpa using hx
      exact h'.left b (by simp)
  right := h'.right

/-- Each of the tokens of a text stands in it. -/
theorem exists_isToken (gs : List Glyph) {l l' : List String} {t : String}
    (h : tokens gs = l ++ t :: l') :
    ∃ before token after, IsToken gs before token after ∧ text token = t ∧ tokens before = l
      ∧ tokens after = l' := by
  match gs with
  | [] => simp [tokens] at h
  | g :: gs =>
    by_cases hg : g.isInner
    · have hi := isToken_takeWhile hg gs
      have ht := hi.tokens_eq
      rw [h] at ht
      cases l with
      | nil =>
        obtain ⟨rfl, rfl⟩ : t = _ ∧ l' = _ := by simpa [tokens] using ht
        exact ⟨_, _, _, hi, rfl, by simp [tokens], rfl⟩
      | cons s l =>
        obtain ⟨rfl, hr⟩ : s = _ ∧ _ = tokens ((g :: gs).dropWhile isInner) := by
          simpa [tokens] using ht
        obtain ⟨before, token, after, hb, rfl, rfl, rfl⟩ := exists_isToken _ hr.symm
        refine ⟨_, token, after, hi.trans hb, rfl, ?_, rfl⟩
        rw [List.nil_append, tokens_append_of_head fun x hx => ?_,
          tokens_of_forall_isInner hi.isInner hi.ne_nil, List.singleton_append]
        cases before with
        | nil => simp at hx
        | cons b before =>
          refine hi.right x ?_
          rw [hb.eq]
          simpa using hx
    · rw [tokens_cons hg] at h
      obtain ⟨before, token, after, hb, rfl, rfl, rfl⟩ := exists_isToken gs h
      exact ⟨_, _, _, hb.cons hg, rfl, tokens_cons hg before, rfl⟩
termination_by gs.length
decreasing_by
  · simp only [List.dropWhile_cons, hg, if_true, List.length_cons]
    have := (List.dropWhile_sublist isInner (l := gs)).length_le
    omega
  · simp

theorem IsToken.append {gs before token after pre post : List Glyph}
    (h : IsToken gs before token after) (hpre : ∀ g ∈ pre.getLast?, ¬ g.isInner)
    (hpost : ∀ g ∈ post.head?, ¬ g.isInner) :
    IsToken (pre ++ gs ++ post) (pre ++ before) token (after ++ post) where
  eq := by simp [h.eq]
  ne_nil := h.ne_nil
  isInner := h.isInner
  left := fun g hg => by
    cases before using List.reverseRecOn with
    | nil => exact hpre g (by simpa using hg)
    | append_singleton before b => exact h.left g (by simpa [← List.append_assoc] using hg)
  right := fun g hg => by
    cases after with
    | nil => exact hpost g hg
    | cons a after => exact h.right g hg

/-- No token reaches from the one stretch into the other. -/
def Apart (gs hs : List Glyph) : Prop :=
  (∀ g ∈ gs.getLast?, ¬ g.isInner) ∨ ∀ g ∈ hs.head?, ¬ g.isInner

theorem Apart.tokens_append {gs hs : List Glyph} (h : Apart gs hs) :
    tokens (gs ++ hs) = tokens gs ++ tokens hs :=
  h.elim tokens_append_of_getLast tokens_append_of_head

/-- A token that starts in the first of two stretches that are apart lies in it. -/
theorem IsToken.of_length_lt {gs hs before token after : List Glyph}
    (h : IsToken (gs ++ hs) before token after) (ha : Apart gs hs)
    (hl : before.length < gs.length) : ∃ x, IsToken gs before token x := by
  have heq : gs ++ hs = before ++ (token ++ after) := by rw [h.eq, List.append_assoc]
  obtain ⟨m, rfl⟩ := List.prefix_of_prefix_length_le ⟨_, heq.symm⟩ ⟨hs, rfl⟩ (Nat.le_of_lt hl)
  have hm : m ≠ [] := by
    rintro rfl
    simp at hl
  rw [List.append_assoc, List.append_cancel_left_eq] at heq
  rcases List.append_eq_append_iff.1 heq with ⟨x, rfl, hx⟩ | ⟨x, rfl, hx⟩
  · obtain rfl : x = [] := by
      -- the token would hold the last character in front of the cut and the first behind it
      by_contra hne
      obtain ⟨m, y, rfl⟩ := (List.eq_nil_or_concat m).resolve_left hm
      obtain ⟨z, x, rfl⟩ := List.exists_cons_of_ne_nil hne
      rcases ha with hlast | hhead
      · exact hlast y (by simp [← List.append_assoc]) (h.isInner y (by simp))
      · exact hhead z (by simp [hx]) (h.isInner z (by simp))
    rw [List.append_nil] at h
    exact ⟨[], by simp, by rwa [List.append_nil], by simpa using h.isInner, h.left, by simp⟩
  · refine ⟨x, by simp, h.ne_nil, h.isInner, h.left, fun g hg => h.right g ?_⟩
    cases x with
    | nil => simp at hg
    | cons y x => simpa [hx] using hg

/-- Where a token starts it is the longest stretch of token characters. -/
theorem IsToken.eq_takeWhile {gs before token after : List Glyph}
    (h : IsToken gs before token after) :
    token = (gs.drop before.length).takeWhile Glyph.isInner := by
  rw [h.eq, List.append_assoc, List.drop_left, List.takeWhile_append_of_pos h.isInner]
  cases after with
  | nil => simp
  | cons g after => simp [h.right g rfl]

end Glyph

end JsonSelect
