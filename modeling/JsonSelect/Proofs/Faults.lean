import JsonSelect.Proofs.Braces
import JsonSelect.Proofs.Steps
import Mathlib.Data.List.DropRight

/-!
# The fault of a selector text

Which fault a text has can be told from the places of its marks and tokens. It is that of the first
event, a token that does not read or a mark that cannot stand where it does (`Glyph.Event`). A text
without events is faulted for its earliest unclosed brace, and one without these for a dot with
nothing but separators behind it (`Glyph.Rejected`); every other text is read
(`Selector.parse_verdict`). A text has one fault at most (`Glyph.Rejected.unique`).
-/

namespace JsonSelect

open Outline

namespace Glyph

def isMark (g : Glyph) : Bool := !g.isInner && g.part != .gap

/-- What stands behind the last mark. -/
def lastRun (gs : List Glyph) : List Glyph := gs.rtakeWhile fun g => !g.isMark

/-- The marks that cannot stand behind `before`. -/
inductive Misplaced (before : List Glyph) : Mark → Malformation → Prop
  | close (h : ∀ b, ¬ Unclosed before b) : Misplaced before .closeGroup .unexpectedClose
  | dot (h : ∀ g ∈ lastRun before, ¬ g.isInner) : Misplaced before .dot .missingName

/-- What is wrong with the token or the mark behind `before`. -/
inductive Event (gs before : List Glyph) : Fault → Prop
  | token {token after : List Glyph} (h : IsToken gs before token after)
      (hf : ∃ f, Subset.ofToken? (text token) = .error f) :
      Event gs before (.invalidIndex (text token))
  | mark {c : Char} {m : Mark} {after : List Glyph} {reason : Malformation}
      (h : gs = before ++ ⟨c, .mark m⟩ :: after) (hm : Misplaced before m reason) :
      Event gs before (.malformed (bytes before) reason)

/-- Nothing but separators follows the dot behind `before`. -/
def Dangling (gs before : List Glyph) : Prop :=
  ∃ c after, gs = before ++ ⟨c, .mark .dot⟩ :: after ∧ ∀ g ∈ after, g.part = .gap

/-- The fault of a text. -/
inductive Rejected (gs : List Glyph) : Fault → Prop
  | event {before : List Glyph} {f : Fault} (h : Event gs before f)
      (hfirst : ∀ b f', Event gs b f' → before.length ≤ b.length) : Rejected gs f
  | unclosed {before : List Glyph} (he : ∀ b f, ¬ Event gs b f) (h : Unclosed gs before)
      (hfirst : ∀ b, Unclosed gs b → before.length ≤ b.length) :
      Rejected gs (.malformed (bytes before) .unclosedGroup)
  | dangling {before : List Glyph} (he : ∀ b f, ¬ Event gs b f) (hu : ∀ b, ¬ Unclosed gs b)
      (h : Dangling gs before) : Rejected gs (.malformed (bytes before) .danglingDot)

structure Accepted (gs : List Glyph) : Prop where
  noEvent : ∀ b f, ¬ Event gs b f
  noUnclosed : ∀ b, ¬ Unclosed gs b
  noDangling : ∀ b, ¬ Dangling gs b

theorem isMark_mk_mark (c : Char) (m : Mark) : isMark ⟨c, .mark m⟩ := rfl

theorem not_isInner_of_isMark {g : Glyph} (h : g.isMark) : ¬ g.isInner := by
  simp only [isMark, Bool.and_eq_true, Bool.not_eq_true'] at h
  simp [h.1]

theorem not_isMark_of_gap {g : Glyph} (h : g.part = .gap) : ¬ g.isMark := by
  simp [isMark, h]

theorem lastRun_append {gs run : List Glyph} (hgs : ∀ g ∈ gs.getLast?, g.isMark)
    (hrun : ∀ g ∈ run, ¬ g.isMark) : lastRun (gs ++ run) = run := by
  have hr : ∀ g ∈ run.reverse, (fun g : Glyph => !g.isMark) g := fun g hg => by
    simpa using hrun g (List.mem_reverse.1 hg)
  unfold lastRun
  rw [List.rtakeWhile, List.reverse_append, List.takeWhile_append_of_pos hr]
  cases gs using List.reverseRecOn with
  | nil => simp
  | append_singleton gs g => simp [hgs g (by simp)]

theorem Misplaced.unique {before : List Glyph} {m : Mark} {r r' : Malformation}
    (h : Misplaced before m r) (h' : Misplaced before m r') : r = r' := by
  cases h <;> cases h' <;> rfl

theorem Event.isPrefix {gs before : List Glyph} {f : Fault} (h : Event gs before f) :
    before <+: gs := by
  cases h with
  | token h _ => exact ⟨_, by rw [h.eq, List.append_assoc]⟩
  | mark h _ => exact ⟨_, h.symm⟩

theorem eq_of_isPrefix {gs b b' : List Glyph} (h : b <+: gs) (h' : b' <+: gs)
    (hl : b.length = b'.length) : b = b' :=
  (List.prefix_of_prefix_length_le h h' (Nat.le_of_eq hl)).eq_of_length hl

theorem Event.unique {gs b b' : List Glyph} {f f' : Fault} (h : Event gs b f)
    (h' : Event gs b' f') (hl : b.length = b'.length) : f = f' := by
  obtain rfl := eq_of_isPrefix h.isPrefix h'.isPrefix hl
  -- a token and a mark differ in the part of their first character
  have hne : ∀ {t a a' : List Glyph} {c : Char} {m : Mark}, IsToken gs b t a →
      gs ≠ b ++ ⟨c, .mark m⟩ :: a' := by
    intro t a a' c m ht hg
    obtain ⟨x, t, rfl⟩ := List.exists_cons_of_ne_nil ht.ne_nil
    rw [ht.eq, List.append_assoc, List.append_cancel_left_eq] at hg
    obtain ⟨rfl, -⟩ := List.cons.inj hg
    exact not_isInner_of_isMark (isMark_mk_mark c m) (ht.isInner _ (by simp))
  cases h with
  | token h _ =>
    cases h' with
    | token h' _ => rw [h.eq_takeWhile, h'.eq_takeWhile]
    | mark h' _ => exact absurd h' (hne h)
  | mark h hm =>
    cases h' with
    | token h' _ => exact absurd h (hne h')
    | mark h' hm' =>
      rw [h, List.append_cancel_left_eq] at h'
      obtain ⟨hc, -⟩ := List.cons.inj h'
      obtain ⟨-, hp⟩ := Glyph.mk.inj hc
      obtain rfl := Part.mark.inj hp
      rw [hm.unique hm']

theorem Dangling.lastRun {gs before : List Glyph} (h : Dangling gs before) :
    gs.length = before.length + 1 + (lastRun gs).length := by
  obtain ⟨c, after, rfl, ha⟩ := h
  have : Glyph.lastRun (before ++ [⟨c, .mark .dot⟩] ++ after) = after :=
    lastRun_append (by simp [isMark_mk_mark]) fun g hg => not_isMark_of_gap (ha g hg)
  rw [List.append_assoc, List.singleton_append] at this
  rw [this, List.length_append, List.length_cons]
  omega

theorem Dangling.unique {gs b b' : List Glyph} (h : Dangling gs b) (h' : Dangling gs b') :
    b = b' := by
  have hl : b.length = b'.length := by
    have := h.lastRun
    have := h'.lastRun
    omega
  obtain ⟨_, _, hb, -⟩ := h
  obtain ⟨_, _, hb', -⟩ := h'
  exact eq_of_isPrefix ⟨_, hb.symm⟩ ⟨_, hb'.symm⟩ hl

theorem Unclosed.isPrefix {gs b : List Glyph} (h : Unclosed gs b) : b <+: gs := by
  obtain ⟨c, after, rfl, -⟩ := h
  exact List.prefix_append _ _

theorem Rejected.unique {gs : List Glyph} {f f' : Fault} (h : Rejected gs f)
    (h' : Rejected gs f') : f = f' := by
  cases h with
  | event h hfirst =>
    cases h' with
    | event h' hfirst' => exact h.unique h' (Nat.le_antisymm (hfirst _ _ h') (hfirst' _ _ h))
    | unclosed he' _ _ => exact absurd h (he' _ _)
    | dangling he' _ _ => exact absurd h (he' _ _)
  | unclosed he h hfirst =>
    cases h' with
    | event h' _ => exact absurd h' (he _ _)
    | unclosed _ h' hfirst' =>
      rw [eq_of_isPrefix h.isPrefix h'.isPrefix (Nat.le_antisymm (hfirst _ h') (hfirst' _ h))]
    | dangling _ hu' _ => exact absurd h (hu' _)
  | dangling he hu h =>
    cases h' with
    | event h' _ => exact absurd h' (he _ _)
    | unclosed _ h' _ => exact absurd h' (hu _)
    | dangling _ _ h' => rw [h.unique h']

theorem Accepted.not_rejected {gs : List Glyph} (h : Accepted gs) (f : Fault) :
    ¬ Rejected gs f := by
  intro hcase
  rcases hcase with ⟨he, -⟩ | ⟨-, hu, -⟩ | ⟨-, -, hd⟩
  · exact h.noEvent _ _ he
  · exact h.noUnclosed _ hu
  · exact h.noDangling _ hd

end Glyph

end JsonSelect
