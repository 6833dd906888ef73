import JsonSelect.Proofs.Faults

/-!
# The verdict of reading

Reading a text finds the fault that the places of its marks and tokens tell, and no other
(`Selector.parse_verdict`). What is open keeps just what decides this: the offsets of the unclosed
braces, and whether a dot was the last mark (`Glyph.Follows`). A run and its mark either hold the
first event of the text or keep this up (`Glyph.Follows.step`).
-/

namespace JsonSelect

open Outline Opening

namespace Glyph

/-- The tokens of the stretch read, and its marks can stand where they do. -/
structure Sane (gs : List Glyph) : Prop where
  reads : ∀ t ∈ tokens gs, ∃ r, Subset.ofToken? t = .ok r
  marks : ∀ before c m after, gs = before ++ ⟨c, .mark m⟩ :: after →
    ∀ reason, ¬ Misplaced before m reason

theorem sane_nil : Sane [] where
  reads := by simp [tokens]
  marks := by simp

theorem exists_of_append_eq {gs hs before after : List Glyph} {g : Glyph}
    (h : gs ++ hs = before ++ g :: after) (hl : before.length < gs.length) :
    ∃ x, gs = before ++ g :: x := by
  rcases List.append_eq_append_iff.1 h with ⟨x, rfl, -⟩ | ⟨_ | ⟨y, x⟩, rfl, hx⟩
  · rw [List.length_append] at hl
    omega
  · simp at hl
  · obtain ⟨rfl, -⟩ := List.cons.inj hx
    exact ⟨x, rfl⟩

theorem Sane.append {gs hs : List Glyph} (h : Sane gs) (ha : Apart gs hs)
    (hr : ∀ t ∈ tokens hs, ∃ r, Subset.ofToken? t = .ok r) (hm : ∀ g ∈ hs, ¬ g.isMark) :
    Sane (gs ++ hs) where
  reads := by
    rw [ha.tokens_append]
    exact List.forall_mem_append.2 ⟨h.reads, hr⟩
  marks := by
    intro before c m after heq
    rcases Nat.lt_or_ge before.length gs.length with hl | hl
    · obtain ⟨x, hx⟩ := exists_of_append_eq heq hl
      exact h.marks before c m x hx
    · obtain ⟨x, rfl⟩ := List.prefix_of_prefix_length_le ⟨hs, heq⟩ ⟨_, rfl⟩ hl
      rw [List.append_assoc, List.append_cancel_left_eq] at heq
      exact absurd (isMark_mk_mark c m) (hm _ (by simp [heq]))

theorem Sane.concat {gs : List Glyph} {m : Mark} (h : Sane gs)
    (hm : ∀ reason, ¬ Misplaced gs m reason) (c : Char) : Sane (gs ++ [⟨c, .mark m⟩]) where
  reads := by
    rw [tokens_append_cons gs [] (not_isInner_of_isMark (isMark_mk_mark c m))]
    simpa [tokens] using h.reads
  marks := by
    intro before d m' after heq
    rcases Nat.lt_or_ge before.length gs.length with hl | hl
    · obtain ⟨x, hx⟩ := exists_of_append_eq heq hl
      exact h.marks before d m' x hx
    · have hlen := congrArg List.length heq
      simp only [List.length_append, List.length_cons, List.length_nil] at hlen
      obtain rfl : after = [] := List.length_eq_zero_iff.1 (by omega)
      obtain ⟨rfl, hg⟩ := List.append_inj' heq rfl
      obtain ⟨-, hp⟩ := Glyph.mk.inj (List.singleton_inj.1 hg)
      obtain rfl := Part.mark.inj hp
      exact hm

/-- The events of a text lie behind a sane start of it. -/
theorem Sane.length_le {gs hs before : List Glyph} {f : Fault} (h : Sane gs) (ha : Apart gs hs)
    (he : Event (gs ++ hs) before f) : gs.length ≤ before.length := by
  by_contra hl
  have hl := Nat.not_le.1 hl
  cases he with
  | @token token _ ht hf =>
    obtain ⟨x, hx⟩ := ht.of_length_lt ha hl
    obtain ⟨f, hf⟩ := hf
    obtain ⟨r, hr⟩ := h.reads (text token) (by rw [hx.tokens_eq]; simp)
    exact absurd (hf.symm.trans hr) (by simp)
  | mark heq hm =>
    obtain ⟨x, hx⟩ := exists_of_append_eq heq hl
    exact h.marks _ _ _ x hx _ hm

theorem Sane.not_event {gs : List Glyph} (h : Sane gs) (before : List Glyph) (f : Fault) :
    ¬ Event gs before f := by
  intro he
  have hlt : before.length < gs.length := by
    cases he with
    | token ht _ =>
      have := List.length_pos_of_ne_nil ht.ne_nil
      rw [ht.eq, List.length_append, List.length_append]
      omega
    | mark heq _ => simp [heq]
  have hle := h.length_le (.inr (by simp)) ((List.append_nil gs).symm ▸ he)
  omega

theorem not_isMark_of_unmarked {depth : Nat} {cs : List Char} (h : Unmarked depth cs) :
    ∀ g ∈ Glyph.ofChars depth cs, ¬ g.isMark := by
  intro g hg
  have := h g hg
  unfold isMark isInner
  cases hp : g.part with
  | inner => simp
  | gap => simp
  | mark m => exact absurd hp (this m)

/-- A token that does not read, behind others that do, is the fault of a text that is sane up to
their run. -/
theorem Sane.rejected_token {gs hs rest : List Glyph} {l l' : List String} {t : String}
    (h : Sane gs) (hgs : ∀ g ∈ gs.getLast?, g.isMark) (hm : ∀ g ∈ hs, ¬ g.isMark)
    (hrest : ∀ g ∈ rest.head?, g.isMark) (ht : tokens hs = l ++ t :: l')
    (hok : ∀ u ∈ l, ∃ r, Subset.ofToken? u = .ok r) (hf : ∃ f, Subset.ofToken? t = .error f) :
    Rejected (gs ++ hs ++ rest) (.invalidIndex t) := by
  obtain ⟨before, token, after, htok, rfl, rfl, -⟩ := exists_isToken hs ht
  have hall := htok.append (fun g hg => not_isInner_of_isMark (hgs g hg))
    fun g hg => not_isInner_of_isMark (hrest g hg)
  have hsane : Sane (gs ++ before) := h.append
    (.inl fun g hg => not_isInner_of_isMark (hgs g hg)) hok
    fun g hg => hm g (by rw [htok.eq]; simp [hg])
  refine .event (.token hall hf) fun b f he => ?_
  have heq : gs ++ hs ++ rest = (gs ++ before) ++ (token ++ (after ++ rest)) := by
    rw [hall.eq, List.append_assoc]
  rw [heq] at he
  exact hsane.length_le (.inl hall.left) he

/-- A misplaced mark is the fault of a text that is sane up to it. -/
theorem Sane.rejected_mark {gs rest : List Glyph} {c : Char} {m : Mark} {reason : Malformation}
    (h : Sane gs) (hm : Misplaced gs m reason) :
    Rejected (gs ++ ⟨c, .mark m⟩ :: rest) (.malformed (bytes gs) reason) := by
  refine .event (.mark rfl hm) fun b f he => h.length_le (.inr ?_) he
  intro g hg
  obtain rfl : _ = g := Option.some.inj hg
  exact not_isInner_of_isMark (isMark_mk_mark c m)

end Glyph

namespace Opening

/-- The offsets of the open groups, the innermost first. -/
def groupOffsets (openings : List Opening) : List Nat :=
  (openings.filter fun o => !o.isChain).map offset

theorem groupOffsets_group (token : Option String) (offset : Nat) (openings : List Opening) :
    groupOffsets (⟨token, .group, offset⟩ :: openings) = offset :: groupOffsets openings := rfl

theorem groupOffsets_chain (token : Option String) (offset : Nat) (openings : List Opening) :
    groupOffsets (⟨token, .chain, offset⟩ :: openings) = groupOffsets openings := rfl

@[simp] theorem groupOffsets_endChains : ∀ openings : List Opening,
    groupOffsets (endChains openings) = groupOffsets openings
  | [] => rfl
  | ⟨_, .group, _⟩ :: _ => rfl
  | ⟨_, .chain, _⟩ :: openings => groupOffsets_endChains openings

theorem not_isChain_of_mem_head {openings : List Opening} {o : Opening}
    (h : o ∈ (endChains openings).head?) : o.isChain = false := by
  have := List.head?_dropWhile_not isChain openings
  rw [← endChains, Option.mem_def.1 h] at this
  simpa using this

theorem endChains_eq_nil {openings : List Opening} (h : endChains openings = []) :
    groupOffsets openings = [] := by
  rw [← groupOffsets_endChains, h]
  rfl

theorem endChains_eq_cons {openings outer : List Opening} {o : Opening}
    (h : endChains openings = o :: outer) :
    groupOffsets openings = o.offset :: groupOffsets outer := by
  have ho : o.isChain = false := not_isChain_of_mem_head (by rw [h]; rfl)
  rw [← groupOffsets_endChains, h, groupOffsets, List.filter_cons_of_pos (by simp [ho])]
  rfl

theorem groupOffsets_of_mem_situate {openings around : List Opening} {run : List Char} {t : String}
    (h : (around, t) ∈ situate openings run) : groupOffsets around = groupOffsets openings := by
  rcases eq_of_mem_situate h with rfl | rfl
  · rfl
  · exact groupOffsets_endChains openings

end Opening

namespace Glyph

/-- What reading keeps up: `gs` was read, ends at a mark, and left `openings` open. -/
structure Follows (gs : List Glyph) (openings : List Opening) : Prop where
  sane : Sane gs
  ended : ∀ g ∈ gs.getLast?, g.isMark
  groups : Groups gs (groupOffsets openings)
  chain : ∀ n, (∃ o ∈ openings.head?, o.isChain ∧ o.offset = n) ↔
    ∃ b c, gs = b ++ [⟨c, .mark .dot⟩] ∧ bytes b = n

theorem follows_nil : Follows [] [] where
  sane := sane_nil
  ended := by simp
  groups := groups_nil
  chain := by simp

section Run

variable {gs : List Glyph} {openings : List Opening} {run : List Char}

theorem Follows.apart (h : Follows gs openings) (hs : List Glyph) : Apart gs hs :=
  .inl fun g hg => not_isInner_of_isMark (h.ended g hg)

theorem Follows.sane_run (h : Follows gs openings) (hr : Unmarked 0 run)
    (hok : ∀ t ∈ tokens (Glyph.ofChars 0 run), ∃ r, Subset.ofToken? t = .ok r) :
    Sane (gs ++ Glyph.ofChars 0 run) :=
  h.sane.append (h.apart _) hok (not_isMark_of_unmarked hr)

theorem Follows.groups_run (h : Follows gs openings) (hr : Unmarked 0 run) :
    Groups (gs ++ Glyph.ofChars 0 run) (groupOffsets openings) :=
  h.groups.append fun g hg => ⟨hr g hg _, hr g hg _⟩

theorem Follows.lastRun_run (h : Follows gs openings) (hr : Unmarked 0 run) :
    lastRun (gs ++ Glyph.ofChars 0 run) = Glyph.ofChars 0 run :=
  lastRun_append h.ended (not_isMark_of_unmarked hr)

theorem exists_concat_eq {d : Char} {m m' : Mark} {n : Nat} :
    (∃ b c, gs ++ [⟨d, .mark m⟩] = b ++ [⟨c, .mark m'⟩] ∧ bytes b = n) ↔ m = m' ∧ bytes gs = n := by
  constructor
  · rintro ⟨b, c, heq, rfl⟩
    obtain ⟨rfl, hg⟩ := List.append_inj' heq rfl
    obtain ⟨-, hp⟩ := Glyph.mk.inj (List.singleton_inj.1 hg)
    exact ⟨Part.mark.inj hp, rfl⟩
  · rintro ⟨rfl, rfl⟩
    exact ⟨gs, d, rfl, rfl⟩

theorem Follows.close {outer : List Opening} {o : Opening} (h : Follows gs openings)
    (hr : Unmarked 0 run)
    (hok : ∀ t ∈ tokens (Glyph.ofChars 0 run), ∃ r, Subset.ofToken? t = .ok r)
    (ho : endChains openings = o :: outer) (c : Char) :
    Follows (gs ++ Glyph.ofChars 0 run ++ [⟨c, .mark .closeGroup⟩]) (endChains outer) := by
  have hgroups := h.groups_run hr
  rw [endChains_eq_cons ho] at hgroups
  refine ⟨(h.sane_run hr hok).concat ?_ c, by simp [isMark_mk_mark], ?_, fun n => ?_⟩
  · intro reason hm
    cases hm with
    | close hnone =>
      obtain ⟨bs, -, hb, hns⟩ := hgroups
      obtain ⟨b, bs, rfl, -⟩ := List.map_eq_cons_iff.1 hns.symm
      exact hnone b ((hb b).1 (.head _))
  · rw [groupOffsets_endChains]
    exact hgroups.close c
  · rw [exists_concat_eq]
    refine iff_of_false ?_ (by simp)
    rintro ⟨o, hm, hc, -⟩
    exact absurd hc (by simp [not_isChain_of_mem_head hm])

theorem Follows.open {around : List Opening} (h : Follows gs openings) (hr : Unmarked 0 run)
    (hok : ∀ t ∈ tokens (Glyph.ofChars 0 run), ∃ r, Subset.ofToken? t = .ok r)
    (ha : groupOffsets around = groupOffsets openings) (token : Option String) (c : Char) :
    Follows (gs ++ Glyph.ofChars 0 run ++ [⟨c, .mark .openGroup⟩])
      (⟨token, .group, bytes (gs ++ Glyph.ofChars 0 run)⟩ :: around) := by
  refine ⟨(h.sane_run hr hok).concat ?_ c, by simp [isMark_mk_mark], ?_, fun n => ?_⟩
  · exact fun reason hm => by cases hm
  · rw [groupOffsets_group, ha]
    exact (h.groups_run hr).open c
  · rw [exists_concat_eq]
    simp [isChain]

theorem Follows.dot {around : List Opening} (h : Follows gs openings) (hr : Unmarked 0 run)
    (hok : ∀ t ∈ tokens (Glyph.ofChars 0 run), ∃ r, Subset.ofToken? t = .ok r)
    (hne : tokens (Glyph.ofChars 0 run) ≠ [])
    (ha : groupOffsets around = groupOffsets openings) (token : Option String) (c : Char) :
    Follows (gs ++ Glyph.ofChars 0 run ++ [⟨c, .mark .dot⟩])
      (⟨token, .chain, bytes (gs ++ Glyph.ofChars 0 run)⟩ :: around) := by
  refine ⟨(h.sane_run hr hok).concat ?_ c, by simp [isMark_mk_mark], ?_, fun n => ?_⟩
  · intro reason hm
    cases hm with
    | dot hnone =>
      rw [h.lastRun_run hr] at hnone
      exact hne (tokens_eq_nil.2 hnone)
  · rw [groupOffsets_chain, ha]
    exact (h.groups_run hr).append (by simp)
  · rw [exists_concat_eq]
    simp [isChain]

/-- What is read past a mark that can stand where it does. -/
theorem Follows.step {inside : List Opening} {m : Mark} (h : Follows gs openings)
    (hr : Unmarked 0 run)
    (hok : ∀ t ∈ tokens (Glyph.ofChars 0 run), ∃ r, Subset.ofToken? t = .ok r) (c : Char)
    (ha : after openings run (bytes (gs ++ Glyph.ofChars 0 run)) m = .ok inside) :
    Follows (gs ++ Glyph.ofChars 0 run ++ [⟨c, .mark m⟩]) inside := by
  cases after_eq_ok.1 ha with
  | close he => exact h.close hr hok he c
  | bare _ => exact h.open hr hok rfl none c
  | group hs => exact h.open hr hok (groupOffsets_of_mem_situate (List.mem_of_getLast? hs)) _ c
  | chain hs =>
    refine h.dot hr hok ?_ (groupOffsets_of_mem_situate (List.mem_of_getLast? hs)) _ c
    rw [← tokens_eq hr, Ne, ← situate_eq_nil]
    intro hnil
    rw [hnil] at hs
    simp at hs

/-- Reading stops at a mark only if it is misplaced. -/
theorem Follows.misplaced {m : Mark} {offset : Nat} {f : Fault} (h : Follows gs openings)
    (hr : Unmarked 0 run) (ha : after openings run offset m = .error f) :
    ∃ reason, f = .malformed offset reason
      ∧ Misplaced (gs ++ Glyph.ofChars 0 run) m reason := by
  cases m with
  | closeGroup =>
    simp only [after] at ha
    cases he : endChains openings with
    | nil =>
      simp only [he] at ha
      have hgroups := h.groups_run hr
      rw [endChains_eq_nil he] at hgroups
      exact ⟨.unexpectedClose, (Except.error.inj ha).symm, .close hgroups.not_unclosed⟩
    | cons o outer => simp [he] at ha
  | openGroup =>
    simp only [after] at ha
    cases hs : (situate openings run).getLast? <;> simp [hs] at ha
  | dot =>
    simp only [after] at ha
    cases hs : (situate openings run).getLast? with
    | none =>
      simp only [hs] at ha
      refine ⟨.missingName, (Except.error.inj ha).symm, .dot ?_⟩
      rw [h.lastRun_run hr, ← tokens_eq_nil, ← tokens_eq hr, ← @situate_eq_nil openings]
      exact List.getLast?_eq_none_iff.1 hs
    | some t => simp [hs] at ha

/-- A text without events has a dot dangling just if reading finds a chain without a token. -/
theorem Follows.dangling_iff (h : Follows gs openings) (hr : Unmarked 0 run) (b : List Glyph) :
    Dangling (gs ++ Glyph.ofChars 0 run) b ↔
      (∃ o ∈ openings.head?, o.isChain ∧ o.offset = bytes b) ∧ (∃ c, gs = b ++ [⟨c, .mark .dot⟩])
        ∧ tokens (Glyph.ofChars 0 run) = [] := by
  rw [h.chain, tokens_eq_nil]
  constructor
  · intro ⟨c, after, heq, ha⟩
    have hrun : Glyph.ofChars 0 run = after := by
      have := @lastRun_append (b ++ [⟨c, .mark .dot⟩]) after (by simp [isMark_mk_mark])
        fun g hg => not_isMark_of_gap (ha g hg)
      rw [List.append_assoc, List.singleton_append, ← heq, h.lastRun_run hr] at this
      exact this
    rw [hrun, ← List.singleton_append, ← List.append_assoc, List.append_cancel_right_eq] at heq
    exact ⟨⟨b, c, heq, rfl⟩, ⟨c, heq⟩, fun g hg => by simp [isInner, ha g (hrun ▸ hg)]⟩
  · rintro ⟨-, ⟨c, rfl⟩, hnone⟩
    refine ⟨c, Glyph.ofChars 0 run, by simp, fun g hg => ?_⟩
    have hmark := not_isMark_of_unmarked hr g hg
    have hinner := hnone g hg
    simpa [isMark, hinner] using hmark

/-- The verdict on a text is told by how reading ends. -/
theorem Follows.finish_error {f : Fault} (h : Follows gs openings) (hr : Unmarked 0 run)
    (hok : ∀ t ∈ tokens (Glyph.ofChars 0 run), ∃ r, Subset.ofToken? t = .ok r)
    (hf : finish openings run = .error f) : Rejected (gs ++ Glyph.ofChars 0 run) f := by
  have hsane := (h.sane_run hr hok).not_event
  have hgroups := h.groups_run hr
  unfold finish at hf
  cases hlast : (openings.filter fun o => !o.isChain).getLast? with
  | some outermost =>
    simp only [hlast] at hf
    obtain rfl := Except.error.inj hf
    obtain ⟨b, hb, hu, hfirst⟩ := hgroups.exists_earliest (n := outermost.offset)
      (by rw [groupOffsets, List.getLast?_map, hlast]; rfl)
    rw [← hb]
    exact .unclosed hsane hu hfirst
  | none =>
    have hnone := List.getLast?_eq_none_iff.1 hlast
    unfold groupOffsets at hgroups
    rw [hnone, List.map_nil] at hgroups
    cases openings with
    | nil => simp at hf
    | cons o os =>
      cases hs : situate (o :: os) run with
      | cons t ts => simp [hlast, hs] at hf
      | nil =>
        simp only [hlast, hs] at hf
        obtain rfl := Except.error.inj hf
        have hc : o.isChain := by
          have := List.filter_eq_nil_iff.1 hnone o (by simp)
          simpa using this
        obtain ⟨b, c, hb, hn⟩ := (h.chain o.offset).1 ⟨o, rfl, hc, rfl⟩
        rw [← hn]
        refine .dangling hsane hgroups.not_unclosed ((h.dangling_iff hr b).2 ⟨?_, ⟨c, hb⟩, ?_⟩)
        · exact ⟨o, rfl, hc, hn.symm⟩
        · rw [← tokens_eq hr]
          exact situate_eq_nil.1 hs

theorem Follows.finish_ok (h : Follows gs openings) (hr : Unmarked 0 run)
    (hok : ∀ t ∈ tokens (Glyph.ofChars 0 run), ∃ r, Subset.ofToken? t = .ok r)
    (hf : finish openings run = .ok ()) : Accepted (gs ++ Glyph.ofChars 0 run) := by
  have hgroups := h.groups_run hr
  unfold finish at hf
  cases hlast : (openings.filter fun o => !o.isChain).getLast? with
  | some outermost => simp [hlast] at hf
  | none =>
    unfold groupOffsets at hgroups
    rw [List.getLast?_eq_none_iff.1 hlast, List.map_nil] at hgroups
    refine ⟨(h.sane_run hr hok).not_event, hgroups.not_unclosed, fun b hd => ?_⟩
    obtain ⟨⟨o, ho, -⟩, -, ht⟩ := (h.dangling_iff hr b).1 hd
    rw [← tokens_eq hr, ← @situate_eq_nil openings] at ht
    cases openings with
    | nil => simp at ho
    | cons o os => simp [hlast, ht] at hf

end Run

/-- Whether the outcome of reading is the verdict on the text. -/
def Verdict {α : Type} (gs : List Glyph) : Except Fault α → Prop
  | .error f => Rejected gs f
  | .ok _ => Accepted gs

theorem Verdict.map {α β : Type} {gs : List Glyph} {x : Except Fault α} (h : Verdict gs x)
    (f : α → β) : Verdict gs (x.map f) := by
  cases x <;> exact h

theorem ofChars_marked {pre run : List Char} {c : Char} {m : Mark} (hd : depthThrough 0 pre = 0)
    (hr : Clean run) (hm : Mark.ofChar? c = some m) (rest : List Char) :
    depthThrough 0 (pre ++ run ++ [c]) = 0
      ∧ Glyph.ofChars 0 (pre ++ run ++ [c] ++ rest) =
        Glyph.ofChars 0 pre ++ Glyph.ofChars 0 run ++ ⟨c, .mark m⟩ :: Glyph.ofChars 0 rest := by
  have hc : Glyph.ofChar 0 c = ⟨c, .mark m⟩ := by
    have := part_ofChar_eq_mark.2 ⟨rfl, hm⟩
    rw [← this]
    rfl
  have hdepth : depthAfter 0 c = 0 := depthAfter_of_not_isInner
    (by rw [hc]; exact not_isInner_of_isMark (isMark_mk_mark c m))
  have hclosed : depthThrough 0 (pre ++ run ++ [c]) = 0 := by
    rw [depthThrough_append, depthThrough_append, hd, hr.closed]
    exact hdepth
  refine ⟨hclosed, ?_⟩
  rw [ofChars_append, hclosed, ofChars_append, ofChars_append, depthThrough_append, hd, hr.closed,
    ← hc, List.append_assoc]
  rfl

section Text

variable {pre run : List Char} {openings : List Opening}

theorem verdict_last (hd : depthThrough 0 pre = 0) (h : Follows (Glyph.ofChars 0 pre) openings)
    (hr : Unmarked 0 run) :
    Verdict (Glyph.ofChars 0 (pre ++ run)) ((scan 0 (size pre) run).entries openings) := by
  rw [ofChars_append, hd, scan_of_unmarked hr, entries_last]
  cases hms : (held openings run).mapM Mention.read with
  | error f =>
    obtain ⟨l, t, l', hl, hok, hf, rfl⟩ := Mention.mapM_read_eq_error hms
    rw [tokens_held, tokens_eq hr] at hl
    have hend : ∀ g ∈ ([] : List Glyph).head?, g.isMark := by simp
    have := h.sane.rejected_token h.ended (not_isMark_of_unmarked hr) hend hl hok hf
    rwa [List.append_nil] at this
  | ok es =>
    have hok := Mention.exists_ofToken?_of_mapM_read hms
    rw [tokens_held, tokens_eq hr] at hok
    rw [ok_bind]
    cases hf : finish openings run with
    | error f => exact h.finish_error hr hok hf
    | ok u => exact h.finish_ok hr hok hf

/-- A run and its mark hold the first event of the text, or what follows them decides. -/
theorem verdict_marked {c : Char} {m : Mark} {rest : List Char} (hd : depthThrough 0 pre = 0)
    (h : Follows (Glyph.ofChars 0 pre) openings) (hr : Clean run) (hm : Mark.ofChar? c = some m)
    (hrest : ∀ inside, Follows (Glyph.ofChars 0 (pre ++ run ++ [c])) inside →
      Verdict (Glyph.ofChars 0 (pre ++ run ++ [c] ++ rest))
        ((scan 0 (size (pre ++ run ++ [c])) rest).entries inside)) :
    Verdict (Glyph.ofChars 0 (pre ++ run ++ [c] ++ rest))
      ((scan 0 (size pre) (run ++ c :: rest)).entries openings) := by
  have hsize : size (pre ++ run ++ [c]) = size pre + size run + c.utf8Size := by
    rw [size_append, size_append]
    rfl
  have hbytes : size pre + size run = bytes (Glyph.ofChars 0 pre ++ Glyph.ofChars 0 run) := by
    rw [bytes_append, bytes_ofChars, bytes_ofChars]
  obtain ⟨-, hpre⟩ := ofChars_marked hd hr hm []
  obtain ⟨-, htext⟩ := ofChars_marked hd hr hm rest
  rw [List.append_nil] at hpre
  rw [scan_marked hr hm, entries_marked]
  cases hms : (mentions openings run m).mapM Mention.read with
  | error f =>
    obtain ⟨l, t, l', hl, hok, hf, rfl⟩ := Mention.mapM_read_eq_error hms
    rw [tokens_mentions, tokens_eq hr.unmarked] at hl
    rw [htext]
    exact h.sane.rejected_token h.ended (not_isMark_of_unmarked hr.unmarked)
      (by simp [isMark_mk_mark]) hl hok hf
  | ok es =>
    have hok := Mention.exists_ofToken?_of_mapM_read hms
    rw [tokens_mentions, tokens_eq hr.unmarked] at hok
    rw [ok_bind]
    cases ha : after openings run (size pre + size run) m with
    | error f =>
      obtain ⟨reason, rfl, hmis⟩ := h.misplaced hr.unmarked ha
      rw [htext, hbytes]
      exact (h.sane_run hr.unmarked hok).rejected_mark hmis
    | ok inside =>
      rw [hbytes] at ha
      have hstep := hrest inside (hpre ▸ h.step hr.unmarked hok c ha)
      rw [hsize] at hstep
      exact hstep.map (es ++ ·)

end Text

/-- The rest of a text is read to the verdict on the whole text. -/
theorem verdict_entries (cs : List Char) : ∀ (pre : List Char) (openings : List Opening),
    depthThrough 0 pre = 0 → Follows (Glyph.ofChars 0 pre) openings →
      Verdict (Glyph.ofChars 0 (pre ++ cs)) ((scan 0 (size pre) cs).entries openings) := by
  induction cs using runs_induction with
  | last run hr => exact fun pre openings hd h => verdict_last hd h hr
  | marked run c m rest hr hm ih =>
    intro pre openings hd h
    obtain ⟨hclosed, -⟩ := ofChars_marked hd hr hm rest
    have := verdict_marked hd h hr hm fun inside => ih (pre ++ run ++ [c]) inside hclosed
    rwa [List.append_assoc, List.append_assoc, List.singleton_append] at this

end Glyph

/-- A text has a fault just if its marks and tokens tell it, and is read just if they tell none. -/
theorem Selector.parse_verdict (text : String) :
    (∀ f, parse text = .error f ↔ Glyph.Rejected (Glyph.ofChars 0 text.toList) f)
      ∧ ((∃ s, parse text = .ok s) ↔ Glyph.Accepted (Glyph.ofChars 0 text.toList)) := by
  have hv : Glyph.Verdict (Glyph.ofChars 0 text.toList) (parse text) :=
    (Glyph.verdict_entries text.toList [] [] rfl Glyph.follows_nil).map Selector.ofEntries
  cases hp : parse text with
  | error f =>
    rw [hp] at hv
    refine ⟨fun f' => ⟨fun h => ?_, fun h => ?_⟩, iff_of_false (by simp) fun h => ?_⟩
    · obtain rfl := Except.error.inj h
      exact hv
    · rw [hv.unique h]
    · exact h.not_rejected f hv
  | ok s =>
    rw [hp] at hv
    refine ⟨fun f => iff_of_false (by simp) (hv.not_rejected f), iff_of_true ⟨s, rfl⟩ hv⟩

end JsonSelect
