import JsonSelect.Proofs.Scanning

/-!
# The buffer of a scanner

A scanner counts brackets as it reads, and again when it cuts its buffer into tokens. The first
count does not see a closing bracket where none is open, the second starts anew with every buffer.
They agree all the same (`Scanner.InStep`): a buffer starts outside brackets, since it is taken only
there (`Scanner.Cuts`), and from then on the two counts move alike. So the buffer divides into
tokens at the separators that came outside brackets, and nowhere else (`Divided`).
-/

namespace JsonSelect

open Outline

/-- Some tokens with the separators around them. No token can be made longer. -/
inductive Divided : List Glyph → List String → Prop
  | gap {gap : List Glyph} (hg : ∀ g ∈ gap, g.part = .gap) : Divided gap []
  | token {gap token rest : List Glyph} {ts : List String} (hg : ∀ g ∈ gap, g.part = .gap)
      (hne : token ≠ []) (ht : ∀ g ∈ token, g.part = .inner)
      (hr : ∀ g ∈ rest.head?, g.part = .gap) (h : Divided rest ts) :
      Divided (gap ++ token ++ rest) (Glyph.text token :: ts)

namespace Divided

theorem tokens_eq {gs : List Glyph} {ts : List String} (h : Divided gs ts) :
    Glyph.tokens gs = ts := by
  have hgap : ∀ gs : List Glyph, (∀ g ∈ gs, g.part = .gap) → ∀ g ∈ gs, ¬ g.isInner :=
    fun gs hg g hm => by simp [Glyph.isInner, hg g hm]
  induction h with
  | gap hg => exact Glyph.tokens_of_forall_not_isInner (hgap _ hg)
  | @token gap token rest ts hg hne ht hr h ih =>
    have hstands : Glyph.IsToken (gap ++ token ++ rest) gap token rest := {
      eq := rfl
      ne_nil := hne
      isInner := fun g hm => Glyph.isInner_iff.2 (ht g hm)
      left := fun g hm => hgap _ hg g (List.mem_of_getLast? hm)
      right := fun g hm => by simp [Glyph.isInner, hr g hm] }
    rw [hstands.tokens_eq, ih, Glyph.tokens_of_forall_not_isInner (hgap _ hg), List.nil_append]

theorem cons_gap {g : Glyph} {gs : List Glyph} {ts : List String} (h : Divided gs ts)
    (hg : g.part = .gap) : Divided (g :: gs) ts := by
  cases h with
  | gap hgaps => exact .gap (List.forall_mem_cons.2 ⟨hg, hgaps⟩)
  | @token gap token rest ts hgaps hne ht hr h =>
    exact .token (List.forall_mem_cons.2 ⟨hg, hgaps⟩) hne ht hr h

/-- A token character in front lengthens the first token or is one of its own. -/
theorem exists_cons_inner {g : Glyph} {gs : List Glyph} {ts : List String} (h : Divided gs ts)
    (hg : g.part = .inner) : ∃ ts', Divided (g :: gs) ts' := by
  have hone : (∀ x ∈ gs.head?, x.part = .gap) → Divided ([] ++ [g] ++ gs) (Glyph.text [g] :: ts) :=
    fun hr => .token nofun (List.cons_ne_nil g []) (List.forall_mem_singleton.2 hg) hr h
  cases h with
  | gap hgaps => exact ⟨_, hone fun x hx => hgaps x (List.mem_of_mem_head? hx)⟩
  | @token gap token rest ts hgaps hne ht hr h =>
    cases gap with
    | nil =>
      have : Divided ([] ++ (g :: token) ++ rest) (Glyph.text (g :: token) :: ts) :=
        .token nofun (List.cons_ne_nil g token) (List.forall_mem_cons.2 ⟨hg, ht⟩) hr h
      exact ⟨_, this⟩
    | cons x gap =>
      refine ⟨_, hone fun y hy => ?_⟩
      obtain rfl : x = y := Option.some.inj hy
      exact hgaps x (.head _)

theorem exists_of_unmarked : ∀ {gs : List Glyph}, (∀ g ∈ gs, ∀ m, g.part ≠ .mark m) →
    ∃ ts, Divided gs ts
  | [], _ => ⟨[], .gap nofun⟩
  | g :: gs, h => by
    obtain ⟨hg, hgs⟩ := List.forall_mem_cons.1 h
    obtain ⟨ts, hts⟩ := exists_of_unmarked hgs
    rcases Scanner.inner_or_gap hg with hinner | hgap
    · exact exists_cons_inner hts hinner
    · exact ⟨ts, hts.cons_gap hgap⟩

end Divided

/-- Where no mark is, there is one way to divide. -/
theorem divided_iff {gs : List Glyph} {ts : List String} (h : ∀ g ∈ gs, ∀ m, g.part ≠ .mark m) :
    Divided gs ts ↔ Glyph.tokens gs = ts := by
  refine ⟨Divided.tokens_eq, ?_⟩
  rintro rfl
  obtain ⟨ts, hts⟩ := Divided.exists_of_unmarked h
  rwa [hts.tokens_eq]

/-- Two token characters that stand side by side are in one token. -/
theorem Glyph.exists_isToken_of_inner {gs front back : List Glyph} {b c : Glyph}
    (h : gs = front ++ b :: c :: back) (hb : b.isInner) (hc : c.isInner) :
    ∃ before inside rest after, IsToken gs before (inside ++ b :: c :: rest) after
      ∧ before ++ inside = front := by
  have hfront : front.rdropWhile isInner ++ front.rtakeWhile isInner = front :=
    List.rdropWhile_append_rtakeWhile
  refine ⟨front.rdropWhile isInner, front.rtakeWhile isInner, back.takeWhile isInner,
    back.dropWhile isInner, ⟨?_, by simp, fun g hg => ?_, fun g hg => ?_, fun g hg => ?_⟩, hfront⟩
  · rw [← List.append_assoc, hfront, List.append_assoc, List.cons_append, List.cons_append,
      List.takeWhile_append_dropWhile, h]
  · rcases List.mem_append.1 hg with hg | hg
    · exact List.mem_rtakeWhile_imp hg
    · rcases List.mem_cons.1 hg with rfl | hg
      · exact hb
      · rcases List.mem_cons.1 hg with rfl | hg
        · exact hc
        · exact List.mem_takeWhile_imp hg
  · obtain ⟨hne, rfl⟩ := List.mem_getLast?_eq_getLast hg
    exact List.rdropWhile_last_not isInner front hne
  · have hnot := List.head?_dropWhile_not isInner back
    rw [Option.mem_def.1 hg] at hnot
    simpa using hnot

/-- A buffer that leaves so many brackets open. Read again, its characters have the parts with which
they came. -/
structure Tracks (buffer : List Glyph) (depth : Nat) : Prop where
  parts_eq : Glyph.ofChars 0 (buffer.map Glyph.char) = buffer
  depth_eq : depthThrough 0 (buffer.map Glyph.char) = depth
  unmarked : ∀ g ∈ buffer, ∀ m, g.part ≠ .mark m

theorem tracks_nil : Tracks [] 0 := ⟨rfl, rfl, nofun⟩

theorem Tracks.push {buffer : List Glyph} {depth : Nat} {c : Char} (h : Tracks buffer depth)
    (hc : ∀ m, (Glyph.ofChar depth c).part ≠ .mark m) :
    Tracks (buffer ++ [Glyph.ofChar depth c]) (depthAfter depth c) where
  parts_eq := by
    rw [List.map_append, Glyph.ofChars_append, h.parts_eq, h.depth_eq]
    rfl
  depth_eq := by
    rw [List.map_append, depthThrough_append, h.depth_eq]
    rfl
  unmarked := by
    rw [List.forall_mem_append]
    exact ⟨h.unmarked, List.forall_mem_singleton.2 hc⟩

namespace Scanner

variable {s next : Scanner} {c : Char}

/-- A mark takes the buffer, and a token character does behind a chain that is to end. -/
def Cuts (s : Scanner) (c : Char) : Prop :=
  s.depth = 0 ∧ ((Mark.ofChar? c).isSome ∨ s.pending ∧ separates c = false)

theorem of_pass {m : Mark} (h : s.pass m = .ok next) : next.buffer = [] ∧ next.depth = s.depth := by
  have hopens : ∀ kind, s.opens kind = .ok next → next.buffer = [] ∧ next.depth = s.depth := by
    intro kind h
    rcases List.eq_nil_or_concat s.tokens with hnil | ⟨ts, t, htokens⟩
    · rw [opens_of_nil hnil] at h
      cases kind with
      | chain => cases h
      | group =>
        obtain rfl := Except.ok.inj h
        exact ⟨rfl, rfl⟩
    · rw [opens_of_append (htokens.trans (List.concat_eq_append ..))] at h
      obtain ⟨fields, -, h⟩ := bind_eq_ok.1 h
      obtain ⟨descent, -, h⟩ := bind_eq_ok.1 h
      obtain rfl := Except.ok.inj h
      exact ⟨rfl, rfl⟩
  cases m with
  | openGroup => exact hopens .group h
  | dot => exact hopens .chain h
  | closeGroup =>
    obtain ⟨es, -, h⟩ := bind_eq_ok.1 ((closes_eq s).symm.trans h)
    cases hend : Opening.endChains s.openings with
    | nil =>
      rw [hend] at h
      cases h
    | cons o outer =>
      rw [hend] at h
      obtain rfl := Except.ok.inj h
      exact ⟨rfl, rfl⟩

theorem cuts_of_mark {m : Mark} (h : (Glyph.ofChar s.depth c).part = .mark m) : s.Cuts c := by
  obtain ⟨hd, hm⟩ := Glyph.part_ofChar_eq_mark.1 h
  exact ⟨hd, .inl (by rw [hm]; rfl)⟩

/-- Any other character lengthens the buffer. -/
theorem step_of_not_cuts (h : ¬ s.Cuts c) :
    ∃ pending, s.step c = .ok { s.grown [c] with pending := pending } := by
  cases hp : (Glyph.ofChar s.depth c).part with
  | mark m => exact absurd (cuts_of_mark hp) h
  | gap => exact ⟨_, step_gap hp⟩
  | inner =>
    by_cases hd : s.depth = 0
    · rw [hd] at hp
      have hpending : ¬ s.pending := fun hs => h ⟨hd, .inr ⟨hs, (isInner_outside hp).2⟩⟩
      exact ⟨s.pending, by rw [step_inner hd hp, if_neg hpending]; rfl⟩
    · exact ⟨s.pending, step_of_depth hd⟩

/-- Behind a buffer that was taken stands nothing, or the token character that took it. -/
theorem of_cuts (hcuts : s.Cuts c) (h : s.step c = .ok next) :
    next.buffer = [] ∧ next.depth = 0
      ∨ (Glyph.ofChar 0 c).part = .inner ∧ next.buffer = [Glyph.ofChar 0 c]
        ∧ next.depth = depthAfter 0 c := by
  obtain ⟨hd, hc⟩ := hcuts
  cases hm : Mark.ofChar? c with
  | some m =>
    rw [step, take, if_neg (by omega), hm] at h
    obtain ⟨passed, hpass, h⟩ := bind_eq_ok.1 h
    obtain rfl := Except.ok.inj h
    obtain ⟨hbuffer, hdepth⟩ := of_pass hpass
    exact .inl ⟨hbuffer, hdepth.trans hd⟩
  | none =>
    obtain ⟨hpending, hs⟩ := hc.resolve_left (by simp [hm])
    have hinner : (Glyph.ofChar 0 c).part = .inner := by simp [Glyph.ofChar, hm, hs]
    rw [step_inner hd hinner, if_pos hpending] at h
    obtain ⟨es, -, h⟩ := bind_eq_ok.1 h
    obtain rfl := Except.ok.inj h
    have hended : (s.ended es).depth = 0 := hd
    refine .inr ⟨hinner, ?_, ?_⟩
    · rw [grown_singleton, hended]
      rfl
    · rw [grown_singleton, hended]

/-- A character is counted as it is when the buffer is read again. -/
theorem tracks_step (hs : Tracks s.buffer s.depth) (h : s.step c = .ok next) :
    Tracks next.buffer next.depth := by
  by_cases hcuts : s.Cuts c
  · rcases of_cuts hcuts h with ⟨hbuffer, hdepth⟩ | ⟨hinner, hbuffer, hdepth⟩
    · rw [hbuffer, hdepth]
      exact tracks_nil
    · rw [hbuffer, hdepth]
      exact tracks_nil.push fun m hm => nomatch hinner.symm.trans hm
  · obtain ⟨pending, hstep⟩ := step_of_not_cuts hcuts
    obtain rfl := Except.ok.inj (hstep.symm.trans h)
    exact hs.push fun m hm => hcuts (cuts_of_mark hm)

theorem tracks_foldlM : ∀ {cs : List Char} {s next : Scanner}, Tracks s.buffer s.depth →
    cs.foldlM step s = .ok next → Tracks next.buffer next.depth
  | [], s, next, hs, h => by
    obtain rfl := Except.ok.inj h
    exact hs
  | c :: cs, s, next, hs, h => by
    rw [List.foldlM_cons] at h
    obtain ⟨t, ht, h⟩ := bind_eq_ok.1 h
    exact tracks_foldlM (tracks_step hs ht) h

theorem tracks_scan {read : List Char} (h : scan read = .ok s) : Tracks s.buffer s.depth :=
  tracks_foldlM tracks_nil h

/-- The two counts of brackets are in step: the one kept while reading and the one that the buffer
gives when it is read again. What is inside brackets starts no token and is dropped from none, and
the buffer is taken only outside of them. -/
structure InStep (s : Scanner) : Prop where
  depth_eq : depthThrough 0 s.text = s.depth
  parts_eq : Glyph.ofChars 0 s.text = s.buffer
  divided : Divided s.buffer s.tokens
  inside : ∀ front c back, s.text = front ++ c :: back → depthThrough 0 front ≠ 0 →
    ∃ before token rest after,
      Glyph.IsToken s.buffer before (token ++ ⟨c, .inner⟩ :: rest) after
        ∧ token ≠ [] ∧ (before ++ token).map Glyph.char = front
        ∧ Glyph.text (token ++ ⟨c, .inner⟩ :: rest) ∈ s.tokens
  grows : ∀ c, ¬ s.Cuts c →
    ∃ next, s.step c = .ok next ∧ next.buffer = s.buffer ++ [Glyph.ofChar s.depth c]
  closed : ∀ c, s.Cuts c → depthThrough 0 s.text = 0
  starts : ∀ c next, s.Cuts c → s.step c = .ok next →
    next.buffer = [] ∨ next.buffer = [⟨c, .inner⟩]

theorem tokens_of_tracks (h : Tracks s.buffer s.depth) : Glyph.tokens s.buffer = s.tokens := by
  have hunmarked : Unmarked 0 s.text := by
    unfold Unmarked text
    rw [h.parts_eq]
    exact h.unmarked
  unfold tokens
  rw [tokens_eq hunmarked, text, h.parts_eq]

/-- A character inside brackets stands in a token, and does not start it. -/
theorem exists_isToken_of_depth (h : Tracks s.buffer s.depth) {front back : List Char}
    (htext : s.text = front ++ c :: back) (hd : depthThrough 0 front ≠ 0) :
    ∃ before token rest after,
      Glyph.IsToken s.buffer before (token ++ ⟨c, .inner⟩ :: rest) after
        ∧ token ≠ [] ∧ (before ++ token).map Glyph.char = front
        ∧ Glyph.text (token ++ ⟨c, .inner⟩ :: rest) ∈ s.tokens := by
  have hne : front ≠ [] := by
    rintro rfl
    exact hd rfl
  obtain ⟨front, b, rfl⟩ := (List.eq_nil_or_concat front).resolve_left hne
  rw [List.concat_eq_append] at htext hd ⊢
  have hb : (Glyph.ofChar (depthThrough 0 front) b).isInner := by
    by_contra hnot
    rw [depthThrough_append] at hd
    exact hd (Glyph.depthAfter_of_not_isInner hnot)
  have hc : Glyph.ofChar (depthThrough 0 (front ++ [b])) c = ⟨c, .inner⟩ := by
    simp [Glyph.ofChar, hd]
  have hbuffer : s.buffer = Glyph.ofChars 0 front ++ Glyph.ofChar (depthThrough 0 front) b
      :: ⟨c, .inner⟩ :: Glyph.ofChars (depthAfter (depthThrough 0 (front ++ [b])) c) back := by
    rw [← h.parts_eq, ← hc]
    unfold text at htext
    rw [htext, Glyph.ofChars_append, Glyph.ofChars_append]
    simp [Glyph.ofChars]
  obtain ⟨before, token, rest, after, htoken, hfront⟩ :=
    Glyph.exists_isToken_of_inner hbuffer hb rfl
  rw [List.append_cons token] at htoken
  refine ⟨before, token ++ [_], rest, after, htoken, by simp, ?_, ?_⟩
  · rw [← List.append_assoc, hfront, List.map_append, Glyph.map_char_ofChars]
    rfl
  · rw [← tokens_of_tracks h, htoken.tokens_eq]
    exact List.mem_append_right _ (.head _)

theorem inStep_of_tracks (h : Tracks s.buffer s.depth) : s.InStep where
  depth_eq := h.depth_eq
  parts_eq := h.parts_eq
  divided := (divided_iff h.unmarked).2 (tokens_of_tracks h)
  inside front c back := exists_isToken_of_depth h
  grows c hcuts := by
    obtain ⟨pending, hstep⟩ := step_of_not_cuts hcuts
    exact ⟨_, hstep, rfl⟩
  closed c hcuts := h.depth_eq.trans hcuts.1
  starts c next hcuts hstep := by
    rcases of_cuts hcuts hstep with ⟨hbuffer, -⟩ | ⟨hinner, hbuffer, -⟩
    · exact .inl hbuffer
    · have hglyph : Glyph.ofChar 0 c = ⟨c, .inner⟩ := congrArg (Glyph.mk c) hinner
      exact .inr (hbuffer.trans (by rw [hglyph]))

/-- The entries of a scan are those of the parser, and whatever part of the text has been scanned,
the counts are in step. -/
theorem inStep_of_scan (text : String) :
    Selector.parse text = (parse text).map Selector.ofEntries
      ∧ ∀ read, read <+: text.toList → ∀ s, scan read = .ok s → s.InStep :=
  ⟨congrArg (Except.map Selector.ofEntries) (parse_eq text).symm,
    fun _ _ _ h => inStep_of_tracks (tracks_scan h)⟩

/-- A bracket is closed that was not open, and another is open at the end. -/
theorem inStep_of_scan_unmatched :
    ∃ s t, scan "a[.b] ]x".toList = .ok s ∧ scan "a[.b] ]x.y[ z".toList = .ok t
      ∧ s.InStep ∧ s.tokens = ["a[.b]", "]x"] ∧ s.Cuts '.'
      ∧ t.InStep ∧ t.tokens = ["y[ z"] ∧ t.depth = 1 := by
  obtain ⟨-, hinStep⟩ := inStep_of_scan "a[.b] ]x.y[ z"
  exact ⟨_, _, rfl, rfl, hinStep "a[.b] ]x".toList (by decide) _ rfl, rfl, ⟨rfl, .inl rfl⟩,
    hinStep _ List.prefix_rfl _ rfl, rfl, rfl⟩

end Scanner

end JsonSelect
