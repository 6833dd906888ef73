import JsonSelect.Proofs.Grammar
import Mathlib.Data.List.TakeWhile

/-!
# Scanning a selector text

A text can also be read in one pass (`Scanner`). Characters are buffered as they come; a mark takes
the buffer, and so does the token that ends a chain. Brackets are counted on the way, a closing one
only where one is open, and nothing but the count is known of a bracket when the buffer is cut into
tokens.

One pass reads what reading run by run does (`Scanner.parse_eq`): a run leaves its tokens in the
buffer, save for the one that ends up in a chain when another token follows
(`Scanner.exists_leaves`).
-/

namespace JsonSelect

open Outline Opening

/-- What a text has been read to. The buffered characters have the part in which they came. -/
structure Scanner where
  buffer : List Glyph
  depth : Nat
  pending : Bool
  openings : List Opening
  offset : Nat
  entries : List Entry

namespace Scanner

def start : Scanner := ⟨[], 0, false, [], 0, []⟩

section Definitions

variable (s : Scanner)

def text : List Char := s.buffer.map Glyph.char

def tokens : List String := Outline.tokens s.text

def inChain : Bool := s.openings.head?.any isChain

def push (part : Part) (c : Char) : Scanner := { s with buffer := s.buffer ++ [⟨c, part⟩] }

/-- Reads tokens inside what is open. -/
def read (role : Role) (tokens : List String) : Except Fault Scanner := do
  let entries ← tokens.mapM fun token => Entry.ofToken role (s.openings, token)
  return { s with entries := s.entries ++ entries }

/-- Takes the buffer as fields. -/
def flush : Except Fault Scanner := do
  let next ← s.read .field s.tokens
  return { next with buffer := [] }

def endChain : Except Fault Scanner := do
  if s.pending then
    let next ← s.flush
    return { next with pending := false, openings := endChains next.openings }
  else return s

def enter (token : Option String) (kind : OpeningKind) : Scanner :=
  { s with buffer := [], pending := false, openings := ⟨token, kind, s.offset⟩ :: s.openings }

/-- Takes the buffer as fields and, if there is one, the token that a group or a chain has. -/
def opens (kind : OpeningKind) : Except Fault Scanner := do
  let next ← s.read .field s.tokens.dropLast
  match s.tokens.getLast?, kind with
  | none, .chain => throw (.malformed s.offset .missingName)
  | none, .group => return next.enter none .group
  | some token, kind => return (← next.read .descend [token]).enter (some token) kind

def closes : Except Fault Scanner := do
  let next ← s.flush
  match endChains next.openings with
  | [] => throw (.malformed s.offset .unexpectedClose)
  | _ :: outer => return { next with pending := false, openings := endChains outer }

def pass : Mark → Except Fault Scanner
  | .openGroup => s.opens .group
  | .closeGroup => s.closes
  | .dot => s.opens .chain

/-- Reads a character. Inside brackets it is but buffered and counted. -/
def take (c : Char) : Except Fault Scanner := do
  if s.depth > 0 then
    let depth := if c = '[' then s.depth + 1 else if c = ']' then s.depth - 1 else s.depth
    return { s.push .inner c with depth := depth }
  else match Mark.ofChar? c with
    | some mark => s.pass mark
    | none =>
      if separates c then return { s.push .gap c with pending := s.pending || s.inChain }
      else
        let next ← s.endChain
        return { next.push .inner c with depth := if c = '[' then 1 else 0 }

def step (c : Char) : Except Fault Scanner := do
  let next ← s.take c
  return { next with offset := s.offset + c.utf8Size }

/-- Whether a text may end where these tokens are left. -/
def mayEnd {α : Type} (openings : List Opening) (left : List α) : Except Fault Unit :=
  match (openings.filter fun o => !o.isChain).getLast? with
  | some outermost => throw (.malformed outermost.offset .unclosedGroup)
  | none =>
    match openings, left with
    | innermost :: _, [] => throw (.malformed innermost.offset .danglingDot)
    | _, _ => return

/-- The entries of the text when it ends here. -/
def finish : Except Fault (List Entry) := do
  let next ← s.flush
  mayEnd next.openings s.tokens
  return next.entries

end Definitions

def scan (cs : List Char) : Except Fault Scanner := cs.foldlM step start

def parse (text : String) : Except Fault (List Entry) := do (← scan text.toList).finish

section Characters

variable {s : Scanner} {c : Char}

/-- The scanner with some characters more in its buffer. -/
def grown (s : Scanner) (cs : List Char) : Scanner :=
  { s with
    buffer := s.buffer ++ Glyph.ofChars s.depth cs
    depth := depthThrough s.depth cs
    offset := s.offset + size cs }

theorem grown_nil (s : Scanner) : s.grown [] = s := by
  simp [grown, Glyph.ofChars, depthThrough, size]

theorem grown_cons (s : Scanner) (c : Char) (cs : List Char) :
    (s.grown [c]).grown cs = s.grown (c :: cs) := by
  simp [grown, Glyph.ofChars, depthThrough, size, Nat.add_assoc]

theorem grown_append (s : Scanner) (cs ds : List Char) :
    (s.grown cs).grown ds = s.grown (cs ++ ds) := by
  simp [grown, Glyph.ofChars_append, depthThrough_append, size_append, Nat.add_assoc]

theorem grown_singleton (s : Scanner) (c : Char) : s.grown [c] =
    { s with
      buffer := s.buffer ++ [Glyph.ofChar s.depth c]
      depth := depthAfter s.depth c
      offset := s.offset + c.utf8Size } := rfl

theorem isInner_outside {c : Char} (h : (Glyph.ofChar 0 c).part = .inner) :
    Mark.ofChar? c = none ∧ separates c = false := by
  have hmark : ∀ m, Mark.ofChar? c ≠ some m := fun m hm =>
    absurd (h.symm.trans (Glyph.part_ofChar_eq_mark.2 ⟨rfl, hm⟩)) nofun
  have hgap : ¬ separates c := fun hs =>
    absurd (h.symm.trans (Glyph.part_ofChar_eq_gap.2 ⟨rfl, hs⟩)) nofun
  exact ⟨Option.eq_none_iff_forall_ne_some.2 hmark, Bool.eq_false_iff.2 hgap⟩

/-- Outside brackets only an opening one is counted. -/
theorem depthAfter_zero (c : Char) : depthAfter 0 c = if c = '[' then 1 else 0 := by
  unfold depthAfter
  split_ifs <;> rfl

theorem step_of_depth (hd : s.depth ≠ 0) : s.step c = .ok (s.grown [c]) := by
  have hpos : s.depth > 0 := Nat.pos_of_ne_zero hd
  have hglyph : Glyph.ofChar s.depth c = ⟨c, .inner⟩ := by simp [Glyph.ofChar, hd]
  rw [step, take, if_pos hpos, grown_singleton, hglyph]
  rfl

theorem step_gap (h : (Glyph.ofChar s.depth c).part = .gap) :
    s.step c = .ok { s.grown [c] with pending := s.pending || s.inChain } := by
  obtain ⟨hd, hs⟩ := Glyph.part_ofChar_eq_gap.1 h
  have hglyph : Glyph.ofChar s.depth c = ⟨c, .gap⟩ := congrArg (Glyph.mk c) h
  have hdepth : depthAfter s.depth c = s.depth :=
    (Glyph.depthAfter_of_not_isInner (by simp [Glyph.isInner, h])).trans hd.symm
  rw [step, take, if_neg (by omega), Glyph.ofChar?_of_separates hs]
  simp only [if_pos hs]
  rw [grown_singleton, hglyph, hdepth]
  rfl

/-- The scanner when a chain has ended, whose tokens read as some entries. -/
def ended (s : Scanner) (es : List Entry) : Scanner :=
  { s with
    buffer := []
    pending := false
    openings := endChains s.openings
    entries := s.entries ++ es }

/-- A token character at depth 0 ends the chain first that is to end. -/
theorem step_inner (hd : s.depth = 0) (h : (Glyph.ofChar 0 c).part = .inner) : s.step c =
    if s.pending then do
      let es ← s.tokens.mapM fun token => Entry.ofToken .field (s.openings, token)
      return (s.ended es).grown [c]
    else .ok (s.grown [c]) := by
  obtain ⟨hmark, hsep⟩ := isInner_outside h
  have hglyph : Glyph.ofChar 0 c = ⟨c, .inner⟩ := congrArg (Glyph.mk c) h
  have hnot : ¬ separates c := by rw [hsep]; exact Bool.false_ne_true
  rw [step, take, if_neg (by omega), hmark]
  simp only [if_neg hnot]
  rw [endChain]
  split
  · rw [flush, read]
    cases s.tokens.mapM fun token => Entry.ofToken .field (s.openings, token) with
    | error f => rfl
    | ok es =>
      refine congrArg Except.ok ?_
      rw [grown_singleton]
      simp [ended, push, hd, hglyph, depthAfter_zero]
  · rw [grown_singleton, hd, hglyph, depthAfter_zero]
    rfl

theorem step_of_not_pending (hp : s.pending = false)
    (h : (Glyph.ofChar s.depth c).part = .inner) : s.step c = .ok (s.grown [c]) := by
  by_cases hd : s.depth = 0
  · rw [step_inner hd (hd ▸ h), hp, if_neg Bool.false_ne_true]
  · exact step_of_depth hd

end Characters

section Runs

variable {s : Scanner} {run : List Char}

/-- Nothing is buffered yet. -/
structure IsFresh (s : Scanner) : Prop where
  buffer : s.buffer = []
  depth : s.depth = 0
  pending : s.pending = false

theorem foldlM_grown : ∀ {cs : List Char} {s : Scanner}, s.pending = false →
    (∀ g ∈ Glyph.ofChars s.depth cs, g.part = .inner ∨ g.part = .gap ∧ s.inChain = false) →
      cs.foldlM step s = .ok (s.grown cs)
  | [], s, _, _ => by rw [grown_nil]; rfl
  | c :: cs, s, hp, h => by
    have hstep : s.step c = .ok (s.grown [c]) := by
      rcases h (Glyph.ofChar s.depth c) (.head _) with hinner | ⟨hgap, hc⟩
      · exact step_of_not_pending hp hinner
      · rw [step_gap hgap, hc, Bool.or_false]
        rfl
    rw [List.foldlM_cons, hstep, ok_bind,
      foldlM_grown (s := s.grown [c]) hp fun g hg => h g (.tail _ hg), grown_cons]

theorem foldlM_isInner (hs : s.IsFresh) (h : ∀ g ∈ Glyph.ofChars 0 run, g.isInner) :
    run.foldlM step s = .ok (s.grown run) :=
  foldlM_grown hs.pending fun g hg => .inl (Glyph.isInner_iff.1 (h g (hs.depth ▸ hg)))

/-- Behind a chain, separators are noted. -/
theorem foldlM_gap : ∀ {cs : List Char} {s : Scanner}, s.depth = 0 → s.inChain → IsGap cs →
    cs.foldlM step s = .ok { s.grown cs with pending := s.pending || !cs.isEmpty }
  | [], s, _, _, _ => by
    rw [grown_nil, List.isEmpty_nil, Bool.not_true, Bool.or_false]
    rfl
  | c :: cs, s, hd, hc, h => by
    have hgap : (Glyph.ofChar s.depth c).part = .gap :=
      Glyph.part_ofChar_eq_gap.2 ⟨hd, h c (.head _)⟩
    have hdepth : depthAfter s.depth c = 0 :=
      Glyph.depthAfter_of_not_isInner (by simp [Glyph.isInner, hgap])
    rw [List.foldlM_cons, step_gap hgap, ok_bind,
      foldlM_gap (s := { s.grown [c] with pending := s.pending || s.inChain }) hdepth hc
        fun d hd => h d (.tail _ hd), hc, ← grown_cons s c cs]
    simp only [Bool.or_true, Bool.true_or, List.isEmpty_cons, Bool.not_false]
    rfl

theorem inner_or_gap {g : Glyph} (h : ∀ m, g.part ≠ .mark m) : g.part = .inner ∨ g.part = .gap := by
  cases hp : g.part with
  | inner => exact .inl rfl
  | gap => exact .inr rfl
  | mark m => exact absurd hp (h m)

/-- What follows some separators starts with a token character. -/
theorem exists_inner_of_dropWhile {cs : List Char} (h : Unmarked 0 cs) :
    cs.dropWhile separates = []
      ∨ ∃ d ds, cs.dropWhile separates = d :: ds ∧ (Glyph.ofChar 0 d).part = .inner := by
  cases hdrop : cs.dropWhile separates with
  | nil => exact .inl rfl
  | cons d ds =>
    have hgap : IsGap (cs.takeWhile separates) := fun c hc => List.mem_takeWhile_imp hc
    have hsep := List.head?_dropWhile_not separates cs
    rw [hdrop] at hsep
    rw [← List.takeWhile_append_dropWhile (p := separates) (l := cs), hdrop, unmarked_append,
      hgap.part_eq.2] at h
    refine .inr ⟨d, ds, rfl, (inner_or_gap (unmarked_cons.1 h.2).1).resolve_right fun hp => ?_⟩
    exact Bool.false_ne_true (hsep.symm.trans (Glyph.part_ofChar_eq_gap.1 hp).2)

/-- A run is a stretch of one token, or the token is followed by separators. -/
theorem exists_gap (h : Unmarked 0 run) : (∀ g ∈ Glyph.ofChars 0 run, g.isInner)
    ∨ ∃ word gap rest, run = word ++ gap ++ rest ∧ (∀ g ∈ Glyph.ofChars 0 word, g.isInner)
      ∧ depthThrough 0 word = 0 ∧ IsGap gap ∧ gap ≠ []
      ∧ (rest = [] ∨ ∃ c cs, rest = c :: cs ∧ (Glyph.ofChar 0 c).part = .inner) := by
  by_cases hall : ∀ g ∈ Glyph.ofChars 0 run, g.isInner
  · exact .inl hall
  · right
    have hne : (Glyph.ofChars 0 run).dropWhile Glyph.isInner ≠ [] :=
      fun hnil => hall (List.dropWhile_eq_nil_iff.1 hnil)
    have hhead := List.head?_dropWhile_not Glyph.isInner (Glyph.ofChars 0 run)
    have hsplit : Glyph.ofChars 0 run = _ ++ _ :=
      (List.takeWhile_append_dropWhile (p := Glyph.isInner)).symm
    obtain ⟨word, bs, rfl, hword, hbs⟩ := ofChars_eq_append hsplit
    obtain ⟨-, hrest⟩ := unmarked_append.1 h
    cases bs with
    | nil => exact absurd hbs hne
    | cons c cs =>
      rw [hbs] at hhead
      have hhead : (Glyph.ofChar (depthThrough 0 word) c).isInner = false := hhead
      have hdepth : depthThrough 0 word = 0 :=
        Glyph.eq_zero_of_not_isInner (Bool.eq_false_iff.1 hhead)
      rw [hdepth] at hhead hrest
      refine ⟨word, (c :: cs).takeWhile separates, (c :: cs).dropWhile separates, ?_, ?_, hdepth,
        fun d hd => List.mem_takeWhile_imp hd, ?_, exists_inner_of_dropWhile hrest⟩
      · rw [List.append_assoc, List.takeWhile_append_dropWhile]
      · rw [← hword]
        exact fun g hg => List.mem_takeWhile_imp hg
      · have hgap := (inner_or_gap (unmarked_cons.1 hrest).1).resolve_left fun hinner =>
          Bool.false_ne_true (hhead.symm.trans (Glyph.isInner_iff.2 hinner))
        rw [List.takeWhile_cons_of_pos (Glyph.part_ofChar_eq_gap.1 hgap).2]
        exact List.cons_ne_nil _ _

theorem endChains_of_inChain (h : s.inChain = false) : endChains s.openings = s.openings := by
  unfold inChain at h
  cases ho : s.openings with
  | nil => rfl
  | cons o outer =>
    rw [ho] at h
    exact List.dropWhile_cons_of_neg (Bool.eq_false_iff.1 h)

theorem situate_of_endChains {openings : List Opening} (h : endChains openings = openings)
    (run : List Char) : situate openings run = (Outline.tokens run).map (openings, ·) := by
  unfold situate
  cases Outline.tokens run with
  | nil => rfl
  | cons t ts =>
    rw [h]
    simp

theorem tokens_of_isInner (h : ∀ g ∈ Glyph.ofChars 0 run, g.isInner) (hne : run ≠ []) :
    Outline.tokens run = [String.ofList run] := by
  have hunmarked : Unmarked 0 run := fun g hg m hm =>
    absurd ((Glyph.isInner_iff.1 (h g hg)).symm.trans hm) nofun
  have hglyphs : Glyph.ofChars 0 run ≠ [] := by
    obtain ⟨c, cs, rfl⟩ := List.exists_cons_of_ne_nil hne
    exact List.cons_ne_nil _ _
  rw [tokens_eq hunmarked, Glyph.tokens_of_forall_isInner h hglyphs, Glyph.text_ofChars]

/-- One token stands inside what is open if nothing is in front of it. -/
theorem situate_word (gap : List Char) (openings : List Opening)
    (hw : ∀ g ∈ Glyph.ofChars 0 run, g.isInner)
    (h : Outline.tokens (run ++ gap) = Outline.tokens run) :
    situate openings (run ++ gap) = (Outline.tokens (run ++ gap)).map (openings, ·) := by
  unfold situate
  rw [h]
  cases run with
  | nil => rfl
  | cons c cs =>
    rw [tokens_of_isInner hw (List.cons_ne_nil c cs),
      startsApart_of_isInner hw (List.cons_ne_nil c cs) gap]
    rfl

/-- What stands apart from the first token stands outside the chains. -/
theorem situate_append {word gap cs : List Char} {c : Char} (openings : List Opening)
    (hw : ∀ g ∈ Glyph.ofChars 0 word, g.isInner) (hword : Clean word) (hg : IsGap gap)
    (hne : gap ≠ []) (h : Unmarked 0 (c :: cs)) :
    situate openings (word ++ gap ++ c :: cs) =
      (Outline.tokens (word ++ gap)).map (openings, ·)
        ++ (Outline.tokens (c :: cs)).map (endChains openings, ·) := by
  have hclean := hword.append hg.clean
  have hsplit : Outline.tokens (word ++ gap ++ c :: cs) =
      Outline.tokens (word ++ gap) ++ Outline.tokens (c :: cs) := by
    have hlast : ∀ g ∈ (Glyph.ofChars 0 (word ++ gap)).getLast?, ¬ g.isInner := by
      rw [Glyph.ofChars_append, hword.closed]
      intro g hmem
      obtain ⟨d, ds, rfl⟩ := List.exists_cons_of_ne_nil hne
      rw [Glyph.ofChars, List.getLast?_append_cons] at hmem
      exact hg.not_isInner g (List.mem_of_getLast? hmem)
    have hunmarked : Unmarked 0 (word ++ gap ++ c :: cs) :=
      unmarked_append.2 ⟨hclean.unmarked, hclean.closed.symm ▸ h⟩
    rw [tokens_eq hunmarked, Glyph.ofChars_append, hclean.closed,
      Glyph.tokens_append_of_getLast hlast, ← tokens_eq hclean.unmarked, ← tokens_eq h]
  unfold situate
  rw [hsplit, tokens_append_gap hword hg]
  cases word with
  | nil =>
    have hapart : startsApart ([] ++ gap ++ c :: cs) = true := by
      obtain ⟨d, ds, rfl⟩ := List.exists_cons_of_ne_nil hne
      exact hg d (.head _)
    rw [hapart]
    cases Outline.tokens (c :: cs) <;> rfl
  | cons d ds =>
    rw [tokens_of_isInner hw (List.cons_ne_nil d ds), List.append_assoc,
      startsApart_of_isInner hw (List.cons_ne_nil d ds) (gap ++ c :: cs)]
    rfl

/-- What a run leaves of a scanner, and the tokens that it has read on the way. -/
structure Leaves (s : Scanner) (run : List Char) (flushed : List (List Opening × String))
    (r : Scanner) : Prop where
  foldlM_eq : run.foldlM step s = do
    let es ← flushed.mapM (Entry.ofToken .field)
    return { r with entries := s.entries ++ es }
  situate_eq : situate s.openings run = flushed ++ r.tokens.map (r.openings, ·)
  endChains_eq : endChains r.openings = endChains s.openings
  openings_eq : r.tokens = [] → flushed = [] ∧ r.openings = s.openings
  offset_eq : r.offset = s.offset + size run
  depth_eq : r.depth = depthThrough 0 run

theorem inChain_ended (s : Scanner) (es : List Entry) : (s.ended es).inChain = false := by
  have h := List.head?_dropWhile_not isChain s.openings
  unfold inChain ended
  cases ho : endChains s.openings with
  | nil => rfl
  | cons o outer =>
    rw [← endChains, ho] at h
    exact h

theorem tokens_grown (hs : s.buffer = []) (run : List Char) :
    (s.grown run).tokens = Outline.tokens run := by
  unfold tokens text grown
  rw [hs, List.nil_append, Glyph.map_char_ofChars]

/-- A run without a token in a chain in front of another stays in the buffer. -/
theorem leaves_grown (pending : Bool) (hs : s.IsFresh)
    (hrun : run.foldlM step s = .ok { s.grown run with pending := pending })
    (h : situate s.openings run = (Outline.tokens run).map (s.openings, ·)) :
    Leaves s run [] { s.grown run with pending := pending } where
  foldlM_eq := by
    rw [hrun, List.mapM_nil, pure_bind, List.append_nil]
    rfl
  situate_eq := by
    have htokens : { s.grown run with pending := pending }.tokens = Outline.tokens run :=
      tokens_grown hs.buffer run
    rw [htokens, h, List.nil_append]
    rfl
  endChains_eq := rfl
  openings_eq _ := ⟨rfl, rfl⟩
  offset_eq := rfl
  depth_eq := congrArg (depthThrough · run) hs.depth

/-- In a chain, a token and the separators behind it. -/
theorem foldlM_word {word gap : List Char} (hs : s.IsFresh) (hc : s.inChain)
    (hw : ∀ g ∈ Glyph.ofChars 0 word, g.isInner) (hd : depthThrough 0 word = 0) (hg : IsGap gap)
    (hne : gap ≠ []) :
    (word ++ gap).foldlM step s = .ok { s.grown (word ++ gap) with pending := true } := by
  have hdepth : (s.grown word).depth = 0 := (congrArg (depthThrough · word) hs.depth).trans hd
  rw [List.foldlM_append, foldlM_isInner hs hw, ok_bind, foldlM_gap hdepth hc hg, grown_append,
    List.isEmpty_eq_false_iff.2 hne, Bool.not_false, Bool.or_true]

/-- A token behind a chain that is to end. -/
theorem foldlM_inner {c : Char} {cs : List Char} (hp : s.pending) (hd : s.depth = 0)
    (h : Unmarked 0 (c :: cs)) (hinner : (Glyph.ofChar 0 c).part = .inner) :
    (c :: cs).foldlM step s = do
      let es ← s.tokens.mapM fun token => Entry.ofToken .field (s.openings, token)
      return (s.ended es).grown (c :: cs) := by
  rw [List.foldlM_cons, step_inner hd hinner, if_pos hp, bind_assoc]
  refine bind_congr fun es => ?_
  have hdepth : (s.ended es).depth = 0 := hd
  have hrest := (unmarked_cons.1 h).2
  rw [pure_bind, foldlM_grown (s := (s.ended es).grown [c]) rfl, grown_cons]
  · rfl
  · intro g hg
    have hg : g ∈ Glyph.ofChars (depthAfter 0 c) cs := by
      rw [← hdepth]
      exact hg
    exact (inner_or_gap (hrest g hg)).imp_right (⟨·, inChain_ended s es⟩)

/-- The token in a chain is taken once another one follows, and the chain ends. -/
theorem leaves_ended {word gap cs : List Char} {c : Char} (hs : s.IsFresh) (hc : s.inChain)
    (hw : ∀ g ∈ Glyph.ofChars 0 word, g.isInner) (hword : Clean word) (hg : IsGap gap)
    (hne : gap ≠ []) (h : Unmarked 0 (c :: cs)) (hinner : (Glyph.ofChar 0 c).part = .inner) :
    Leaves s (word ++ gap ++ c :: cs) ((Outline.tokens (word ++ gap)).map (s.openings, ·))
      (((s.grown (word ++ gap)).ended []).grown (c :: cs)) := by
  have hclosed := (hword.append hg.clean).closed
  have hdepth : (s.grown (word ++ gap)).depth = 0 :=
    (congrArg (depthThrough · _) hs.depth).trans hclosed
  have htokens := tokens_grown hs.buffer (word ++ gap)
  have hlater : (((s.grown (word ++ gap)).ended []).grown (c :: cs)).tokens =
      Outline.tokens (c :: cs) := tokens_grown rfl (c :: cs)
  refine ⟨?_, ?_, endChains_endChains s.openings, fun hnil => ?_, ?_, ?_⟩
  · rw [List.foldlM_append, foldlM_word hs hc hw hword.closed hg hne, ok_bind, List.mapM_map,
      ← htokens]
    exact foldlM_inner rfl hdepth h hinner
  · rw [situate_append s.openings hw hword hg hne h, hlater]
    rfl
  · rw [hlater, tokens_eq h, Glyph.tokens_eq_nil] at hnil
    exact absurd (Glyph.isInner_iff.2 hinner) (hnil _ (.head _))
  · rw [size_append, ← Nat.add_assoc]
    rfl
  · rw [depthThrough_append, hclosed]
    exact congrArg (depthThrough · (c :: cs)) hdepth

/-- The tokens of a run are in the buffer behind it. Where the first of them is in a chain and
others follow, it has been taken. -/
theorem exists_leaves (hs : s.IsFresh) (h : Unmarked 0 run) :
    ∃ flushed r, Leaves s run flushed r := by
  cases hc : s.inChain with
  | false =>
    have hrun : run.foldlM step s = .ok (s.grown run) := foldlM_grown hs.pending fun g hg =>
      (inner_or_gap (h g (hs.depth ▸ hg))).imp_right (⟨·, hc⟩)
    exact ⟨[], _, leaves_grown s.pending hs hrun
      (situate_of_endChains (endChains_of_inChain hc) run)⟩
  | true =>
    rcases exists_gap h with hall | ⟨word, gap, rest, rfl, hw, hd, hg, hne, hrest⟩
    · have hsituate := situate_word [] s.openings hall (by rw [List.append_nil])
      rw [List.append_nil] at hsituate
      exact ⟨[], _, leaves_grown s.pending hs (foldlM_isInner hs hall) hsituate⟩
    · obtain ⟨hu, hrestUnmarked⟩ := unmarked_append.1 h
      have hword : Clean word := ⟨(unmarked_append.1 hu).1, hd⟩
      rcases hrest with rfl | ⟨c, cs, rfl, hinner⟩
      · rw [List.append_nil]
        exact ⟨[], _, leaves_grown true hs (foldlM_word hs hc hw hd hg hne)
          (situate_word gap s.openings hw (tokens_append_gap hword hg))⟩
      · rw [(hword.append hg.clean).closed] at hrestUnmarked
        exact ⟨_, _, leaves_ended hs hc hw hword hg hne hrestUnmarked hinner⟩

end Runs

section Marks

variable {s : Scanner} {run : List Char}

theorem closes_eq (s : Scanner) : s.closes = do
    let es ← s.tokens.mapM fun token => Entry.ofToken .field (s.openings, token)
    match endChains s.openings with
    | [] => throw (.malformed s.offset .unexpectedClose)
    | _ :: outer => return ⟨[], s.depth, false, endChains outer, s.offset, s.entries ++ es⟩ := by
  rw [closes, flush, read]
  cases s.tokens.mapM fun token => Entry.ofToken .field (s.openings, token) with
  | error f => rfl
  | ok es => cases hend : endChains s.openings <;> simp [hend, pure, Except.pure]

theorem opens_of_nil (h : s.tokens = []) (kind : OpeningKind) : s.opens kind =
    match kind with
    | .chain => .error (.malformed s.offset .missingName)
    | .group => .ok (s.enter none .group) := by
  rw [opens, read, h]
  cases kind with
  | chain => rfl
  | group => simp [enter, pure, Except.pure]

theorem opens_of_append {ts : List String} {t : String} (h : s.tokens = ts ++ [t])
    (kind : OpeningKind) : s.opens kind = do
      let fields ← ts.mapM fun token => Entry.ofToken .field (s.openings, token)
      let descent ← Entry.ofToken .descend (s.openings, t)
      return ⟨[], s.depth, false, ⟨some t, kind, s.offset⟩ :: s.openings, s.offset,
        s.entries ++ (fields ++ [descent])⟩ := by
  rw [opens, read, h, List.dropLast_concat, List.getLast?_concat]
  cases ts.mapM fun token => Entry.ofToken .field (s.openings, token) with
  | error f => rfl
  | ok fields => simp [read, enter]

variable {flushed : List (List Opening × String)} {r : Scanner}

theorem Leaves.closes_eq (h : Leaves s run flushed r) :
    (do
      let es ← flushed.mapM (Entry.ofToken .field)
      closes { r with entries := s.entries ++ es }) = do
      let es ← (mentions s.openings run .closeGroup).mapM Mention.read
      let inside ← after s.openings run r.offset .closeGroup
      return ⟨[], r.depth, false, inside, r.offset, s.entries ++ es⟩ := by
  rw [mentions, held, ← mapM_ofToken_field, h.situate_eq, List.mapM_append, List.mapM_map, after,
    ← h.endChains_eq]
  simp only [Scanner.closes_eq, bind_assoc, pure_bind]
  refine bind_congr fun es => bind_congr fun es' => ?_
  cases endChains r.openings with
  | nil => rfl
  | cons o outer =>
    simp only [List.append_assoc]
    rfl

theorem Leaves.opens_eq (h : Leaves s run flushed r) (kind : OpeningKind) :
    (do
      let es ← flushed.mapM (Entry.ofToken .field)
      opens { r with entries := s.entries ++ es } kind) = do
      let es ← (mentions s.openings run kind.mark).mapM Mention.read
      let inside ← after s.openings run r.offset kind.mark
      return ⟨[], r.depth, false, inside, r.offset, s.entries ++ es⟩ := by
  have hlead : mentions s.openings run kind.mark = Mention.lead (held s.openings run) := by
    cases kind <;> rfl
  have hsituate := h.situate_eq
  rw [hlead, mapM_lead_held]
  rcases List.eq_nil_or_concat r.tokens with hnil | ⟨ts, t, htokens⟩
  · obtain ⟨rfl, hopenings⟩ := h.openings_eq hnil
    rw [hnil, List.map_nil, List.append_nil] at hsituate
    have hopens := fun es => opens_of_nil (s := { r with entries := es }) hnil kind
    simp only [hsituate, hopens]
    cases kind <;> simp [OpeningKind.mark, after, hsituate, enter, hopenings]
  · rw [List.concat_eq_append] at htokens
    have hopens := fun es => opens_of_append (s := { r with entries := es }) htokens kind
    rw [htokens, List.map_append, List.map_singleton, ← List.append_assoc] at hsituate
    have hinit : (situate s.openings run).dropLast = flushed ++ ts.map (r.openings, ·) := by
      rw [hsituate, List.dropLast_concat]
    have hlast : (situate s.openings run).getLast? = some (r.openings, t) := by
      rw [hsituate, List.getLast?_concat]
    have hafter : after s.openings run r.offset kind.mark =
        .ok (⟨some t, kind, r.offset⟩ :: r.openings) := by
      cases kind <;> simp [OpeningKind.mark, after, hlast]
    rw [hinit, hlast, hafter, Option.toList_some, List.mapM_append, List.mapM_map]
    simp only [hopens, bind_assoc, pure_bind, ok_bind, List.mapM_cons, List.mapM_nil,
      List.append_assoc]
    rfl

/-- A run and its mark are scanned as they are read. -/
theorem foldlM_marked {c : Char} {m : Mark} (hs : s.IsFresh) (hr : Clean run)
    (hm : Mark.ofChar? c = some m) : (run ++ [c]).foldlM step s = do
      let es ← (mentions s.openings run m).mapM Mention.read
      let inside ← after s.openings run (s.offset + size run) m
      return ⟨[], 0, false, inside, s.offset + size run + c.utf8Size, s.entries ++ es⟩ := by
  obtain ⟨flushed, r, h⟩ := exists_leaves hs hr.unmarked
  have hdepth : r.depth = 0 := h.depth_eq.trans hr.closed
  have hpass : (do
      let es ← flushed.mapM (Entry.ofToken .field)
      pass { r with entries := s.entries ++ es } m) = do
      let es ← (mentions s.openings run m).mapM Mention.read
      let inside ← after s.openings run r.offset m
      return ⟨[], r.depth, false, inside, r.offset, s.entries ++ es⟩ := by
    cases m with
    | closeGroup => exact h.closes_eq
    | openGroup => exact h.opens_eq .group
    | dot => exact h.opens_eq .chain
  have hstep : ∀ es, step { r with entries := es } c = do
    let next ← pass { r with entries := es } m
    return { next with offset := r.offset + c.utf8Size } := by
    intro es
    rw [step, take, if_neg (by simp [hdepth]), hm]
  rw [List.foldlM_append, h.foldlM_eq, bind_assoc]
  simp only [pure_bind, List.foldlM_cons, List.foldlM_nil, bind_pure, hstep]
  rw [← bind_assoc, hpass]
  simp [h.offset_eq, hdepth]

end Marks

section Text

variable {s r : Scanner} {run : List Char} {flushed : List (List Opening × String)}

theorem filter_endChains (openings : List Opening) :
    (endChains openings).filter (fun o => !o.isChain) = openings.filter fun o => !o.isChain := by
  induction openings with
  | nil => rfl
  | cons o outer ih =>
    cases ho : o.isChain with
    | true => simpa [endChains, ho] using ih
    | false => simp [endChains, ho]

theorem finish_eq (s : Scanner) : s.finish = do
    let fields ← s.tokens.mapM fun token => Entry.ofToken .field (s.openings, token)
    mayEnd s.openings s.tokens
    return s.entries ++ fields := by
  rw [finish, flush, read]
  cases s.tokens.mapM fun token => Entry.ofToken .field (s.openings, token) <;> rfl

theorem Leaves.mayEnd_eq (h : Leaves s run flushed r) :
    mayEnd r.openings r.tokens = Opening.finish s.openings run := by
  unfold mayEnd Opening.finish
  rw [← filter_endChains r.openings, h.endChains_eq, filter_endChains, h.situate_eq]
  cases (s.openings.filter fun o => !o.isChain).getLast? with
  | some outermost => rfl
  | none =>
    cases htokens : r.tokens with
    | nil =>
      obtain ⟨rfl, hopenings⟩ := h.openings_eq htokens
      rw [hopenings]
      cases s.openings <;> rfl
    | cons t ts => cases flushed <;> cases s.openings <;> cases r.openings <;> rfl

/-- The last run is scanned as it is read, whether or not the text may end there. -/
theorem foldlM_last (hs : s.IsFresh) (hr : Unmarked 0 run) :
    (run.foldlM step s >>= finish) = do
      let es ← (held s.openings run).mapM Mention.read
      Opening.finish s.openings run
      return s.entries ++ es := by
  obtain ⟨flushed, r, h⟩ := exists_leaves hs hr
  have hfinish := fun es => finish_eq { r with entries := es }
  rw [h.foldlM_eq, held, ← mapM_ofToken_field, h.situate_eq, List.mapM_append, List.mapM_map,
    ← h.mayEnd_eq]
  simp only [hfinish, bind_assoc, pure_bind, List.append_assoc]
  rfl

/-- With nothing buffered, a text is scanned as it is read run by run. -/
theorem foldlM_finish (cs : List Char) : ∀ {s : Scanner}, s.IsFresh →
    (cs.foldlM step s >>= finish) = do
      let es ← (Outline.scan 0 s.offset cs).entries s.openings
      return s.entries ++ es := by
  induction cs using runs_induction with
  | last run hr =>
    intro s hs
    rw [scan_of_unmarked hr, entries_last, foldlM_last hs hr]
    simp
  | marked run c m rest hr hm ih =>
    intro s hs
    have hcs : run ++ c :: rest = run ++ [c] ++ rest := by simp
    rw [scan_marked hr hm, entries_marked, hcs, List.foldlM_append, foldlM_marked hs hr hm]
    simp only [bind_assoc, pure_bind]
    refine bind_congr fun es => bind_congr fun inside => ?_
    rw [ih ⟨rfl, rfl, rfl⟩]
    simp

theorem isFresh_start : start.IsFresh := ⟨rfl, rfl, rfl⟩

/-- One pass reads what reading run by run does. -/
theorem parse_eq (text : String) :
    parse text = Outline.entries [] (Outline.ofChars text.toList) := by
  have h := foldlM_finish text.toList isFresh_start
  simp only [start, List.nil_append, bind_pure] at h
  exact h

end Text

end Scanner

end JsonSelect
