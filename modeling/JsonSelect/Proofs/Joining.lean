import JsonSelect.Proofs.Grammar

/-!
# One text behind another

A space ends the chains of the text in front of it. So a text that leaves no bracket open and
another one, with a space between them, write the entries of the one and then those of the other
(`Outline.entries_join`). Only a brace at the start of the second text would open a group of the
last token in front of it.

The second text is read behind the first one, so its marks come at later offsets; only faults tell
the difference (`Outline.entries_later`).
-/

namespace JsonSelect

open Outline
open Item (Settled finish_eq_ok)

namespace Opening

/-- What the same mark opens `n` bytes later. -/
def later (n : Nat) (o : Opening) : Opening := { o with offset := o.offset + n }

variable (n : Nat) (openings : List Opening) (run : List Char)

theorem endChains_later :
    endChains (openings.map (later n)) = (endChains openings).map (later n) :=
  List.dropWhile_map

theorem place_later : place (openings.map (later n)) = place openings := by
  unfold place
  rw [List.filterMap_map]
  rfl

theorem situate_later : situate (openings.map (later n)) run =
    (situate openings run).map fun (around, token) => (around.map (later n), token) := by
  unfold situate
  cases tokens run with
  | nil => rfl
  | cons t ts => cases startsApart run <;> simp [endChains_later]

theorem held_later : held (openings.map (later n)) run = held openings run := by
  simp [held, situate_later, place_later]

theorem mentions_later (m : Mark) :
    mentions (openings.map (later n)) run m = mentions openings run m := by
  cases m <;> simp [mentions, held_later]

theorem after_later {openings inside : List Opening} {run : List Char} {offset : Nat} {m : Mark}
    (h : after openings run offset m = .ok inside) :
    after (openings.map (later n)) run (offset + n) m = .ok (inside.map (later n)) := by
  have hlast : ∀ around t, (situate openings run).getLast? = some (around, t) →
      (situate (openings.map (later n)) run).getLast? = some (around.map (later n), t) := by
    intro around t hs
    rw [situate_later, List.getLast?_map, hs]
    rfl
  refine after_eq_ok.2 ?_
  cases after_eq_ok.1 h with
  | @close o outer he =>
    rw [← endChains_later]
    exact .close (o := o.later n) (by rw [endChains_later, he]; rfl)
  | bare hs => exact .bare (by rw [situate_later, hs]; rfl)
  | group hs => exact .group (hlast _ _ hs)
  | chain hs => exact .chain (hlast _ _ hs)

theorem finish_later {openings : List Opening} {run : List Char}
    (h : finish openings run = .ok ()) : finish (openings.map (later n)) run = .ok () := by
  obtain ⟨hend, hs⟩ := finish_eq_ok.1 h
  refine finish_eq_ok.2 ⟨by rw [endChains_later, hend, List.map_nil], fun o' ho' hc => ?_⟩
  rw [List.head?_map] at ho'
  obtain ⟨o, ho, rfl⟩ := Option.map_eq_some_iff.1 ho'
  exact hs o ho hc

end Opening

namespace Outline

open Opening

/-- What a text writes does not depend on where it starts. -/
theorem entries_later (n : Nat) (cs : List Char) : ∀ {offset : Nat} {openings : List Opening}
    {es : List Entry}, (scan 0 offset cs).entries openings = .ok es →
      (scan 0 (offset + n) cs).entries (openings.map (later n)) = .ok es := by
  induction cs using runs_induction with
  | last run hr =>
    intro offset openings es h
    rw [scan_of_unmarked hr, entries_last_eq_ok] at h ⊢
    rw [held_later]
    exact h.imp_right (finish_later n)
  | marked run c m rest hr hm ih =>
    intro offset openings es h
    have hoffset : offset + n + size run = offset + size run + n := by omega
    have hnext : offset + size run + n + c.utf8Size = offset + size run + c.utf8Size + n := by omega
    rw [scan_marked hr hm, entries_marked_eq_ok] at h ⊢
    obtain ⟨read, inside, others, hread, hafter, hothers, rfl⟩ := h
    rw [mentions_later, hoffset, hnext]
    exact ⟨read, _, others, hread, after_later n hafter, ih hothers, rfl⟩

end Outline

section Runs

open Opening

variable {openings : List Opening} {run rest : List Char}

namespace Outline

theorem Clean.unmarked_space (hr : Clean run) (hrest : Unmarked 0 rest) :
    Unmarked 0 (run ++ ' ' :: rest) := by
  refine unmarked_append.2 ⟨hr.unmarked, ?_⟩
  rw [hr.closed]
  exact unmarked_cons.2 ⟨by simp [show (Glyph.ofChar 0 ' ').part = .gap from rfl], hrest⟩

theorem Clean.space (hr : Clean run) (hrest : Clean rest) : Clean (run ++ ' ' :: rest) where
  unmarked := hr.unmarked_space hrest.unmarked
  closed := by
    rw [depthThrough_append, hr.closed]
    exact hrest.closed

theorem Clean.tokens_space (hr : Clean run) (hrest : Unmarked 0 rest) :
    tokens (run ++ ' ' :: rest) = tokens run ++ tokens rest := by
  have hglyphs : Glyph.ofChars 0 (run ++ ' ' :: rest) =
      Glyph.ofChars 0 run ++ Glyph.ofChar 0 ' ' :: Glyph.ofChars 0 rest := by
    rw [Glyph.ofChars_append, hr.closed]
    rfl
  rw [tokens_eq (hr.unmarked_space hrest), hglyphs, Glyph.tokens_append_cons _ _ (by decide),
    tokens_eq hr.unmarked, tokens_eq hrest]

end Outline

namespace Opening

theorem situate_nil (run : List Char) : situate [] run = (tokens run).map ([], ·) := by
  unfold situate
  cases tokens run with
  | nil => rfl
  | cons t ts => cases startsApart run <;> rfl

/-- Where a text may end, a space ends all that is open. -/
theorem situate_space (hend : endChains openings = []) (hs : Settled openings run)
    (hr : Clean run) (hrest : Unmarked 0 rest) :
    situate openings (run ++ ' ' :: rest) = situate openings run ++ situate [] rest := by
  rw [situate_nil]
  unfold situate
  rw [hr.tokens_space hrest, hend]
  cases ht : tokens run with
  | cons t ts =>
    have hstart : startsApart (run ++ ' ' :: rest) = startsApart run := by
      cases run with
      | nil => simp [tokens_nil] at ht
      | cons c cs => rfl
    simp [hstart]
  | nil =>
    have hnil : openings = [] := by
      cases openings with
      | nil => rfl
      | cons o os =>
        have hc : o.isChain := by
          have : ∀ o' ∈ o :: os, o'.isChain := by simpa [endChains] using hend
          exact this o (.head _)
        exact absurd ht (hs o rfl hc)
    subst hnil
    cases tokens rest with
    | nil => rfl
    | cons t ts => cases startsApart (run ++ ' ' :: rest) <;> rfl

theorem held_space (hend : endChains openings = []) (hs : Settled openings run)
    (hr : Clean run) (hrest : Unmarked 0 rest) :
    held openings (run ++ ' ' :: rest) = held openings run ++ held [] rest := by
  rw [held, situate_space hend hs hr hrest, List.map_append]
  rfl

/-- A mark that can stand at the root behind a run, a bare brace apart, stands behind a token. -/
theorem tokens_ne_nil_of_after {inside : List Opening} {offset : Nat} {m : Mark}
    (h : after [] run offset m = .ok inside) (hopen : m = .openGroup → tokens run ≠ []) :
    m ≠ .closeGroup ∧ tokens run ≠ [] := by
  cases after_eq_ok.1 h with
  | close he => simp [endChains] at he
  | bare _ => exact ⟨by simp, hopen rfl⟩
  | group _ => exact ⟨by simp, hopen rfl⟩
  | chain hs =>
    refine ⟨by simp, fun hnil => ?_⟩
    simp [situate_eq_nil.2 hnil] at hs

end Opening

theorem Mention.lead_append {Place : Type} {ms' : List (Mention Place)} (h : ms' ≠ [])
    (ms : List (Mention Place)) : lead (ms ++ ms') = ms ++ lead ms' := by
  obtain ⟨ms', m, rfl⟩ := (List.eq_nil_or_concat ms').resolve_left h
  rw [List.concat_eq_append, ← List.append_assoc, lead_append_singleton, lead_append_singleton,
    List.append_assoc]

namespace Opening

/-- A run behind a space is read as if it started the text, and so is the mark that ends it. -/
theorem mentions_space {m : Mark} (hend : endChains openings = []) (hs : Settled openings run)
    (hr : Clean run) (hrest : Unmarked 0 rest) (hm : m ≠ .closeGroup) (hne : tokens rest ≠ []) :
    mentions openings (run ++ ' ' :: rest) m = held openings run ++ mentions [] rest m := by
  have hheld : held [] rest ≠ [] := by
    intro hnil
    have := tokens_held [] rest
    rw [hnil] at this
    exact hne this.symm
  cases m with
  | closeGroup => exact absurd rfl hm
  | openGroup | dot =>
    exact (congrArg Mention.lead (held_space hend hs hr hrest)).trans (Mention.lead_append hheld _)

theorem after_space {inside : List Opening} {offset : Nat} {m : Mark}
    (hend : endChains openings = []) (hs : Settled openings run) (hr : Clean run)
    (hrest : Unmarked 0 rest) (hne : tokens rest ≠ []) (h : after [] rest offset m = .ok inside) :
    after openings (run ++ ' ' :: rest) offset m = .ok inside := by
  have hlast : (situate openings (run ++ ' ' :: rest)).getLast? =
      (situate [] rest).getLast? := by
    rw [situate_space hend hs hr hrest, List.getLast?_append_of_ne_nil]
    exact fun hnil => hne (situate_eq_nil.1 hnil)
  refine after_eq_ok.2 ?_
  cases after_eq_ok.1 h with
  | close he => simp [endChains] at he
  | bare hnil => exact absurd (situate_eq_nil.1 hnil) hne
  | group ht => exact .group (hlast.trans ht)
  | chain ht => exact .chain (hlast.trans ht)

theorem settled_space (hs : Settled openings run) (hr : Clean run) (hrest : Unmarked 0 rest) :
    Settled openings (run ++ ' ' :: rest) := by
  intro o ho hc
  rw [hr.tokens_space hrest]
  exact List.append_ne_nil_of_left_ne_nil (hs o ho hc) _

end Opening

end Runs

namespace Outline

open Opening

theorem depthThrough_marked {run rest : List Char} {c : Char} {m : Mark} (hr : Clean run)
    (hm : Mark.ofChar? c = some m) :
    depthThrough 0 (run ++ c :: rest) = depthThrough 0 rest := by
  have hc : ¬ (Glyph.ofChar 0 c).isInner := by
    rw [Glyph.isInner_iff, Glyph.part_ofChar_eq_mark.2 ⟨rfl, hm⟩]
    simp
  rw [depthThrough_append, hr.closed]
  exact congrArg (depthThrough · rest) (Glyph.depthAfter_of_not_isInner hc)

/-- A run without tokens is a gap. -/
theorem isGap_of_unmarked : ∀ {run : List Char}, Unmarked 0 run →
    (∀ g ∈ Glyph.ofChars 0 run, ¬ g.isInner) → IsGap run
  | [], _, _ => by simp [IsGap]
  | c :: cs, hu, h => by
    obtain ⟨hc, hcs⟩ := unmarked_cons.1 hu
    have hinner := h (Glyph.ofChar 0 c) (.head _)
    have hgap : (Glyph.ofChar 0 c).part = .gap := by
      cases hp : (Glyph.ofChar 0 c).part with
      | gap => rfl
      | inner => exact absurd (Glyph.isInner_iff.2 hp) hinner
      | mark m => exact absurd hp (hc m)
    have hd := Glyph.depthAfter_of_not_isInner hinner
    rw [hd] at hcs
    refine List.forall_mem_cons.2 ⟨(Glyph.part_ofChar_eq_gap.1 hgap).2,
      isGap_of_unmarked hcs fun g hg => h g ?_⟩
    unfold Glyph.ofChars
    rw [hd]
    exact .tail _ hg

/-- In a text that starts with no brace, a brace stands behind a token or another mark. -/
theorem Clean.tokens_ne_nil {run rest : List Char} {c : Char} (hr : Clean run)
    (hm : Mark.ofChar? c = some .openGroup)
    (hhead : ∀ d ∈ ((run ++ c :: rest).dropWhile separates).head?, d ≠ '\x7b') :
    tokens run ≠ [] := by
  intro hnil
  rw [tokens_eq hr.unmarked, Glyph.tokens_eq_nil] at hnil
  have hgap : IsGap run := isGap_of_unmarked hr.unmarked hnil
  have hc : c = '\x7b' := by
    by_contra hne
    simp only [Mark.ofChar?, hne, if_false] at hm
    split_ifs at hm <;> simp at hm
  subst hc
  rw [List.dropWhile_append_of_pos hgap] at hhead
  exact hhead '\x7b' rfl rfl

section Join

variable {cs' : List Char} {es' : List Entry}

/-- A text that does not start with a brace, behind a space and a run that may end a text. -/
theorem entries_space {openings : List Opening} {run : List Char} {es : List Entry}
    (h' : (ofChars cs').entries [] = .ok es')
    (hhead : ∀ c ∈ (cs'.dropWhile separates).head?, c ≠ '\x7b') (hr : Clean run)
    (hread : (held openings run).mapM Mention.read = .ok es) (hend : endChains openings = [])
    (hs : Settled openings run) (offset : Nat) :
    (scan 0 offset (run ++ ' ' :: cs')).entries openings = .ok (es ++ es') := by
  unfold ofChars at h'
  rcases exists_mark 0 cs' with hu' | ⟨run', c, m, rest, rfl, hu', hd', hm⟩
  · rw [scan_of_unmarked hu', entries_last_eq_ok] at h'
    rw [scan_of_unmarked (hr.unmarked_space hu'), entries_last_eq_ok, held_space hend hs hr hu',
      List.mapM_append, hread, ok_bind, h'.1]
    exact ⟨rfl, finish_eq_ok.2 ⟨hend, settled_space hs hr hu'⟩⟩
  · have hr' : Clean run' := ⟨hu', hd'⟩
    rw [scan_marked hr' hm, entries_marked_eq_ok] at h'
    obtain ⟨first, inside, others, hfirst, hafter, hothers, rfl⟩ := h'
    obtain ⟨hclose, hne⟩ := tokens_ne_nil_of_after hafter fun hopen =>
      hr'.tokens_ne_nil (hopen ▸ hm) hhead
    -- the marks of the second text come behind the run and the space
    let n := offset + size run + ' '.utf8Size
    have hmark : offset + size (run ++ ' ' :: run') = 0 + size run' + n := by
      rw [size_append, size]
      omega
    have hnext : 0 + size run' + n + c.utf8Size = 0 + size run' + c.utf8Size + n := by omega
    have hcut : run ++ ' ' :: (run' ++ c :: rest) = (run ++ ' ' :: run') ++ c :: rest := by simp
    rw [hcut, scan_marked (hr.space hr') hm, entries_marked_eq_ok,
      mentions_space hend hs hr hu' hclose hne, List.mapM_append, hread, ok_bind, hfirst, hmark,
      hnext]
    exact ⟨es ++ first, _, others, rfl, after_space hend hs hr hu' hne (after_later n hafter),
      entries_later n rest hothers, List.append_assoc es first others⟩

/-- Behind a text that closes its brackets and a space, a text that does not start with a brace
writes what it writes alone. -/
theorem entries_join (h' : (ofChars cs').entries [] = .ok es')
    (hhead : ∀ c ∈ (cs'.dropWhile separates).head?, c ≠ '\x7b') (cs : List Char) :
    ∀ {offset : Nat} {openings : List Opening} {es : List Entry}, depthThrough 0 cs = 0 →
      (scan 0 offset cs).entries openings = .ok es →
        (scan 0 offset (cs ++ ' ' :: cs')).entries openings = .ok (es ++ es') := by
  induction cs using runs_induction with
  | last run hu =>
    intro offset openings es hd h
    rw [scan_of_unmarked hu, entries_last_eq_ok] at h
    obtain ⟨hend, hs⟩ := finish_eq_ok.1 h.2
    exact entries_space h' hhead ⟨hu, hd⟩ h.1 hend hs offset
  | marked run c m rest hr hm ih =>
    intro offset openings es hd h
    rw [depthThrough_marked hr hm] at hd
    rw [scan_marked hr hm, entries_marked_eq_ok] at h
    rw [List.append_assoc, List.cons_append, scan_marked hr hm, entries_marked_eq_ok]
    obtain ⟨read, inside, others, hread, hafter, hothers, rfl⟩ := h
    exact ⟨read, inside, others ++ es', hread, hafter, ih hd hothers,
      (List.append_assoc read others es').symm⟩

end Join

end Outline

end JsonSelect
