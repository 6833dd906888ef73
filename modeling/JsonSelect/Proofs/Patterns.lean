import JsonSelect.Text.Pattern
import Mathlib.Data.List.Basic

/-!
# Matches of patterns

Each kind of piece has its equation, which says what a match that begins with it is made of. The
ways that the greedy engine tries at a place are the matches there (`Text.Pattern.mem_ways`), so
this engine is lawful (`Text.Engine.greedy_lawful`).
-/

namespace JsonSelect.Text

namespace Groups

@[simp] theorem get_cons_self (groups : Groups) (name value : String) :
    get ((name, value) :: groups) name = value := by
  rw [get, List.lookup_cons_self]
  rfl

@[simp] theorem get_cons_of_ne (groups : Groups) {name other : String} (h : name ≠ other)
    (value : String) :
    get ((other, value) :: groups) name = groups.get name := by
  rw [get, List.lookup_cons, beq_false_of_ne h]
  rfl

end Groups

namespace Pattern

section Pieces

variable {flag : Bool} {rest : Pattern} {before matched behind : List Char} {groups : Groups}

theorem matches_done_iff :
    Matches flag done before matched behind groups ↔ matched = [] ∧ groups = [] := by
  constructor
  · intro h
    cases h
    exact ⟨rfl, rfl⟩
  · rintro ⟨rfl, rfl⟩
    exact .done

theorem matches_atStart_iff : Matches flag (atStart rest) before matched behind groups ↔
    before = [] ∧ Matches flag rest before matched behind groups := by
  constructor
  · intro h
    cases h with
    | atStart h => exact ⟨rfl, h⟩
  · rintro ⟨rfl, h⟩
    exact .atStart h

theorem matches_atEnd_iff : Matches flag (atEnd rest) before matched behind groups ↔
    matched = [] ∧ behind = [] ∧ Matches flag rest before matched behind groups := by
  constructor
  · intro h
    cases h with
    | atEnd h => exact ⟨rfl, rfl, h⟩
  · rintro ⟨rfl, rfl, h⟩
    exact .atEnd h

theorem matches_dotAll_iff : Matches flag (dotAll rest) before matched behind groups ↔
    Matches true rest before matched behind groups := by
  constructor
  · intro h
    cases h with
    | dotAll h => exact h
  · exact .dotAll

theorem matches_chars_iff {kind : CharClass} {quantifier : Quantifier} :
    Matches flag (chars kind quantifier rest) before matched behind groups ↔
      ∃ taken matched', matched = taken ++ matched' ∧ quantifier.allows taken.length
        ∧ (∀ c ∈ taken, kind.accepts flag c)
        ∧ Matches flag rest (before ++ taken) matched' behind groups := by
  constructor
  · intro h
    cases h with
    | chars hcount htaken h => exact ⟨_, _, rfl, hcount, htaken, h⟩
  · rintro ⟨taken, matched', rfl, hcount, htaken, h⟩
    exact .chars hcount htaken h

theorem matches_group_iff {name : String} {inner : Pattern} :
    Matches flag (group name inner rest) before matched behind groups ↔
      ∃ taken matched' held groups', matched = taken ++ matched'
        ∧ groups = (name, String.ofList taken) :: (held ++ groups')
        ∧ Matches flag inner before taken (matched' ++ behind) held
        ∧ Matches flag rest (before ++ taken) matched' behind groups' := by
  constructor
  · intro h
    cases h with
    | group hinner h => exact ⟨_, _, _, _, rfl, rfl, hinner, h⟩
  · rintro ⟨taken, matched', held, groups', rfl, rfl, hinner, h⟩
    exact .group hinner h

/-- A piece for one character that stands for itself. -/
theorem matches_literal_iff {c : Char} :
    Matches flag (chars (.literal c) .once rest) before matched behind groups ↔
      ∃ matched', matched = c :: matched'
        ∧ Matches flag rest (before ++ [c]) matched' behind groups := by
  rw [matches_chars_iff]
  constructor
  · rintro ⟨taken, matched', rfl, hcount, htaken, h⟩
    obtain ⟨d, rfl⟩ := List.length_eq_one_iff.1 (beq_iff_eq.1 hcount)
    obtain rfl : d = c := beq_iff_eq.1 (htaken d (.head _))
    exact ⟨matched', rfl, h⟩
  · rintro ⟨matched', rfl, h⟩
    refine ⟨[c], matched', rfl, rfl, fun d hd => ?_, h⟩
    exact beq_iff_eq.2 (List.mem_singleton.1 hd)

end Pieces

end Pattern

theorem mem_splits {cs before ahead : List Char} :
    (before, ahead) ∈ splits cs ↔ cs = before ++ ahead := by
  unfold splits
  rw [List.mem_map]
  constructor
  · rintro ⟨n, -, h⟩
    obtain ⟨rfl, rfl⟩ := Prod.mk.inj h
    exact (List.take_append_drop n cs).symm
  · rintro rfl
    refine ⟨before.length, List.mem_range.2 ?_, ?_⟩
    · rw [List.length_append]
      omega
    · rw [List.take_left, List.drop_left]

namespace Pattern

theorem Matches.mem_ways {flag : Bool} {p : Pattern} {before matched behind : List Char}
    {groups : Groups} (h : Matches flag p before matched behind groups) :
    ⟨matched, behind, groups⟩ ∈ p.ways flag before (matched ++ behind) := by
  induction h with
  | done => exact List.mem_singleton.2 rfl
  | atStart _ ih => exact ih
  | atEnd _ ih => exact ih
  | dotAll _ ih => exact ih
  | @chars flag kind quantifier rest before taken matched behind groups hcount htaken _ ih =>
    refine List.mem_flatMap.2 ⟨(taken, matched ++ behind), List.mem_filter.2 ⟨?_, ?_⟩,
      List.mem_map.2 ⟨_, ih, rfl⟩⟩
    · rw [List.mem_reverse, List.append_assoc]
      exact mem_splits.2 rfl
    · exact Bool.and_eq_true_iff.2 ⟨hcount, List.all_eq_true.2 htaken⟩
  | @group flag name inner rest before taken matched behind held groups _ _ ihinner ih =>
    rw [List.append_assoc]
    exact List.mem_flatMap.2 ⟨_, ihinner, List.mem_map.2 ⟨_, ih, rfl⟩⟩

theorem matches_of_mem_ways : ∀ {p : Pattern} {flag : Bool} {before ahead : List Char} {w : Way},
    w ∈ p.ways flag before ahead →
      ahead = w.matched ++ w.behind ∧ Matches flag p before w.matched w.behind w.groups
  | done, _, _, _, _, h => by
    obtain rfl := List.mem_singleton.1 h
    exact ⟨rfl, .done⟩
  | atStart rest, _, before, _, _, h => by
    unfold ways at h
    split at h
    · next hempty =>
      obtain ⟨hahead, h⟩ := matches_of_mem_ways h
      exact ⟨hahead, matches_atStart_iff.2 ⟨List.isEmpty_iff.1 hempty, h⟩⟩
    · exact absurd h List.not_mem_nil
  | atEnd rest, _, _, ahead, _, h => by
    unfold ways at h
    split at h
    · next hempty =>
      obtain ⟨hahead, h⟩ := matches_of_mem_ways h
      rw [List.isEmpty_iff.1 hempty] at hahead
      obtain ⟨hmatched, hbehind⟩ := List.append_eq_nil_iff.1 hahead.symm
      rw [List.isEmpty_iff.1 hempty, hahead]
      exact ⟨rfl, matches_atEnd_iff.2 ⟨hmatched, hbehind, h⟩⟩
    · exact absurd h List.not_mem_nil
  | dotAll rest, _, _, _, _, h => by
    obtain ⟨hahead, h⟩ := matches_of_mem_ways (p := rest) h
    exact ⟨hahead, .dotAll h⟩
  | chars kind quantifier rest, _, _, _, _, h => by
    obtain ⟨⟨taken, behind⟩, hsplit, h⟩ := List.mem_flatMap.1 h
    obtain ⟨w, hw, rfl⟩ := List.mem_map.1 h
    obtain ⟨hsplit, haccepts⟩ := List.mem_filter.1 hsplit
    obtain ⟨hcount, htaken⟩ := Bool.and_eq_true_iff.1 haccepts
    obtain ⟨hbehind, h⟩ := matches_of_mem_ways hw
    rw [mem_splits.1 (List.mem_reverse.1 hsplit), hbehind, ← List.append_assoc]
    exact ⟨rfl, .chars hcount (List.all_eq_true.1 htaken) h⟩
  | group name inner rest, _, _, _, _, h => by
    obtain ⟨held, hheld, h⟩ := List.mem_flatMap.1 h
    obtain ⟨w, hw, rfl⟩ := List.mem_map.1 h
    obtain ⟨hahead, hinner⟩ := matches_of_mem_ways hheld
    obtain ⟨hbehind, h⟩ := matches_of_mem_ways hw
    rw [hahead, hbehind, ← List.append_assoc]
    rw [hbehind] at hinner
    exact ⟨rfl, .group hinner h⟩

/-- The ways at a place are the matches there. -/
theorem mem_ways {flag : Bool} {p : Pattern} {before ahead : List Char} {w : Way} :
    w ∈ p.ways flag before ahead ↔
      ahead = w.matched ++ w.behind ∧ Matches flag p before w.matched w.behind w.groups :=
  ⟨matches_of_mem_ways, fun ⟨hahead, h⟩ => hahead ▸ h.mem_ways⟩

theorem exists_mem_waysIn {p : Pattern} {text : String} {groups : Groups} :
    (∃ w ∈ p.waysIn text, w.groups = groups) ↔ p.Occurs text groups := by
  constructor
  · rintro ⟨w, hw, rfl⟩
    obtain ⟨cut, hcut, hw⟩ := List.mem_flatMap.1 hw
    obtain ⟨hahead, h⟩ := mem_ways.1 hw
    exact ⟨cut.1, w.matched, w.behind, hahead ▸ mem_splits.1 hcut, h⟩
  · rintro ⟨before, matched, behind, htext, h⟩
    exact ⟨_, List.mem_flatMap.2 ⟨_, mem_splits.2 htext, h.mem_ways⟩, rfl⟩

end Pattern

theorem Engine.greedy_lawful : Engine.greedy.Lawful where
  occurs := by
    intro p text groups h
    obtain ⟨w, hhead, hgroups⟩ := Option.map_eq_some_iff.1 h
    exact Pattern.exists_mem_waysIn.1 ⟨w, List.mem_of_mem_head? hhead, hgroups⟩
  not_occurs := by
    intro p text h groups hoccurs
    obtain ⟨w, hw, -⟩ := Pattern.exists_mem_waysIn.2 hoccurs
    have hnil := List.head?_eq_none_iff.1 (Option.map_eq_none_iff.1 h)
    rw [hnil] at hw
    exact absurd hw List.not_mem_nil

end JsonSelect.Text
