import JsonSelect.Proofs.Trying
import Mathlib.Data.List.Dedup
import Mathlib.Data.List.DropRight

/-!
# What a cache keeps

After any commands a cache holds what they have read since the last clearing
(`Session.holds_kept`). The readings of a run are numbered as they come (`Cache.From`), so a text is
answered from one reading until the cache is cleared (`Session.reading_eq_iff`), and by a forgetful
cache from a new one each time (`Session.reading_lt_of_forgetful`). `Session.kept_runAll` sums this
up.
-/

namespace JsonSelect

namespace Session

/-- The cache that some commands leave. -/
def after (commands : List Command) (c : Cache) : Cache := ((runAll commands).run c).2

theorem after_nil (c : Cache) : after [] c = c := rfl

theorem after_cons (command : Command) (commands : List Command) (c : Cache) :
    after (command :: commands) c = after commands (command.run.run c).2 := by
  rw [after, runAll_cons, after]

theorem after_append (before commands : List Command) (c : Cache) :
    after (before ++ commands) c = after commands (after before c) := by
  induction before generalizing c with
  | nil => rfl
  | cons command before ih => rw [List.cons_append, after_cons, ih, after_cons]

theorem faithful_after (commands : List Command) {c : Cache} (hc : c.Faithful) :
    (after commands c).Faithful :=
  (runAll_faithful commands hc).2.1

theorem getElem?_runAll : ∀ (commands : List Command) (c : Cache) (i : Nat),
    ((runAll commands).run c).1[i]? =
      commands[i]?.map fun command => (command.run.run (after (commands.take i) c)).1
  | [], _, _ => rfl
  | command :: commands, c, 0 => by rw [runAll_cons]; rfl
  | command :: commands, c, i + 1 => by
    rw [runAll_cons, List.getElem?_cons_succ, getElem?_runAll commands, List.getElem?_cons_succ,
      List.take_succ_cons, after_cons]

/-- What holds of a cache, whether it is cleared or fetches a text, holds after some commands. -/
theorem after_of_fetch {P : Cache → Prop} (hclear : ∀ c, P c → P c.clear)
    (hfetch : ∀ c text, P c → P (c.fetch text)) (commands : List Command) :
    ∀ {c : Cache}, c.Faithful → P c → P (after commands c) := by
  induction commands with
  | nil => exact fun _ h => h
  | cons command commands ih =>
    intro c hc h
    rw [after_cons]
    refine ih (command.run_faithful hc).2.1 ?_
    cases hclr : command.isClear with
    | true => exact Command.run_clear hclr c ▸ hclear c h
    | false =>
      rw [Command.run_eq_fetchAll hclr hc]
      exact Cache.fetchAll_of_fetch hfetch _ h

/-- The commands behind the last clearing, all of them if there is none. -/
def sinceClear (commands : List Command) : List Command :=
  commands.rtakeWhile fun command => !command.isClear

/-- The texts that some commands read behind the last clearing. -/
def kept (commands : List Command) : List String := (sinceClear commands).flatMap Command.reads

theorem kept_concat (commands : List Command) (command : Command) :
    kept (commands ++ [command]) =
      if command.isClear then [] else kept commands ++ command.reads := by
  unfold kept sinceClear
  rw [List.rtakeWhile_concat]
  cases command.isClear with
  | true => rfl
  | false => simp

end Session

namespace Cache

theorem contains_iff {c : Cache} {text : String} :
    c.contains text ↔ text ∈ c.entries.map (·.1) := by
  rw [contains, List.lookup_isSome_iff, List.mem_map]
  refine exists_congr fun e => and_congr_right fun _ => ?_
  rw [beq_iff_eq, eq_comm]

/-- The cache keeps selectors, those of the texts and no others, each under one key. -/
structure Holds (c : Cache) (texts : List String) : Prop where
  keeps : c.keeps = true
  nodup : (c.entries.map (·.1)).Nodup
  mem : ∀ text, text ∈ c.entries.map (·.1) ↔ text ∈ texts

theorem Holds.fetch {c : Cache} {texts : List String} (h : c.Holds texts) {text : String}
    {s : Selector} (hs : Selector.parse text = .ok s) : (c.fetch text).Holds (texts ++ [text]) := by
  cases hl : c.entries.lookup text with
  | some shared =>
    have hcontains : c.contains text := by rw [contains, hl]; rfl
    have hmem := (h.mem text).1 (contains_iff.1 hcontains)
    have hfetch : c.fetch text = c := by rw [Cache.fetch, hl]
    rw [hfetch]
    refine ⟨h.keeps, h.nodup, fun u => ?_⟩
    rw [h.mem, List.mem_append, List.mem_singleton, iff_self_or]
    rintro rfl
    exact hmem
  | none =>
    have hcontains : ¬ c.contains text := by simp [contains, hl]
    have hfetch : c.fetch text = c.add text s := by rw [Cache.fetch, hl, hs]
    rw [hfetch]
    have hkeys : (c.add text s).entries.map (·.1) = text :: c.entries.map (·.1) := by
      simp [add, h.keeps]
    refine ⟨h.keeps, ?_, fun u => ?_⟩
    · rw [hkeys]
      exact h.nodup.cons (mt contains_iff.2 hcontains)
    · rw [hkeys, List.mem_cons, h.mem, List.mem_append, List.mem_singleton, or_comm]

theorem Holds.fetchAll : ∀ {more : List String} {c : Cache} {texts : List String}, c.Holds texts →
    (∀ text ∈ more, ∃ s, Selector.parse text = .ok s) → (c.fetchAll more).Holds (texts ++ more)
  | [], _, texts, h, _ => by rwa [List.append_nil]
  | text :: more, c, texts, h, hmore => by
    obtain ⟨⟨s, hs⟩, hmore⟩ := List.forall_mem_cons.1 hmore
    rw [← List.singleton_append, ← List.append_assoc]
    exact (h.fetch hs).fetchAll hmore

theorem Holds.size_eq {c : Cache} {texts : List String} (h : c.Holds texts) :
    c.size = texts.dedup.length := by
  have hperm : (c.entries.map (·.1)).Perm texts.dedup :=
    (List.perm_ext_iff_of_nodup h.nodup (List.nodup_dedup texts)).2 fun text => by
      rw [h.mem, List.mem_dedup]
  rw [size, ← hperm.length_eq, List.length_map]

end Cache

namespace Session

theorem holds_kept (commands : List Command) : (after commands .empty).Holds (kept commands) := by
  induction commands using List.reverseRecOn with
  | nil => exact ⟨rfl, .nil, fun _ => Iff.rfl⟩
  | append_singleton commands command ih =>
    have hc : (after commands .empty).Faithful :=
      faithful_after commands (Cache.faithful_of_entries_eq rfl)
    rw [after_append, after_cons, after_nil, kept_concat]
    cases hclear : command.isClear with
    | true =>
      rw [Command.run_clear hclear, if_pos rfl]
      exact ⟨ih.keeps, .nil, fun _ => Iff.rfl⟩
    | false =>
      rw [Command.run_eq_fetchAll hclear hc, if_neg Bool.false_ne_true]
      exact ih.fetchAll fun text => Selector.exists_of_mem_readable

end Session

namespace Cache

/-- The readings at hand and those still to come are numbered from `n` on. -/
structure From (c : Cache) (n : Nat) : Prop where
  le : n ≤ c.readings
  mem : ∀ e ∈ c.entries, n ≤ e.2.reading ∧ e.2.reading < c.readings

theorem from_of_entries_eq {c : Cache} {n : Nat} (h : c.entries = []) (hle : n ≤ c.readings) :
    c.From n := ⟨hle, by simp [h]⟩

theorem From.fetch {c : Cache} {n : Nat} (h : c.From n) (text : String) :
    (c.fetch text).From n := by
  refine fetch_of_add (P := fun c => c.From n) h fun s _ _ =>
    ⟨h.le.trans (Nat.le_succ _), fun e he => ?_⟩
  have hold : ∀ e ∈ c.entries, n ≤ e.2.reading ∧ e.2.reading < c.readings + 1 := fun e he =>
    (h.mem e he).imp_right Nat.lt_succ_of_lt
  unfold add at he
  dsimp only at he
  split at he
  · rcases List.mem_cons.1 he with rfl | he
    · exact ⟨h.le, Nat.lt_succ_self _⟩
    · exact hold e he
  · exact hold e he

theorem readings_le_fetch {c : Cache} {n : Nat} (h : n ≤ c.readings) (text : String) :
    n ≤ (c.fetch text).readings :=
  fetch_of_add (P := fun c => n ≤ c.readings) h fun _ _ _ => h.trans (Nat.le_succ _)

theorem lookup_fetch {c : Cache} {text : String} {a : Shared}
    (h : c.entries.lookup text = some a) (u : String) :
    (c.fetch u).entries.lookup text = some a := by
  refine fetch_of_add (P := fun c => c.entries.lookup text = some a) h fun s hu _ => ?_
  have hne : text ≠ u := by
    rintro rfl
    rw [h] at hu
    exact absurd hu nofun
  unfold add
  dsimp only
  split
  · rw [List.lookup_cons, beq_false_of_ne hne]
    exact h
  · exact h

end Cache

namespace Session

/-- What a text gives is at hand, or it is read and numbered next. -/
theorem run_parse_eq_ok {c : Cache} {text : String} {a : Shared} :
    ((parse text).run c).1 = .ok a ↔ c.entries.lookup text = some a
      ∨ c.entries.lookup text = none ∧ Selector.parse text = .ok a.selector
        ∧ c.readings = a.reading := by
  rw [run_parse]
  cases c.entries.lookup text with
  | some shared => simp
  | none =>
    cases Selector.parse text with
    | error fault => simp
    | ok s =>
      obtain ⟨reading, selector⟩ := a
      simp [and_comm]

/-- What a text gives is at hand from then on. -/
theorem lookup_of_parse {c : Cache} {text : String} {a : Shared} (hk : c.keeps = true)
    (h : ((parse text).run c).1 = .ok a) : (c.fetch text).entries.lookup text = some a := by
  rcases run_parse_eq_ok.1 h with hl | ⟨hl, hs, hr⟩
  · exact Cache.lookup_fetch hl text
  · simp [Cache.fetch, hl, hs, Cache.add, hk, hr]

theorem reading_of_parse {c : Cache} {n : Nat} (hc : c.From n) {text : String} {a : Shared}
    (h : ((parse text).run c).1 = .ok a) :
    n ≤ a.reading ∧ a.reading < (c.fetch text).readings := by
  rcases run_parse_eq_ok.1 h with hl | ⟨hl, hs, hr⟩
  · obtain ⟨l, l', heq, -⟩ := List.lookup_eq_some_iff.1 hl
    obtain ⟨hle, hlt⟩ := hc.mem (text, a) (heq ▸ List.mem_append_right l (.head l'))
    exact ⟨hle, Cache.readings_le_fetch hlt text⟩
  · refine ⟨hr ▸ hc.le, ?_⟩
    simp [Cache.fetch, hl, hs, Cache.add, hr]

/-- As long as the cache is not cleared, what is at hand stays at hand. -/
theorem lookup_after {text : String} {a : Shared} : ∀ {commands : List Command} {c : Cache},
    c.Faithful → (∀ command ∈ commands, command.isClear = false) →
      c.entries.lookup text = some a → (after commands c).entries.lookup text = some a
  | [], _, _, _, h => h
  | command :: commands, c, hc, hclear, h => by
    obtain ⟨hcommand, hcommands⟩ := List.forall_mem_cons.1 hclear
    rw [after_cons]
    refine lookup_after (command.run_faithful hc).2.1 hcommands ?_
    rw [Command.run_eq_fetchAll hcommand hc]
    exact Cache.fetchAll_of_fetch (P := fun c => c.entries.lookup text = some a)
      (fun _ u h => Cache.lookup_fetch h u) _ h

theorem from_after {c : Cache} {n : Nat} (hc : c.Faithful) (h : c.From n)
    (commands : List Command) : (after commands c).From n :=
  after_of_fetch (P := fun c => c.From n) (fun _ h => Cache.from_of_entries_eq rfl h.le)
    (fun _ text h => h.fetch text) commands hc h

theorem readings_le_after {c : Cache} (hc : c.Faithful) (commands : List Command) :
    c.readings ≤ (after commands c).readings :=
  after_of_fetch (P := fun c' => c.readings ≤ c'.readings) (fun _ h => h)
    (fun _ text h => Cache.readings_le_fetch h text) commands hc le_rfl

/-- Clearing the cache leaves only readings that are new. -/
theorem from_after_clear {c : Cache} (hc : c.Faithful) {commands : List Command}
    {command : Command} (hm : command ∈ commands) (hclear : command.isClear) :
    (after commands c).From c.readings := by
  obtain ⟨before, behind, rfl⟩ := List.append_of_mem hm
  have hbefore := faithful_after before hc
  rw [after_append, after_cons, Command.run_clear hclear]
  exact from_after (Cache.faithful_of_entries_eq rfl)
    (Cache.from_of_entries_eq (c := (after before c).clear) rfl (readings_le_after hc before))
    behind

/-- The selector that an answer gives. -/
def Answer.shared? : Answer → Option Shared
  | selector (.ok shared) => some shared
  | _ => none

theorem Answer.shared?_eq_some {answer : Answer} {a : Shared} :
    answer.shared? = some a ↔ answer = .selector (.ok a) := by
  unfold shared?
  split
  · next shared => simp
  · next hne => exact iff_of_false nofun fun h => hne a h

/-- The commands of a run between two of them. -/
def between (commands : List Command) (i j : Nat) : List Command := (commands.take j).drop (i + 1)

theorem mem_between {commands : List Command} {i j : Nat} {command : Command} :
    command ∈ between commands i j ↔ ∃ k, i < k ∧ k < j ∧ commands[k]? = some command := by
  unfold between
  rw [List.mem_iff_getElem?]
  simp only [List.getElem?_drop, List.getElem?_take]
  constructor
  · rintro ⟨k, hk⟩
    obtain ⟨hlt, hk⟩ := Option.ite_none_right_eq_some.1 hk
    exact ⟨i + 1 + k, by omega, hlt, hk⟩
  · rintro ⟨k, hik, hkj, hk⟩
    exact ⟨k - (i + 1), by rw [show i + 1 + (k - (i + 1)) = k by omega, if_pos hkj, hk]⟩

/-- The cache that a later command meets is the one that an earlier command left, after those
between them. -/
theorem after_take {commands : List Command} {i j : Nat} (hij : i < j) {command : Command}
    (h : commands[i]? = some command) (c : Cache) : after (commands.take j) c =
      after (between commands i j) (command.run.run (after (commands.take i) c)).2 := by
  have htake : commands.take j = commands.take i ++ command :: between commands i j := by
    rw [← List.take_append_drop i (commands.take j), List.take_take, Nat.min_eq_left hij.le,
      List.drop_eq_getElem?_toList_append, List.getElem?_take_of_lt hij, h]
    rfl
  rw [htake, after_append, after_cons]

theorem parse_of_answer {commands : List Command} {c : Cache} {i : Nat} {text : String} {a : Shared}
    (h : commands[i]? = some (.parse text))
    (ha : ((runAll commands).run c).1[i]?.bind Answer.shared? = some a) :
    ((parse text).run (after (commands.take i) c)).1 = .ok a := by
  rw [getElem?_runAll, h] at ha
  exact Answer.selector.inj (Answer.shared?_eq_some.1 ha)

/-- The cache that a command meets after an earlier one has read a text. -/
theorem after_take_of_parse {commands : List Command} {i j : Nat} (hij : i < j) {text : String}
    (h : commands[i]? = some (.parse text)) (c : Cache) : after (commands.take j) c =
      after (between commands i j) ((after (commands.take i) c).fetch text) := by
  rw [after_take hij h]
  exact congrArg _ (run_parse_eq_fetch text _)

/-- A text that is read twice is read from one reading, unless the cache was cleared. -/
theorem reading_eq_iff {commands : List Command} {c : Cache} (hc : c.Faithful)
    (hk : c.keeps = true) (hn : c.From 0) {i j : Nat} (hij : i < j) {text : String} {a b : Shared}
    (hi : commands[i]? = some (.parse text)) (hj : commands[j]? = some (.parse text))
    (ha : ((runAll commands).run c).1[i]?.bind Answer.shared? = some a)
    (hb : ((runAll commands).run c).1[j]?.bind Answer.shared? = some b) :
    a.reading = b.reading ↔ ∀ command ∈ between commands i j, command.isClear = false := by
  have ha := parse_of_answer hi ha
  have hb := parse_of_answer hj hb
  have hfaithful := faithful_after (commands.take i) hc
  have hfetched := hfaithful.fetch text
  rw [after_take_of_parse hij hi] at hb
  constructor
  · intro heq command hm
    by_contra hclear
    have hfrom := from_after_clear hfetched hm (Bool.not_eq_false _ ▸ hclear)
    have hle := (reading_of_parse hfrom hb).1
    have hlt := (reading_of_parse (from_after hc hn (commands.take i)) ha).2
    exact absurd (heq ▸ hle) (Nat.not_le.2 hlt)
  · intro hclear
    have hkeeps : (after (commands.take i) c).keeps = true :=
      (runAll_faithful (commands.take i) hc).2.2.trans hk
    have hl := lookup_after hfetched hclear (lookup_of_parse hkeeps ha)
    rcases run_parse_eq_ok.1 hb with hl' | ⟨hl', -, -⟩
    · rw [Option.some.inj (hl.symm.trans hl')]
    · exact absurd (hl.symm.trans hl') nofun

/-- A forgetful cache gives every reading a new number. -/
theorem reading_lt_of_forgetful {commands : List Command} {c : Cache} (hc : c.Faithful)
    (hk : c.keeps = false) (hn : c.From 0) {i j : Nat} (hij : i < j) {text text' : String}
    {a b : Shared} (hi : commands[i]? = some (.parse text))
    (hj : commands[j]? = some (.parse text'))
    (ha : ((runAll commands).run c).1[i]?.bind Answer.shared? = some a)
    (hb : ((runAll commands).run c).1[j]?.bind Answer.shared? = some b) :
    a.reading < b.reading := by
  have ha := parse_of_answer hi ha
  have hb := parse_of_answer hj hb
  have hfaithful := faithful_after (commands.take i) hc
  have hfetched := hfaithful.fetch text
  have hkeeps : ((after (commands.take i) c).fetch text).keeps = false := by
    rw [← run_parse_eq_fetch]
    exact ((Command.parse text).run_faithful hfaithful).2.2.trans
      ((runAll_faithful (commands.take i) hc).2.2.trans hk)
  rw [after_take_of_parse hij hi] at hb
  have hlt := (reading_of_parse (from_after hc hn (commands.take i)) ha).2
  exact (reading_of_parse (from_after hfetched
    (Cache.from_of_entries_eq (hfetched.entries_eq hkeeps) hlt) _) hb).1

/-- After every run a cache that keeps selectors has the texts that were read since it was last
cleared, and no others; what a text gives twice is one selector unless the cache was cleared in
between. A forgetful cache gives no selector twice. -/
theorem kept_runAll (commands : List Command) :
    (∀ text, (after commands .empty).contains text ↔
        ∃ command ∈ sinceClear commands, text ∈ command.reads)
      ∧ (after commands .empty).size = ((sinceClear commands).flatMap Command.reads).dedup.length
      ∧ (∀ (i j : Nat) (text : String) (a b : Shared), i < j → commands[i]? = some (.parse text) →
        commands[j]? = some (.parse text) →
        ((runAll commands).run .empty).1[i]?.bind Answer.shared? = some a →
        ((runAll commands).run .empty).1[j]?.bind Answer.shared? = some b →
          (a.reading = b.reading ↔ ∀ k, i < k → k < j → commands[k]? ≠ some .clear))
      ∧ ∀ (i j : Nat) (text text' : String) (a b : Shared), i < j →
        commands[i]? = some (.parse text) → commands[j]? = some (.parse text') →
        ((runAll commands).run .forgetful).1[i]?.bind Answer.shared? = some a →
        ((runAll commands).run .forgetful).1[j]?.bind Answer.shared? = some b →
          a.reading ≠ b.reading := by
  have hempty : Cache.empty.Faithful := Cache.faithful_of_entries_eq rfl
  have hforgetful : Cache.forgetful.Faithful := Cache.faithful_of_entries_eq rfl
  have hholds := holds_kept commands
  refine ⟨fun text => ?_, hholds.size_eq, fun i j text a b hij hi hj ha hb => ?_,
    fun i j text text' a b hij hi hj ha hb => (reading_lt_of_forgetful hforgetful rfl
      (Cache.from_of_entries_eq rfl (Nat.zero_le _)) hij hi hj ha hb).ne⟩
  · rw [Cache.contains_iff, hholds.mem, kept, List.mem_flatMap]
  · rw [reading_eq_iff hempty rfl (Cache.from_of_entries_eq rfl (Nat.zero_le _)) hij hi hj ha hb]
    constructor
    · intro h k hik hkj hk
      exact absurd (h _ (mem_between.2 ⟨k, hik, hkj, hk⟩)) nofun
    · intro h command hm
      obtain ⟨k, hik, hkj, hk⟩ := mem_between.1 hm
      cases command with
      | clear => exact absurd hk (h k hik hkj)
      | _ => rfl

theorem kept_runAll_stopped :
    ∃ (commands : List Command) (a b d e f : Shared),
      commands = [.parse "a", .only .selected .null "s", .parse "a", .clear, .parse "a",
        .project (.arr [.obj []]) ⟨some "[0].p", some "q\x7d", some "r"⟩]
      ∧ ((runAll commands).run .empty).1[0]?.bind Answer.shared? = some a
      ∧ ((runAll commands).run .empty).1[2]?.bind Answer.shared? = some b
      ∧ ((runAll commands).run .empty).1[4]?.bind Answer.shared? = some d
      ∧ ((runAll commands).run .forgetful).1[0]?.bind Answer.shared? = some e
      ∧ ((runAll commands).run .forgetful).1[2]?.bind Answer.shared? = some f
      ∧ commands.map Command.reads = [["a"], [], ["a"], [], ["a"], ["p"]]
      ∧ (after commands .empty).contains "p" ∧ (after commands .empty).size = 2
      ∧ a.reading = b.reading ∧ b.reading ≠ d.reading ∧ e.reading ≠ f.reading := by
  obtain ⟨hcontains, hsize, hsame, hnever⟩ := kept_runAll [.parse "a", .only .selected .null "s",
    .parse "a", .clear, .parse "a",
    .project (.arr [.obj []]) ⟨some "[0].p", some "q\x7d", some "r"⟩]
  have hsame₁ := hsame 0 2 "a" ⟨0, .field ⟨"a", "a", none⟩ .nil⟩ ⟨0, .field ⟨"a", "a", none⟩ .nil⟩
    (by decide) rfl rfl (by decide +kernel) (by decide +kernel)
  have hsame₂ := hsame 2 4 "a" ⟨0, .field ⟨"a", "a", none⟩ .nil⟩ ⟨1, .field ⟨"a", "a", none⟩ .nil⟩
    (by decide) rfl rfl (by decide +kernel) (by decide +kernel)
  have hnever := hnever 0 2 "a" "a" ⟨0, .field ⟨"a", "a", none⟩ .nil⟩
    ⟨1, .field ⟨"a", "a", none⟩ .nil⟩ (by decide) rfl rfl (by decide +kernel) (by decide +kernel)
  refine ⟨_, _, _, _, _, _, rfl, by decide +kernel, by decide +kernel, by decide +kernel,
    by decide +kernel, by decide +kernel, by decide +kernel,
    (hcontains "p").2 ⟨_, .tail _ (.head _), by decide +kernel⟩, hsize.trans (by decide +kernel),
    hsame₁.2 fun k hlt hlt' => ?_,
    fun heq => hsame₂.1 heq 3 (by decide) (by decide) rfl, hnever⟩
  obtain rfl : k = 1 := by omega
  simp

end Session

end JsonSelect
