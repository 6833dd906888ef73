import JsonSelect.CommandLine
import JsonSelect.Proofs.Stages
import Mathlib.Data.List.Forall2

/-!
# Streams

The lines of a stream are what stands between its line ends (`Document.splits_iff`). On an engine
with a faithful cache each line is passed over, printed or failed on as on an engine just made
(`Format.runLines_prints`), and so is a stream up to its first line that fails, whatever the engine
was used for before (`Format.reported_useAll`). This holds for every format.
-/

namespace JsonSelect

namespace Document

/-- The lines of some bytes. A line ends at a line feed, which takes a carriage return before it
along; the last one may lack its end, unless there is nothing on it. -/
inductive Splits : List UInt8 → List (List UInt8) → Prop
  | nil : Splits [] []
  | last {line : List UInt8} (h : lineFeed ∉ line) (hne : line ≠ []) : Splits line [line]
  | lineFeed {line bytes : List UInt8} {others : List (List UInt8)} (h : lineFeed ∉ line)
      (hend : line.getLast? ≠ some carriageReturn) (hothers : Splits bytes others) :
      Splits (line ++ lineFeed :: bytes) (line :: others)
  | carriageReturn {line bytes : List UInt8} {others : List (List UInt8)} (h : lineFeed ∉ line)
      (hothers : Splits bytes others) :
      Splits (line ++ carriageReturn :: lineFeed :: bytes) (line :: others)

section Lines

variable {b : UInt8} {line bytes : List UInt8} {others : List (List UInt8)}

theorem lines_lineFeed (bytes : List UInt8) : lines (lineFeed :: bytes) = [] :: lines bytes := by
  rw [lines, if_pos rfl]

theorem lines_cons (hb : b ≠ lineFeed) (hline : lines bytes = line :: others)
    (hend : b ≠ carriageReturn ∨ bytes.head? ≠ some lineFeed) :
    lines (b :: bytes) = (b :: line) :: others := by
  rw [lines, if_neg hb, hline]
  refine if_neg fun h => ?_
  rw [Bool.and_eq_true, decide_eq_true_eq, beq_iff_eq] at h
  exact hend.elim (· h.1) (· h.2)

theorem head?_append_ne (h : lineFeed ∉ line) (hne : line ≠ []) :
    (line ++ bytes).head? ≠ some lineFeed := by
  cases line with
  | nil => exact absurd rfl hne
  | cons b line =>
    intro hb
    obtain rfl := Option.some.inj hb
    exact h (.head line)

theorem lines_last : ∀ {line : List UInt8}, lineFeed ∉ line → line ≠ [] → lines line = [line]
  | [], _, hne => absurd rfl hne
  | b :: line, h, _ => by
    obtain ⟨hb, h⟩ := List.ne_and_not_mem_of_not_mem_cons h
    by_cases hne : line = []
    · subst hne
      rw [lines, if_neg hb.symm]
      rfl
    · have hhead : (line ++ []).head? ≠ some lineFeed := head?_append_ne h hne
      rw [List.append_nil] at hhead
      exact lines_cons hb.symm (lines_last h hne) (.inr hhead)

theorem lines_append_lineFeed : ∀ {line : List UInt8}, lineFeed ∉ line →
    line.getLast? ≠ some carriageReturn → lines (line ++ lineFeed :: bytes) = line :: lines bytes
  | [], _, _ => lines_lineFeed bytes
  | b :: line, h, hend => by
    obtain ⟨hb, h⟩ := List.ne_and_not_mem_of_not_mem_cons h
    by_cases hne : line = []
    · subst hne
      exact lines_cons hb.symm (lines_lineFeed bytes) (.inl fun hb => hend (congrArg some hb))
    · rw [List.getLast?_cons_of_ne_nil hne] at hend
      exact lines_cons hb.symm (lines_append_lineFeed h hend) (.inr (head?_append_ne h hne))

theorem lines_append_carriageReturn : ∀ {line : List UInt8}, lineFeed ∉ line →
    lines (line ++ carriageReturn :: lineFeed :: bytes) = line :: lines bytes
  | [], _ => by
    rw [List.nil_append, lines, if_neg (by decide), lines_lineFeed]
    rfl
  | b :: line, h => by
    obtain ⟨hb, h⟩ := List.ne_and_not_mem_of_not_mem_cons h
    refine lines_cons hb.symm (lines_append_carriageReturn h) (.inr ?_)
    cases line with
    | nil => exact (by decide : some carriageReturn ≠ some lineFeed)
    | cons c line => exact head?_append_ne h nofun

theorem Splits.eq_lines {ls : List (List UInt8)} (h : Splits bytes ls) : ls = lines bytes := by
  induction h with
  | nil => rfl
  | last h hne => exact (lines_last h hne).symm
  | lineFeed h hend _ ih => rw [lines_append_lineFeed h hend, ih]
  | carriageReturn h _ ih => rw [lines_append_carriageReturn h, ih]

theorem splits_lines (bytes : List UInt8) : Splits bytes (lines bytes) := by
  by_cases h : lineFeed ∈ bytes
  · -- Up to the first line feed; a carriage return before it belongs to the end of the line.
    obtain ⟨line, rest, rfl, hline⟩ := List.eq_append_cons_of_mem h
    have ih := splits_lines rest
    by_cases hend : line.getLast? = some carriageReturn
    · obtain ⟨line, rfl⟩ := List.getLast?_eq_some_iff.1 hend
      have hline : lineFeed ∉ line := fun h => hline (List.mem_append_left _ h)
      rw [List.append_assoc, List.singleton_append, lines_append_carriageReturn hline]
      exact .carriageReturn hline ih
    · rw [lines_append_lineFeed hline hend]
      exact .lineFeed hline hend ih
  · by_cases hne : bytes = []
    · subst hne
      exact .nil
    · rw [lines_last h hne]
      exact .last h hne
termination_by bytes.length
decreasing_by
  subst_vars
  simp only [List.length_append, List.length_cons]
  omega

theorem splits_iff {ls : List (List UInt8)} : Splits bytes ls ↔ ls = lines bytes :=
  ⟨Splits.eq_lines, fun h => h ▸ splits_lines bytes⟩

end Lines

/-- Whether there are only blanks on a line. -/
def isBlank (line : List UInt8) : Bool := (text? line).any Text.allBlank

/-- The lines that are not blank. -/
def filled (ls : List (List UInt8)) : List (List UInt8) := ls.filter fun line => !isBlank line

theorem filled_of_blank {line : List UInt8} (h : isBlank line) (ls : List (List UInt8)) :
    filled (line :: ls) = filled ls :=
  List.filter_cons_of_neg (by rw [h]; exact Bool.false_ne_true)

theorem filled_of_not_blank {line : List UInt8} (h : isBlank line = false)
    (ls : List (List UInt8)) : filled (line :: ls) = line :: filled ls :=
  List.filter_cons_of_pos (by rw [h]; rfl)

end Document

namespace Session

variable {c : Cache} {tree : Json} {request : Request}

/-- With a faithful cache a projection is what it is on an engine just made. -/
theorem run_project (hc : c.Faithful) (tree : Json) (request : Request) : ∃ result c',
    StateT.run (project tree request).run c = (result, c') ∧ c'.Faithful
      ∧ Cache.empty.project tree request = result.map Projection.tree := by
  obtain ⟨hresult, hc', -⟩ := gives_project tree request c hc
  obtain ⟨hempty, -, -⟩ := gives_project tree request .empty (Cache.faithful_of_entries_eq rfl)
  refine ⟨Projection.ofRequest tree request, _, Prod.ext hresult rfl, hc', ?_⟩
  rw [Cache.project, hempty]

theorem run_project_of_ok (hc : c.Faithful) {result : Json}
    (h : Cache.empty.project tree request = .ok result) :
    ∃ p c', StateT.run (project tree request).run c = (.ok p, c') ∧ c'.Faithful
      ∧ p.tree = result := by
  obtain ⟨cause | p, c', hrun, hc', hproject⟩ := run_project hc tree request <;>
    rw [hproject] at h
  · exact absurd h nofun
  · exact ⟨p, c', hrun, hc', Except.ok.inj h⟩

theorem run_project_of_error (hc : c.Faithful) {cause : Fault}
    (h : Cache.empty.project tree request = .error cause) :
    ∃ c', StateT.run (project tree request).run c = (.error cause, c') ∧ c'.Faithful := by
  obtain ⟨cause' | p, c', hrun, hc', hproject⟩ := run_project hc tree request <;>
    rw [hproject] at h
  · obtain rfl := Except.error.inj h
    exact ⟨c', hrun, hc'⟩
  · exact absurd h nofun

end Session

namespace Format

open Document

variable {f : Format}

/-- A line that an engine just made prints: the JSON text on it is read and its value projected. -/
inductive Prints (f : Format) (request : Request) (line : List UInt8) : String → Prop
  | intro {text : String} {tree result : Json} (htext : Document.text? line = some text)
      (hblank : Text.allBlank text = false) (htree : f.text? text = some tree)
      (hresult : Cache.empty.project tree request = .ok result) :
      Prints f request line (f.compact result)

/-- A line with this number that fails on an engine just made. -/
inductive Fails (f : Format) (request : Request) (number : Nat) (line : List UInt8) : Failure → Prop
  | notText (h : Document.text? line = none) : Fails f request number line .lineNotText
  | notJson {text : String} (htext : Document.text? line = some text)
      (hblank : Text.allBlank text = false) (h : f.text? text = none) :
      Fails f request number line (.notJsonOnLine number)
  | notProjected {text : String} {tree : Json} {cause : Fault}
      (htext : Document.text? line = some text) (hblank : Text.allBlank text = false)
      (htree : f.text? text = some tree) (h : Cache.empty.project tree request = .error cause) :
      Fails f request number line (.selectionOnLine number cause)

theorem Fails.message {request : Request} {number : Nat} {line : List UInt8} {failure : Failure}
    (h : f.Fails request number line failure) (htext : Document.text? line ≠ none) :
    failure.message = "Failed to parse JSON on line " ++ toString number
      ∨ failure.message = "Failed to project line " ++ toString number := by
  cases h with
  | notText h => exact absurd h htext
  | notJson => exact .inl rfl
  | notProjected => exact .inr rfl

theorem blank_or_prints_or_fails (f : Format) (request : Request) (number : Nat)
    (line : List UInt8) :
    isBlank line ∨ (∃ out, f.Prints request line out)
      ∨ ∃ failure, f.Fails request number line failure := by
  cases htext : Document.text? line with
  | none => exact .inr (.inr ⟨_, .notText htext⟩)
  | some text =>
    cases hblank : Text.allBlank text with
    | true => exact .inl (by rw [isBlank, htext]; exact hblank)
    | false =>
      refine .inr ?_
      cases htree : f.text? text with
      | none => exact .inr ⟨_, .notJson htext hblank htree⟩
      | some tree =>
        cases hresult : Cache.empty.project tree request with
        | error cause => exact .inr ⟨_, .notProjected htext hblank htree hresult⟩
        | ok result => exact .inl ⟨_, .intro htext hblank htree hresult⟩

theorem Prints.isBlank_eq {request : Request} {line : List UInt8} {out : String}
    (h : f.Prints request line out) : isBlank line = false := by
  obtain ⟨htext, hblank, -, -⟩ := h
  rw [isBlank, htext]
  exact hblank

section Runs

variable {request : Request} {line : List UInt8} {c : Cache} (number : Nat)
  (others : List (List UInt8))

theorem runLines_blank (h : isBlank line) :
    f.runLines request number (line :: others) = f.runLines request (number + 1) others := by
  obtain ⟨text, htext, hblank⟩ := (Option.any_eq_true _ _).1 h
  rw [runLines, htext]
  exact if_pos hblank

theorem runLines_prints (hc : c.Faithful) {out : String} (h : f.Prints request line out) :
    ∃ skipped c', c'.Faithful ∧ (f.runLines request number (line :: others)).run c =
      (((f.runLines request (number + 1) others).run c').1.after out skipped,
        ((f.runLines request (number + 1) others).run c').2) := by
  obtain ⟨htext, hblank, htree, hresult⟩ := h
  obtain ⟨p, c', hrun, hc', rfl⟩ := Session.run_project_of_ok hc hresult
  refine ⟨p.skipped, c', hc', ?_⟩
  rw [runLines, htext]
  dsimp only
  rw [if_neg (by rw [hblank]; exact Bool.false_ne_true), htree]
  dsimp only
  rw [StateT.run_bind, hrun]
  rfl

theorem runLines_fails (hc : c.Faithful) {failure : Failure}
    (h : f.Fails request number line failure) : ∃ c', c'.Faithful
      ∧ (f.runLines request number (line :: others)).run c = (.failed failure, c') := by
  cases h with
  | notText h =>
    refine ⟨c, hc, ?_⟩
    rw [runLines, h]
    rfl
  | notJson htext hblank h =>
    refine ⟨c, hc, ?_⟩
    rw [runLines, htext]
    dsimp only
    rw [if_neg (by rw [hblank]; exact Bool.false_ne_true), h]
    rfl
  | notProjected htext hblank htree h =>
    obtain ⟨c', hrun, hc'⟩ := Session.run_project_of_error hc h
    refine ⟨c', hc', ?_⟩
    rw [runLines, htext]
    dsimp only
    rw [if_neg (by rw [hblank]; exact Bool.false_ne_true), htree]
    dsimp only
    rw [StateT.run_bind, hrun]
    rfl

theorem runLines_faithful : ∀ (ls : List (List UInt8)) (number : Nat) {c : Cache}, c.Faithful →
    ((f.runLines request number ls).run c).2.Faithful
  | [], _, _, hc => hc
  | line :: others, number, c, hc => by
    rcases blank_or_prints_or_fails f request number line with h | ⟨out, h⟩ | ⟨failure, h⟩
    · rw [runLines_blank number others h]
      exact runLines_faithful others _ hc
    · obtain ⟨skipped, c', hc', hrun⟩ := runLines_prints number others hc h
      rw [hrun]
      exact runLines_faithful others _ hc'
    · obtain ⟨c', hc', hrun⟩ := runLines_fails number others hc h
      rw [hrun]
      exact hc'

end Runs

/-- Each line that is not blank prints, in order, one of the texts. -/
def PrintAll (f : Format) (request : Request) (ls : List (List UInt8)) (outs : List String) :
    Prop :=
  List.Forall₂ (f.Prints request) (filled ls) outs

/-- Texts with the line feed behind each. -/
def printed : List String → String
  | [] => ""
  | out :: outs => out ++ "\n" ++ printed outs

/-- A report that begins with some texts and goes on as another one. -/
structure Continues (outs : List String) (r r' : Report) : Prop where
  output : r'.output = printed outs ++ r.output
  written : r'.written = outs.length + r.written
  failure : r'.failure = r.failure

theorem Continues.nil (r : Report) : Continues [] r r :=
  ⟨String.empty_append.symm, (Nat.zero_add _).symm, rfl⟩

theorem Continues.after {outs : List String} {r r' : Report} (h : Continues outs r r')
    (out : String) (skipped : Nat) : Continues (out :: outs) r (r'.after out skipped) where
  output := by
    show out ++ "\n" ++ r'.output = _
    rw [h.output, printed, String.append_assoc, String.append_assoc, String.append_assoc]
  written := by
    show r'.written + 1 = _
    rw [h.written, List.length_cons]
    omega
  failure := h.failure

/-- Behind lines that print, a run goes on with the number of the next line. -/
theorem runLines_append {request : Request} (behind : List (List UInt8)) :
    ∀ {before : List (List UInt8)} {outs : List String}, f.PrintAll request before outs →
      ∀ (number : Nat) {c : Cache}, c.Faithful → ∃ c', c'.Faithful
        ∧ Continues outs ((f.runLines request (number + before.length) behind).run c').1
          ((f.runLines request number (before ++ behind)).run c).1
  | [], _, .nil, _, c, hc => ⟨c, hc, .nil _⟩
  | line :: before, outs, h, number, c, hc => by
    -- A blank line counts for the number only; any other one leaves another faithful cache.
    have hnumber : number + (line :: before).length = number + 1 + before.length := by
      rw [List.length_cons]
      omega
    rw [hnumber, List.cons_append]
    unfold PrintAll at h
    cases hblank : isBlank line with
    | true =>
      rw [filled_of_blank hblank] at h
      rw [runLines_blank number _ hblank]
      exact runLines_append behind h (number + 1) hc
    | false =>
      rw [filled_of_not_blank hblank] at h
      cases h with
      | cons hline hbefore =>
        obtain ⟨skipped, c', hc', hrun⟩ := runLines_prints number (before ++ behind) hc hline
        obtain ⟨c'', hc'', hcontinues⟩ := runLines_append behind hbefore (number + 1) hc'
        rw [hrun]
        exact ⟨c'', hc'', hcontinues.after _ skipped⟩

theorem PrintAll.cons {request : Request} {line : List UInt8} {ls : List (List UInt8)}
    {outs : List String} (hline : isBlank line ∨ ∃ out, f.Prints request line out)
    (h : f.PrintAll request ls outs) : ∃ outs', f.PrintAll request (line :: ls) outs' := by
  unfold PrintAll
  rcases hline with hblank | ⟨out, hprints⟩
  · exact ⟨outs, by rwa [filled_of_blank hblank]⟩
  · exact ⟨out :: outs, by rw [filled_of_not_blank hprints.isBlank_eq]; exact .cons hprints h⟩

/-- All lines that are not blank print, or there is a first one that fails. -/
theorem printAll_or_fails (f : Format) (request : Request) :
    ∀ (ls : List (List UInt8)) (number : Nat),
    (∃ outs, f.PrintAll request ls outs) ∨ ∃ before line behind outs failure,
      ls = before ++ line :: behind ∧ f.PrintAll request before outs
        ∧ f.Fails request (number + before.length) line failure
  | [], _ => .inl ⟨[], .nil⟩
  | line :: ls, number => by
    rcases or_assoc.2 (blank_or_prints_or_fails f request number line) with hline | ⟨failure, h⟩
    · obtain ⟨outs, h⟩ | ⟨before, line', behind, outs, failure, rfl, hbefore, h⟩ :=
        printAll_or_fails f request ls (number + 1)
      · exact .inl (h.cons hline)
      · obtain ⟨outs', hbefore'⟩ := hbefore.cons hline
        refine .inr ⟨line :: before, line', behind, outs', failure, rfl, hbefore', ?_⟩
        rwa [List.length_cons, Nat.add_comm before.length, ← Nat.add_assoc]
    · exact .inr ⟨[], line, ls, [], failure, rfl, .nil, h⟩

/-- What is reported about a stream with these lines. Either every line prints that is not blank, or
a first one fails, and then nothing of it or of a later one is printed. -/
structure Reported (f : Format) (request : Request) (ls : List (List UInt8)) (r : Report) :
    Prop where
  finished : ∀ {outs : List String}, f.PrintAll request ls outs →
    r.output = printed outs ∧ r.written = (filled ls).length ∧ r.failure = none
  stopped : ∀ {before behind : List (List UInt8)} {line : List UInt8} {outs : List String}
    {failure : Failure}, ls = before ++ line :: behind → f.PrintAll request before outs →
    f.Fails request (before.length + 1) line failure →
    r.output = printed outs ∧ r.written = (filled before).length ∧ r.failure = some failure
      ∧ (Document.text? line = none
        ∨ failure.message = "Failed to parse JSON on line " ++ toString (before.length + 1)
        ∨ failure.message = "Failed to project line " ++ toString (before.length + 1))
  ends : (∃ outs, f.PrintAll request ls outs) ∨ ∃ before line behind outs failure,
    ls = before ++ line :: behind ∧ f.PrintAll request before outs
      ∧ f.Fails request (before.length + 1) line failure

/-- What is reported about a single document: it is printed, or nothing is. -/
structure ReportedWhole (f : Format) (compact : Bool) (request : Request) (bytes : List UInt8)
    (r : Report) : Prop where
  unread : f.document? bytes = none → r = .failed .notJson
  unprojected : ∀ {tree : Json} {cause : Fault},
    f.document? bytes = some tree →
    Cache.empty.project tree request = .error cause → r = .failed (.selection cause)
  projected : ∀ {tree result : Json}, f.document? bytes = some tree →
    Cache.empty.project tree request = .ok result →
    r.output = f.print compact result ++ "\n" ∧ r.written = 1
      ∧ r.failure = none
  silent : r.failure ≠ none → r.output = "" ∧ r.written = 0

theorem reported (f : Format) {c : Cache} (hc : c.Faithful) (request : Request)
    (ls : List (List UInt8)) :
    f.Reported request ls ((f.runLines request 1 ls).run c).1 where
  finished := by
    intro outs h
    obtain ⟨c', -, hcontinues⟩ := runLines_append [] h 1 hc
    rw [List.append_nil] at hcontinues
    refine ⟨?_, ?_, hcontinues.failure⟩
    · rw [hcontinues.output]
      exact String.append_empty
    · rw [hcontinues.written, h.length_eq]
      rfl
  stopped := by
    rintro before behind line outs failure rfl hbefore h
    obtain ⟨c', hc', hcontinues⟩ := runLines_append (line :: behind) hbefore 1 hc
    rw [Nat.add_comm] at hcontinues
    obtain ⟨c'', -, hrun⟩ := runLines_fails _ behind hc' h
    rw [hrun] at hcontinues
    refine ⟨?_, ?_, hcontinues.failure, or_iff_not_imp_left.2 h.message⟩
    · rw [hcontinues.output]
      exact String.append_empty
    · rw [hcontinues.written, hbefore.length_eq]
      rfl
  ends := by
    obtain h | ⟨before, line, behind, outs, failure, hls, hbefore, h⟩ :=
      printAll_or_fails f request ls 1
    · exact .inl h
    · rw [Nat.add_comm] at h
      exact .inr ⟨before, line, behind, outs, failure, hls, hbefore, h⟩

section Whole

variable {c : Cache} (compact : Bool) {request : Request} {bytes : List UInt8}

theorem run_unread (h : f.document? bytes = none) :
    (f.run compact request bytes).run c = (.failed .notJson, c) := by
  rw [run, h]
  rfl

theorem run_unprojected (hc : c.Faithful) {tree : Json} {cause : Fault}
    (htree : f.document? bytes = some tree)
    (h : Cache.empty.project tree request = .error cause) :
    ∃ c', c'.Faithful ∧ (f.run compact request bytes).run c = (.failed (.selection cause), c') := by
  obtain ⟨c', hrun, hc'⟩ := Session.run_project_of_error hc h
  refine ⟨c', hc', ?_⟩
  rw [run, htree]
  dsimp only
  rw [StateT.run_bind, hrun]
  rfl

theorem run_projected (hc : c.Faithful) {tree result : Json}
    (htree : f.document? bytes = some tree)
    (h : Cache.empty.project tree request = .ok result) :
    ∃ skipped c', c'.Faithful ∧ (f.run compact request bytes).run c =
      (Report.done.after (f.print compact result) skipped, c') := by
  obtain ⟨p, c', hrun, hc', rfl⟩ := Session.run_project_of_ok hc h
  refine ⟨p.skipped, c', hc', ?_⟩
  rw [run, htree]
  dsimp only
  rw [StateT.run_bind, hrun]
  rfl

/-- A document is printed whole or not at all. -/
theorem exists_run (hc : c.Faithful) (request : Request) (bytes : List UInt8) :
    ∃ r c', (f.run compact request bytes).run c = (r, c') ∧ c'.Faithful
      ∧ (r.failure ≠ none → r.output = "" ∧ r.written = 0) := by
  cases htree : f.document? bytes with
  | none => exact ⟨_, c, run_unread compact htree, hc, fun _ => ⟨rfl, rfl⟩⟩
  | some tree =>
    cases h : Cache.empty.project tree request with
    | error cause =>
      obtain ⟨c', hc', hrun⟩ := run_unprojected compact hc htree h
      exact ⟨_, c', hrun, hc', fun _ => ⟨rfl, rfl⟩⟩
    | ok result =>
      obtain ⟨skipped, c', hc', hrun⟩ := run_projected compact hc htree h
      exact ⟨_, c', hrun, hc', absurd rfl⟩

theorem reportedWhole (hc : c.Faithful) (request : Request) (bytes : List UInt8) :
    f.ReportedWhole compact request bytes ((f.run compact request bytes).run c).1 where
  unread h := by rw [run_unread compact h]
  unprojected htree h := by
    obtain ⟨c', -, hrun⟩ := run_unprojected compact hc htree h
    rw [hrun]
  projected htree h := by
    obtain ⟨skipped, c', -, hrun⟩ := run_projected compact hc htree h
    rw [hrun]
    exact ⟨String.append_empty, rfl, rfl⟩
  silent := by
    obtain ⟨r, c', hrun, -, hsilent⟩ := exists_run compact hc request bytes
    rw [hrun]
    exact hsilent

end Whole

/-- What the engine that a process shares can be used for. -/
inductive Use where
  | project (tree : Json) (request : Request)
  | document (compact : Bool) (request : Request) (bytes : List UInt8)
  | stream (request : Request) (bytes : List UInt8)

def Use.run (f : Format) : Use → StateM Cache Unit
  | project tree request => do let _ ← (Session.project tree request).run
  | document compact request bytes => do let _ ← f.run compact request bytes
  | stream request bytes => do let _ ← f.runStream request bytes

def useAll (f : Format) (uses : List Use) : StateM Cache Unit := uses.forM (Use.run f)

theorem Use.run_faithful (f : Format) (use : Use) {c : Cache} (hc : c.Faithful) :
    ((use.run f).run c).2.Faithful := by
  cases use with
  | project tree request => exact (Session.gives_project tree request c hc).2.1
  | document compact request bytes =>
    obtain ⟨r, c', hrun, hc', -⟩ := exists_run compact hc request bytes
    show ((f.run compact request bytes).run c).2.Faithful
    rw [hrun]
    exact hc'
  | stream request bytes => exact runLines_faithful (lines bytes) 1 hc

theorem useAll_faithful (f : Format) : ∀ (uses : List Use) {c : Cache}, c.Faithful →
    ((f.useAll uses).run c).2.Faithful
  | [], _, hc => hc
  | use :: uses, _, hc => useAll_faithful f uses (use.run_faithful f hc)

/-- After any uses of the engine, a stream and a document are reported as on an engine just made. -/
theorem reported_useAll (f : Format) (uses : List Use) (compact : Bool) (request : Request)
    (bytes : List UInt8) :
    Splits bytes (lines bytes)
      ∧ (∀ ls, Splits bytes ls →
        f.Reported request ls ((do f.useAll uses; f.runStream request bytes).run .empty).1)
      ∧ f.ReportedWhole compact request bytes
        ((do f.useAll uses; f.run compact request bytes).run .empty).1 := by
  have hc := useAll_faithful f uses (Cache.faithful_of_entries_eq (c := .empty) rfl)
  refine ⟨splits_lines bytes, fun ls hls => ?_, reportedWhole compact hc request bytes⟩
  rw [splits_iff.1 hls]
  exact reported f hc request (lines bytes)

theorem reported_useAll_stopped :
    ∃ (uses : List Use) (request : Request) (bytes : List UInt8) (ls : List (List UInt8))
      (r : Report),
      uses = [.project (.obj []) ⟨none, some "b.", some "a"⟩, .stream ⟨none, none, some "a"⟩ [120]]
      ∧ request = ⟨none, none, some "a"⟩
      ∧ bytes = "\x7b\"a\":1\x7d\r\n \n5\nx\n\x7b\x7d".toUTF8.data.toList
      ∧ Splits bytes ls
      ∧ ls = ["\x7b\"a\":1\x7d", " ", "5", "x", "\x7b\x7d"].map (·.toUTF8.data.toList)
      ∧ ((do Json.format.useAll uses; Json.format.runStream request bytes).run .empty).1 = r
      ∧ r.output = "\x7b\x7d\n5\n" ∧ r.written = 2
      ∧ r.failure = some (.notJsonOnLine 4)
      ∧ ((do Json.format.useAll uses; Json.format.run true request bytes).run .empty).1 =
        .failed .notJson := by
  obtain ⟨hsplits, hstream, hwhole⟩ := reported_useAll Json.format
    [.project (.obj []) ⟨none, some "b.", some "a"⟩, .stream ⟨none, none, some "a"⟩ [120]] true
    ⟨none, none, some "a"⟩ ("\x7b\"a\":1\x7d\r\n \n5\nx\n\x7b\x7d".toUTF8.data.toList)
  have hls : lines ("\x7b\"a\":1\x7d\r\n \n5\nx\n\x7b\x7d".toUTF8.data.toList) =
      ["\x7b\"a\":1\x7d", " ", "5", "x", "\x7b\x7d"].map (·.toUTF8.data.toList) := by
    decide +kernel
  have hfirst : Json.format.Prints ⟨none, none, some "a"⟩ ("\x7b\"a\":1\x7d".toUTF8.data.toList)
      (Json.format.compact (.obj [])) :=
    .intro (by decide +kernel : _ = some "\x7b\"a\":1\x7d") (by decide)
      (by decide +kernel : _ = some (.obj [("a", .num (.int 1))])) (by decide +kernel)
  have hsecond : Json.format.Prints ⟨none, none, some "a"⟩ ("5".toUTF8.data.toList)
      (Json.format.compact (.num (.int 5))) :=
    .intro (by decide +kernel : _ = some "5") (by decide)
      (by decide +kernel : _ = some (.num (.int 5))) (by decide +kernel)
  have hfilled : filled (["\x7b\"a\":1\x7d", " ", "5"].map (·.toUTF8.data.toList)) =
      ["\x7b\"a\":1\x7d", "5"].map (·.toUTF8.data.toList) := by
    decide +kernel
  have hbefore : Json.format.PrintAll ⟨none, none, some "a"⟩
      (["\x7b\"a\":1\x7d", " ", "5"].map (·.toUTF8.data.toList))
      [Json.format.compact (.obj []), Json.format.compact (.num (.int 5))] := by
    rw [PrintAll, hfilled]
    exact .cons hfirst (.cons hsecond .nil)
  have hfails : Json.format.Fails ⟨none, none, some "a"⟩ 4 ("x".toUTF8.data.toList)
      (.notJsonOnLine 4) :=
    .notJson (by decide +kernel : _ = some "x") (by decide) (by decide +kernel)
  rw [hls] at hsplits
  obtain ⟨houtput, hwritten, hfailure, -⟩ := (hstream _ hsplits).stopped rfl hbefore hfails
  refine ⟨_, _, _, _, _, rfl, rfl, rfl, hsplits, rfl, rfl, ?_, ?_, hfailure,
    hwhole.unread (by decide +kernel)⟩
  · rw [houtput]
    decide +kernel
  · rw [hwritten, hfilled]
    rfl

end Format

end JsonSelect
