import JsonSelect.Text.Blank
import JsonSelect.Text.DecimalDigit

/-!
# Patterns

A pattern is a row of pieces: characters of a class, named groups, the two ends of the text, and the
flag with which the dot takes line feeds too. `Text.Pattern.source` is how it is written and
`Text.Pattern.Matches` what it matches.

An engine looks for a match anywhere in a text and gives what the groups matched. It is lawful if
it finds one whenever there is one and gives the groups of a match (`Text.Engine.Lawful`); which of
several it takes is left open. The greedy engine tries the places of a text from its front and, at
each, as many characters as it can before fewer.
-/

namespace JsonSelect.Text

/-- The characters that a piece takes. -/
inductive CharClass where
  | any
  | blank
  | digit
  | literal (c : Char)
  deriving DecidableEq, Repr

/-- How many characters a piece takes. -/
inductive Quantifier where
  | once
  | optional
  | many
  | atLeastOnce
  deriving DecidableEq, Repr

/-- A piece of a pattern stands in front of the rest. -/
inductive Pattern where
  | done
  | atStart (rest : Pattern)
  | atEnd (rest : Pattern)
  | dotAll (rest : Pattern)
  | chars (kind : CharClass) (quantifier : Quantifier) (rest : Pattern)
  | group (name : String) (inner rest : Pattern)
  deriving DecidableEq, Repr

/-- The names of groups with what they matched. -/
abbrev Groups := List (String × String)

/-- A pattern without alternatives matches each of its groups, so one that it names is there. -/
def Groups.get (groups : Groups) (name : String) : String := (groups.lookup name).getD ""

/-- Without the flag the dot takes no line feed. -/
def CharClass.accepts (dotAll : Bool) : CharClass → Char → Bool
  | any, c => dotAll || c != '\n'
  | blank, c => isBlank c
  | digit, c => isDecimalDigit c
  | literal d, c => c == d

def Quantifier.allows : Quantifier → Nat → Bool
  | once, n => n == 1
  | optional, n => n ≤ 1
  | many, _ => true
  | atLeastOnce, n => 1 ≤ n

/-- The characters that stand for something else when they are not escaped. -/
def metacharacters : List Char :=
  ['\\', '.', '+', '*', '?', '(', ')', '|', '[', ']', '\x7b', '\x7d', '^', '$']

def CharClass.source : CharClass → String
  | any => "."
  | blank => "\\s"
  | digit => "\\d"
  | literal c => (if metacharacters.contains c then "\\" else "") ++ c.toString

def Quantifier.source : Quantifier → String
  | once => ""
  | optional => "?"
  | many => "*"
  | atLeastOnce => "+"

namespace Pattern

def source : Pattern → String
  | done => ""
  | atStart rest => "^" ++ rest.source
  | atEnd rest => "$" ++ rest.source
  | dotAll rest => "(?s)" ++ rest.source
  | chars kind quantifier rest => kind.source ++ quantifier.source ++ rest.source
  | group name inner rest => "(?P<" ++ name ++ ">" ++ inner.source ++ ")" ++ rest.source

/-- A match between what stands before and behind it in a text. A flag holds to the end of the group
that it is set in. -/
inductive Matches : Bool → Pattern → List Char → List Char → List Char → Groups → Prop
  | done {flag : Bool} {before behind : List Char} : Matches flag done before [] behind []
  | atStart {flag : Bool} {rest : Pattern} {matched behind : List Char} {groups : Groups}
      (h : Matches flag rest [] matched behind groups) :
      Matches flag (atStart rest) [] matched behind groups
  | atEnd {flag : Bool} {rest : Pattern} {before : List Char} {groups : Groups}
      (h : Matches flag rest before [] [] groups) :
      Matches flag (atEnd rest) before [] [] groups
  | dotAll {flag : Bool} {rest : Pattern} {before matched behind : List Char} {groups : Groups}
      (h : Matches true rest before matched behind groups) :
      Matches flag (dotAll rest) before matched behind groups
  | chars {flag : Bool} {kind : CharClass} {quantifier : Quantifier} {rest : Pattern}
      {before taken matched behind : List Char} {groups : Groups}
      (hcount : quantifier.allows taken.length) (htaken : ∀ c ∈ taken, kind.accepts flag c)
      (h : Matches flag rest (before ++ taken) matched behind groups) :
      Matches flag (chars kind quantifier rest) before (taken ++ matched) behind groups
  | group {flag : Bool} {name : String} {inner rest : Pattern}
      {before taken matched behind : List Char} {held groups : Groups}
      (hinner : Matches flag inner before taken (matched ++ behind) held)
      (h : Matches flag rest (before ++ taken) matched behind groups) :
      Matches flag (group name inner rest) before (taken ++ matched) behind
        ((name, String.ofList taken) :: (held ++ groups))

/-- Somewhere in the text the pattern matches with these groups. -/
def Occurs (p : Pattern) (text : String) (groups : Groups) : Prop :=
  ∃ before matched behind, text.toList = before ++ (matched ++ behind)
    ∧ p.Matches false before matched behind groups

end Pattern

/-- What finds a pattern in a text and gives what its groups matched there. -/
structure Engine where
  captures? : Pattern → String → Option Groups

namespace Engine

structure Lawful (engine : Engine) : Prop where
  occurs : ∀ {p : Pattern} {text : String} {groups : Groups},
    engine.captures? p text = some groups → p.Occurs text groups
  not_occurs : ∀ {p : Pattern} {text : String}, engine.captures? p text = none →
    ∀ groups, ¬ p.Occurs text groups

end Engine

/-- A match at some place of a text, with what is behind it. -/
structure Way where
  matched : List Char
  behind : List Char
  groups : Groups
  deriving DecidableEq, Repr

/-- The two parts of a text for each place in it, from the front. -/
def splits (cs : List Char) : List (List Char × List Char) :=
  (List.range (cs.length + 1)).map fun n => (cs.take n, cs.drop n)

/-- The ways to match at a place of a text, greedy ones first. -/
def Pattern.ways (flag : Bool) : Pattern → List Char → List Char → List Way
  | done, _, ahead => [⟨[], ahead, []⟩]
  | atStart rest, before, ahead => if before.isEmpty then rest.ways flag before ahead else []
  | atEnd rest, before, ahead => if ahead.isEmpty then rest.ways flag before ahead else []
  | dotAll rest, before, ahead => rest.ways true before ahead
  | chars kind quantifier rest, before, ahead =>
    let takes := (splits ahead).reverse.filter fun (taken, _) =>
      quantifier.allows taken.length && taken.all (kind.accepts flag)
    takes.flatMap fun (taken, behind) =>
      (rest.ways flag (before ++ taken) behind).map fun w =>
        { w with matched := taken ++ w.matched }
  | group name inner rest, before, ahead =>
    (inner.ways flag before ahead).flatMap fun held =>
      (rest.ways flag (before ++ held.matched) held.behind).map fun w =>
        ⟨held.matched ++ w.matched, w.behind,
          (name, String.ofList held.matched) :: (held.groups ++ w.groups)⟩

/-- The ways to match anywhere in a text, those that begin further in front first. -/
def Pattern.waysIn (p : Pattern) (text : String) : List Way :=
  (splits text.toList).flatMap fun cut => p.ways false cut.1 cut.2

def Engine.greedy : Engine where
  captures? p text := (p.waysIn text).head?.map Way.groups

end JsonSelect.Text
