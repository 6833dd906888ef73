/-!
# Lexemes of a JSON text

A text is cut into punctuation, strings with their escapes resolved, and words: longest runs of
other characters, whose meaning is settled later. White space is space, tab, line feed and carriage
return. A quote behind an odd row of backslashes belongs to the word that it stands in, any other
ends it. `Lexeme.ofChars?` refuses a text with an open string, a control character in a string, an
unknown escape, or an escape that names half of a surrogate pair alone.
-/

namespace JsonSelect.Json

inductive Lexeme where
  | openArray
  | closeArray
  | openObject
  | closeObject
  | comma
  | colon
  | str (text : String)
  | word (chars : List Char)
  deriving DecidableEq, Repr

namespace Lexeme

def isSpace (c : Char) : Bool := c == ' ' || c == '\t' || c == '\n' || c == '\r'

def punctuation? (c : Char) : Option Lexeme :=
  if c = '[' then some openArray
  else if c = ']' then some closeArray
  else if c = '\x7b' then some openObject
  else if c = '\x7d' then some closeObject
  else if c = ',' then some comma
  else if c = ':' then some colon
  else none

/-- Where a scan stands. Texts are held in reverse; `high` is the first half of a surrogate pair
that waits for its second half, and `left` counts the hexadecimal digits still to come. -/
inductive Mode where
  | between
  | word (text : List Char)
  | quoted (text : List Char) (high : Option Nat)
  | escape (text : List Char) (high : Option Nat)
  | hex (text : List Char) (high : Option Nat) (left value : Nat)
  deriving DecidableEq, Repr

/-- A scan's mode and the lexemes behind it, in reverse. -/
structure Scan where
  mode : Mode
  lexemes : List Lexeme

def hexValue? (c : Char) : Option Nat :=
  if c.isDigit then some (c.toNat - 0x30)
  else if 'a' ≤ c ∧ c ≤ 'f' then some (c.toNat - 0x61 + 10)
  else if 'A' ≤ c ∧ c ≤ 'F' then some (c.toNat - 0x41 + 10)
  else none

def escaped? (c : Char) : Option Char :=
  if c = '"' ∨ c = '\\' ∨ c = '/' then some c
  else if c = 'b' then some '\x08'
  else if c = 'f' then some '\x0c'
  else if c = 'n' then some '\n'
  else if c = 'r' then some '\r'
  else if c = 't' then some '\t'
  else none

def isHigh (n : Nat) : Bool := 0xD800 ≤ n && n < 0xDC00

def isLow (n : Nat) : Bool := 0xDC00 ≤ n && n < 0xE000

/-- The mode after an escaped code unit. -/
def afterUnit (text : List Char) (high : Option Nat) (unit : Nat) : Option Mode :=
  match high with
  | some h =>
    if isLow unit then
      some (.quoted (Char.ofNat (0x10000 + (h - 0xD800) * 0x400 + (unit - 0xDC00)) :: text) none)
    else none
  | none =>
    if isHigh unit then some (.quoted text (some unit))
    else if isLow unit then none
    else some (.quoted (Char.ofNat unit :: text) none)

/-- Whether `text`, held in reverse, ends in an odd row of backslashes. -/
def endsInEscape (text : List Char) : Bool := (text.takeWhile (· == '\\')).length % 2 == 1

/-- Whether a character ends the word `text`, held in reverse. -/
def endsWord (text : List Char) (c : Char) : Bool :=
  isSpace c || (punctuation? c).isSome || (c == '"' && !endsInEscape text)

/-- A character outside strings, with the lexemes before it. -/
def stepBetween (lexemes : List Lexeme) (c : Char) : Scan :=
  if isSpace c then ⟨.between, lexemes⟩
  else if c = '"' then ⟨.quoted [] none, lexemes⟩
  else match punctuation? c with
    | some p => ⟨.between, p :: lexemes⟩
    | none => ⟨.word [c], lexemes⟩

def step (s : Scan) (c : Char) : Option Scan :=
  match s.mode with
  | .between => some (stepBetween s.lexemes c)
  | .word text =>
    if endsWord text c then some (stepBetween (.word text.reverse :: s.lexemes) c)
    else some ⟨.word (c :: text), s.lexemes⟩
  | .quoted text high =>
    if c = '\\' then some ⟨.escape text high, s.lexemes⟩
    else if high.isSome then none
    else if c = '"' then some ⟨.between, .str (String.ofList text.reverse) :: s.lexemes⟩
    else if c.toNat < 0x20 then none
    else some ⟨.quoted (c :: text) none, s.lexemes⟩
  | .escape text high =>
    if c = 'u' then some ⟨.hex text high 4 0, s.lexemes⟩
    else if high.isSome then none
    else (escaped? c).map fun e => ⟨.quoted (e :: text) none, s.lexemes⟩
  | .hex text high left value => do
    let unit := 16 * value + (← hexValue? c)
    if left ≤ 1 then (afterUnit text high unit).map fun mode => ⟨mode, s.lexemes⟩
    else some ⟨.hex text high (left - 1) unit, s.lexemes⟩

def finish? (s : Scan) : Option (List Lexeme) :=
  match s.mode with
  | .between => some s.lexemes.reverse
  | .word text => some (.word text.reverse :: s.lexemes).reverse
  | _ => none

def ofChars? (cs : List Char) : Option (List Lexeme) := do
  finish? (← cs.foldlM step ⟨.between, []⟩)

end Lexeme

end JsonSelect.Json
