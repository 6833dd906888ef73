import JsonSelect.Json.Basic
import JsonSelect.Json.Double

/-!
# Printing JSON

The compact text has no spaces; the pretty text indents by two spaces and has one element or member
on a line, save that empty containers stay closed up. In strings only the quote, the backslash and
the control characters are escaped. A double is printed as its shortest decimal, positionally from
`10 ^ -5` up to `10 ^ 16` and with an exponent outside.
-/

namespace JsonSelect

/-- How doubles are laid out: which positions of the decimal point, counted from the first digit,
are written without an exponent. -/
structure DoubleLayout where
  lowestPoint : Int
  highestPoint : Int

/-- At most four zeros follow the point, and at most sixteen digits precede it. -/
def DoubleLayout.json : DoubleLayout := ⟨-4, 16⟩

namespace Double

def zeros (n : Nat) : String := String.ofList (List.replicate n '0')

/-- Digits with a decimal point after the first `point` of them. -/
def withPoint (digits : List Char) (point : Nat) : String :=
  String.ofList (digits.take point) ++ "." ++ String.ofList (digits.drop point)

/-- The exponent with its sign. -/
def exponentText (e : Int) : String :=
  "e" ++ (if e < 0 then "-" else "+") ++ toString e.natAbs

/-- The decimal `d * 10 ^ k`. -/
def decimalText (layout : DoubleLayout) (d : Nat) (k : Int) : String :=
  let digits := (toString d).toList
  let point : Int := digits.length + k
  if layout.lowestPoint ≤ point && point ≤ layout.highestPoint then
    if 0 ≤ k then String.ofList digits ++ zeros k.natAbs ++ ".0"
    else if 0 < point then withPoint digits point.natAbs
    else "0." ++ zeros point.natAbs ++ String.ofList digits
  else if digits.length = 1 then String.ofList digits ++ exponentText (point - 1)
  else withPoint digits 1 ++ exponentText (point - 1)

def text (bits : UInt64) : String :=
  let n := bits.toNat
  let magnitude := n % signBit
  let sign := if n < signBit then "" else "-"
  if magnitude = 0 then sign ++ "0.0"
  else
    let (d, k) := shortest magnitude
    sign ++ decimalText .json d k

end Double

def Number.text : Number → String
  | .int n => toString n
  | .double bits => Double.text bits

namespace Json

def hexDigit (n : Nat) : Char := if n < 10 then Char.ofNat (0x30 + n) else Char.ofNat (0x57 + n)

/-- A character as it stands in a string. -/
def escape (c : Char) : List Char :=
  if c = '"' then ['\\', '"']
  else if c = '\\' then ['\\', '\\']
  else if c = '\x08' then ['\\', 'b']
  else if c = '\x0c' then ['\\', 'f']
  else if c = '\n' then ['\\', 'n']
  else if c = '\r' then ['\\', 'r']
  else if c = '\t' then ['\\', 't']
  else if c.toNat < 0x20 then
    ['\\', 'u', '0', '0', hexDigit (c.toNat / 16), hexDigit (c.toNat % 16)]
  else [c]

def quote (s : String) : String :=
  "\"" ++ String.ofList (s.toList.flatMap escape) ++ "\""

mutual

def compact : Json → String
  | null => "null"
  | bool b => if b then "true" else "false"
  | num n => n.text
  | str s => quote s
  | arr items => "[" ++ compactItems items ++ "]"
  | obj members => "\x7b" ++ compactMembers members ++ "\x7d"

def compactItems : List Json → String
  | [] => ""
  | item :: items =>
    compact item ++ (if items.isEmpty then "" else ",") ++ compactItems items

def compactMembers : List (String × Json) → String
  | [] => ""
  | (key, value) :: members =>
    quote key ++ ":" ++ compact value ++ (if members.isEmpty then "" else ",")
      ++ compactMembers members

end

/-- The start of a new line at a level of nesting. -/
def newline (level : Nat) : String := "\n" ++ String.ofList (List.replicate (2 * level) ' ')

mutual

def prettyAt (level : Nat) : Json → String
  | null => "null"
  | bool b => if b then "true" else "false"
  | num n => n.text
  | str s => quote s
  | arr items =>
    if items.isEmpty then "[]"
    else "[" ++ prettyItems (level + 1) items ++ newline level ++ "]"
  | obj members =>
    if members.isEmpty then "\x7b\x7d"
    else "\x7b" ++ prettyMembers (level + 1) members ++ newline level ++ "\x7d"

def prettyItems (level : Nat) : List Json → String
  | [] => ""
  | item :: items =>
    newline level ++ prettyAt level item ++ (if items.isEmpty then "" else ",")
      ++ prettyItems level items

def prettyMembers (level : Nat) : List (String × Json) → String
  | [] => ""
  | (key, value) :: members =>
    newline level ++ quote key ++ ": " ++ prettyAt level value
      ++ (if members.isEmpty then "" else ",") ++ prettyMembers level members

end

def pretty (v : Json) : String := prettyAt 0 v

end Json

end JsonSelect
