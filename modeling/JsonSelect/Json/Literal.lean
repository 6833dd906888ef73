import JsonSelect.Json.Basic
import JsonSelect.Json.Double
import JsonSelect.Text.Integer

/-!
# Number literals

A literal is split into sign, whole part, fraction and exponent (`Literal.take?`), and read as a
number in one of two ways. Both keep an integer of 64 bits. `Literal.stepwise` takes the leading
digits that fit 64 bits and scales them in steps of powers of ten; an integer beyond 64 bits and
`-0` become doubles. `Literal.exact` takes the nearest double, reads `-0` as the integer zero and
refuses an integer beyond 64 bits. Neither has infinities.
-/

namespace JsonSelect.Json

structure Literal where
  negative : Bool
  whole : List Char
  fraction : Option (List Char)
  exponent : Option Int
  deriving DecidableEq, Repr

namespace Literal

/-- A row of ASCII digits at the front, and the rest. -/
def digits (cs : List Char) : List Char × List Char := cs.span Char.isDigit

/-- The exponent after its letter, and the rest. -/
def takeExponent? (cs : List Char) : Option (Int × List Char) := do
  let (negative, cs) := match cs with
    | '-' :: cs => (true, cs)
    | '+' :: cs => (false, cs)
    | cs => (false, cs)
  let (ds, cs) := digits cs
  let n ← Text.readDigits? ds
  return (if negative then -(n : Int) else n, cs)

/-- The literal at the front, as long as it can be, and the rest. A point or an exponent letter
that stands behind digits belongs to the literal, so digits have to follow it. -/
def take? (cs : List Char) : Option (Literal × List Char) := do
  let (negative, cs) := match cs with
    | '-' :: cs => (true, cs)
    | cs => (false, cs)
  let (whole, cs) := digits cs
  guard (!whole.isEmpty && (whole.length == 1 || whole.head? != some '0'))
  let (fraction, cs) := match cs with
    | '.' :: cs => let (ds, cs) := digits cs; (some ds, cs)
    | cs => (none, cs)
  guard (fraction != some [])
  match cs with
  | [] => return (⟨negative, whole, fraction, none⟩, [])
  | e :: rest =>
    if e == 'e' || e == 'E' then
      let (exponent, rest) ← takeExponent? rest
      return (⟨negative, whole, fraction, some exponent⟩, rest)
    else return (⟨negative, whole, fraction, none⟩, cs)

/-- The number of a double given without its sign. -/
def signed (negative : Bool) (bits : Nat) : Number :=
  .double (UInt64.ofNat (if negative then Double.signBit + bits else bits))

/-- Takes digits into a significand as long as it fits 64 bits, with the number of digits taken. -/
def absorb (significand : Nat) : List Char → Nat × Nat
  | [] => (significand, 0)
  | d :: ds =>
    let larger := 10 * significand + Text.digitValue d
    if larger < Text.bound64 then let (s, taken) := absorb larger ds; (s, taken + 1)
    else (significand, 0)

/-- Whether the literal is written as an integer. -/
def isInteger (l : Literal) : Bool := l.fraction.isNone && l.exponent.isNone

/-- The number of characters before the exponent, sign and point included. -/
def width (l : Literal) : Nat :=
  (if l.negative then 1 else 0) + l.whole.length + (l.fraction.map (·.length + 1)).getD 0

/-- Whether the literal has so many characters that a significand of 64 bits may not hold it. A
wide literal is allowed a tail: it is read to its last digit, with no look at what follows. -/
def isWide (l : Literal) : Bool := if l.isInteger then 19 ≤ l.width else 20 ≤ l.width

def stepwise (l : Literal) : Option Number :=
  let (head, taken) := absorb 0 l.whole
  let left := l.whole.length - taken
  let fits := l.isInteger && left == 0
  if fits && !l.negative then some (.int head)
  else if fits && 0 < head && head ≤ Text.signedBound64 then some (.int (-head))
  else
    let (significand, places) := absorb head (l.fraction.getD [])
    (Double.ofStepwise significand (left - places + l.exponent.getD 0)).map (signed l.negative)

def exact (l : Literal) : Option Number :=
  if l.isInteger then
    let value := Text.digitsValue l.whole
    if l.negative then (if value ≤ Text.signedBound64 then some (.int (-value)) else none)
    else if value < Text.bound64 then some (.int value) else none
  else
    let places := l.fraction.getD []
    let significand := Text.digitsValue (l.whole ++ places)
    (Double.ofDecimal significand (l.exponent.getD 0 - places.length)).map (signed l.negative)

end Literal

end JsonSelect.Json
