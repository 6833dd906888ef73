/-!
# Written integers

An integer is written as an optional sign and one or more ASCII digits; leading zeros are allowed.
Only integers of signed 64 bits are read (`readInteger`).
-/

namespace JsonSelect.Text

def digitValue (c : Char) : Nat := c.toNat - 0x30

/-- The number that a row of ASCII digits stands for. -/
def digitsValue (cs : List Char) : Nat := cs.foldl (fun n c => 10 * n + digitValue c) 0

/-- The number of values of an unsigned integer of 64 bits, `2 ^ 64`. -/
def bound64 : Nat := 18446744073709551616

/-- The bound of the signed integers of 64 bits, `2 ^ 63`; its negative is one of them. -/
def signedBound64 : Nat := 9223372036854775808

def inSigned64 (n : Int) : Bool := -(signedBound64 : Int) ≤ n && n < signedBound64

/-- A row of digits without sign; an empty row is no number. -/
def readDigits? (cs : List Char) : Option Nat :=
  if !cs.isEmpty && cs.all Char.isDigit then some (digitsValue cs) else none

/-- An integer of signed 64 bits. -/
def readInteger? (cs : List Char) : Option Int :=
  let value : Option Int := match cs with
    | '-' :: ds => (readDigits? ds).map fun n => -(n : Int)
    | '+' :: ds => (readDigits? ds).map fun n => (n : Int)
    | ds => (readDigits? ds).map fun n => (n : Int)
  value.filter inSigned64

end JsonSelect.Text
