/-!
# Blank characters

The characters with the Unicode property White_Space, and what is left of a text when they are
taken off both its ends. The zero-width space and the byte order mark are not among them.
-/

namespace JsonSelect.Text

/-- The property White_Space. -/
def isBlank (c : Char) : Bool :=
  let n := c.toNat
  (9 ≤ n && n ≤ 13) || n == 0x20 || n == 0x85 || n == 0xA0 || n == 0x1680
    || (0x2000 ≤ n && n ≤ 0x200A) || n == 0x2028 || n == 0x2029 || n == 0x202F || n == 0x205F
    || n == 0x3000

/-- What is left once the blanks at both ends are gone. -/
def strip (cs : List Char) : List Char :=
  ((cs.dropWhile isBlank).reverse.dropWhile isBlank).reverse

def trim (s : String) : String := String.ofList (strip s.toList)

/-- A text of blanks only, or of nothing. -/
def allBlank (s : String) : Bool := s.toList.all isBlank

end JsonSelect.Text
