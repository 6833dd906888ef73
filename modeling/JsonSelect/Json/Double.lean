/-!
# Doubles

A finite double without its sign is given by its bits, a natural number below `Double.infinity`.
Its value is a whole number of units of `2 ^ -1074` (`Double.units`), so rounding, products and
quotients are arithmetic of natural numbers: `Double.nearest` takes the double next to a ratio, of
two equally near ones the even one, and nothing if that is beyond the largest double. The bits are
ordered as the values are.

A significand of 64 bits and a decimal exponent can be brought together by one rounding product or
quotient with a power of ten, or, below `10 ^ -308`, by a quotient with `10 ^ 308` at a time
(`Double.ofStepwise`). Each step rounds, so the result can differ from the nearest double in the
last place.
-/

namespace JsonSelect.Double

/-- The number of doubles with one exponent field, `2 ^ 52`. -/
def binade : Nat := 4503599627370496

/-- The bits of infinity; all finite doubles are below. -/
def infinity : Nat := 2047 * binade

/-- The bit that makes a double negative. -/
def signBit : Nat := 2048 * binade

/-- The exponent field. -/
def exponentField (bits : Nat) : Nat := bits / binade

def fraction (bits : Nat) : Nat := bits % binade

/-- The distance to the next double upwards, in units. -/
def spacing (bits : Nat) : Nat := Nat.pow 2 (exponentField bits - 1)

/-- The value in units of `2 ^ -1074`. -/
def units (bits : Nat) : Nat :=
  if exponentField bits = 0 then fraction bits else (binade + fraction bits) * spacing bits

/-- The quotient rounded to the nearest integer, a half to the even neighbour. -/
def roundedQuotient (num den : Nat) : Nat :=
  let q := num / den
  let twice := 2 * (num % den)
  if twice < den || (twice == den && q % 2 == 0) then q else q + 1

/-- The double nearest to `num / den`. -/
def nearest (num den : Nat) : Option Nat :=
  let scaled := num * Nat.pow 2 1074
  let shift := Nat.log2 (scaled / den) - 52
  let bits := shift * binade + roundedQuotient scaled (den * Nat.pow 2 shift)
  if bits < infinity then some bits else none

def product (a b : Nat) : Option Nat := nearest (units a * units b) (Nat.pow 2 2148)

/-- The quotient of two doubles, the second of which is not zero. -/
def quotient (a b : Nat) : Option Nat := nearest (units a) (units b)

/-- The largest power of ten that is applied in one step. -/
def maxStep : Nat := 308

def powerOfTen (n : Nat) : Option Nat := nearest (Nat.pow 10 n) 1

/-- The double `a` divided by `10 ^ n`. -/
def scaleDown (a n : Nat) : Option Nat :=
  if n ≤ maxStep then do quotient a (← powerOfTen n)
  else if a = 0 then some 0
  else do
    let b ← quotient a (← powerOfTen maxStep)
    scaleDown b (n - maxStep)
termination_by n
decreasing_by simp only [maxStep] at *; omega

/-- The double `a` multiplied by `10 ^ n`. -/
def scaleUp (a n : Nat) : Option Nat :=
  if n ≤ maxStep then do product a (← powerOfTen n)
  else if a = 0 then some 0 else none

/-- A significand and a decimal exponent, scaled in steps. -/
def ofStepwise (significand : Nat) (exponent : Int) : Option Nat := do
  let a ← nearest significand 1
  if exponent < 0 then scaleDown a exponent.natAbs else scaleUp a exponent.natAbs

/-- The double nearest to `significand * 10 ^ exponent`. The exponents that leave no doubt are
settled without a power of ten. -/
def ofDecimal (significand : Nat) (exponent : Int) : Option Nat :=
  let length : Int := (toString significand).length
  if significand = 0 || length + exponent < -330 then some 0
  else if length + exponent > 310 then none
  else if exponent < 0 then nearest significand (Nat.pow 10 exponent.natAbs)
  else nearest (significand * Nat.pow 10 exponent.natAbs) 1

/-- The ends of the interval of reals that round to a double, and the double itself between them,
in quarters of a unit. -/
def interval (bits : Nat) : Nat × Nat × Nat :=
  let v := 4 * units bits
  let gap := spacing bits
  let below := if fraction bits = 0 && exponentField bits > 1 then gap else 2 * gap
  (v - below, v, v + 2 * gap)

/-- Of the two neighbours of a double among the multiples of `10 ^ k`, the one nearest to it of
those that round to it, as a multiple. -/
def onGrid? (bits : Nat) (k : Int) : Option Nat :=
  let (lo, v, hi) := interval bits
  let scale := if k < 0 then Nat.pow 10 k.natAbs else 1
  let step := if k < 0 then Nat.pow 2 1076 else Nat.pow 10 k.natAbs * Nat.pow 2 1076
  let (lo, v, hi) := (lo * scale, v * scale, hi * scale)
  let closed := fraction bits % 2 == 0
  let rounds (d : Nat) : Bool :=
    if closed then lo ≤ d * step && d * step ≤ hi else lo < d * step && d * step < hi
  let d := v / step
  let near := roundedQuotient v step
  if rounds near then some near
  else if rounds d then some d
  else if rounds (d + 1) then some (d + 1)
  else none

/-- The first hit among the grids from `10 ^ k` on downwards. -/
def firstOnGrid (bits : Nat) : Nat → Int → Nat × Int
  | 0, k => (0, k)
  | tries + 1, k =>
    match onGrid? bits k with
    | some d => (d, k)
    | none => firstOnGrid bits tries (k - 1)

/-- The decimal with the fewest digits that rounds to a double, as digits and exponent; of several
the nearest. -/
def shortest (bits : Nat) : Nat × Int :=
  let k : Int := ((Nat.log2 (units bits) : Int) - 1074) * 30103 / 100000 + 1
  firstOnGrid bits 25 k

end JsonSelect.Double
