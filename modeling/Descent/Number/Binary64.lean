/-!
# Binary64 numbers

A number is a sign and a magnitude: the eleven exponent bits and the fifty-two
fraction bits read as one natural number. Magnitudes are ordered as the absolute
values they stand for, and the largest one is infinity; NaN is left out. A finite
absolute value is a whole number of units of `2 ^ (-1074)`.

`ofRatio` rounds a quotient of natural numbers to the nearest number, a tie to
the even magnitude.
-/

namespace Descent

namespace Binary64

/-- The magnitude of infinity. -/
def infinity : Nat := 0x7FF0000000000000

end Binary64

structure Binary64 where
  negative : Bool
  magnitude : Nat
  le_infinity : magnitude ≤ Binary64.infinity
deriving DecidableEq

namespace Binary64

/-- The sixty-four bits, the sign first. -/
def toBits (x : Binary64) : Nat :=
  (if x.negative then 0x8000000000000000 else 0) + x.magnitude

/-- The number of these bits; none of them is NaN. -/
def ofBits? (bits : Nat) : Option Binary64 :=
  let magnitude := bits % 0x8000000000000000
  if h : magnitude ≤ infinity then
    some ⟨decide (0x8000000000000000 ≤ bits), magnitude, h⟩
  else none

def isFinite (x : Binary64) : Bool := decide (x.magnitude < infinity)

/-- One, in units of `2 ^ (-1074)`. -/
def unitsOfOne : Nat := Nat.pow 2 1074

/-- The number of fractions, which are the least fifty-two bits. -/
def fractions : Nat := Nat.pow 2 52

/-- The absolute value of a magnitude in units of `2 ^ (-1074)`. The number after
the largest finite one counts as if the exponents went on. -/
def units (magnitude : Nat) : Nat :=
  if magnitude < fractions then magnitude
  else (fractions + magnitude % fractions) * Nat.pow 2 (magnitude / fractions - 1)

@[simp] theorem units_zero : units 0 = 0 := rfl

/-- The quotient rounded to the nearest natural number, a tie to the even one. -/
def roundQuotient (a b : Nat) : Nat :=
  let q := a / b
  let r := a % b
  if 2 * r < b then q else if b < 2 * r then q + 1 else q + q % 2

/-- The magnitude nearest to `a / b` units, without an upper end: the quotient is
scaled down by the power of two that leaves fifty-three bits of it. -/
def roundUnits (a b : Nat) : Nat :=
  let shift := (a / b).log2 - 52
  shift * fractions + roundQuotient a (b * Nat.pow 2 shift)

/-- A sign and a magnitude, infinity if it is too large. -/
def ofMagnitude (negative : Bool) (magnitude : Nat) : Binary64 :=
  ⟨negative, min magnitude infinity, Nat.min_le_right _ _⟩

/-- The number nearest to `a / b`, with the sign given. -/
def ofRatio (negative : Bool) (a b : Nat) : Binary64 :=
  ofMagnitude negative (roundUnits (a * unitsOfOne) b)

end Binary64

end Descent
