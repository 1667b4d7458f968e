import Descent.Text.Basic

/-!
# Decimal digits and blanks of all scripts

Every script with decimal digits has ten of them in a row, from zero to nine, so
the table holds the zeros alone. A blank is a character that may surround a
written integer: the space, the five controls from tab to carriage return, and
the spaces and line separators beyond the basic set.
-/

namespace Descent

/-- The digit zero of each script, in ascending order. -/
def decimalZeros : List Nat :=
  [48, 1632, 1776, 1984, 2406, 2534, 2662, 2790, 2918, 3046, 3174, 3302, 3430, 3558, 3664, 3792,
   3872, 4160, 4240, 6112, 6160, 6470, 6608, 6784, 6800, 6992, 7088, 7232, 7248, 42528, 43216,
   43264, 43472, 43504, 43600, 44016, 65296, 66720, 68912, 69734, 69872, 69942, 70096, 70384,
   70736, 70864, 71248, 71360, 71472, 71904, 72016, 72784, 73040, 73120, 92768, 92864, 93008,
   120782, 120792, 120802, 120812, 120822, 123200, 123632, 125264, 130032]

namespace CodePoint

/-- The value of a decimal digit of any script. -/
def decimalValue? (c : CodePoint) : Option Nat :=
  (decimalZeros.find? fun z => decide (z ≤ c.val) && decide (c.val < z + 10)).map (c.val - ·)

def isBlank (c : CodePoint) : Bool :=
  decide (9 ≤ c.val) && decide (c.val ≤ 13) || decide (0x2000 ≤ c.val) && decide (c.val ≤ 0x200A) ||
    [0x20, 0x85, 0xA0, 0x1680, 0x2028, 0x2029, 0x202F, 0x205F, 0x3000].contains c.val

/-- A basic digit has its usual value. -/
theorem decimalValue?_of_isDigit {c : CodePoint} (h : c.isDigit = true) :
    c.decimalValue? = some (c.val - 48) := by
  have hc := between_iff.1 h
  have h0 : '0'.toNat = 48 := rfl
  have h9 : '9'.toNat = 57 := rfl
  rw [h0, h9] at hc
  have hlt : c.val < 48 + 10 := by omega
  simp [decimalValue?, decimalZeros, hc.1, hlt]

end CodePoint

end Descent
