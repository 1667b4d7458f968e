import Descent.Number.Shortest
import Descent.Text.Basic

/-!
# Written numbers

A number is written with the digits of its shortest decimal: positionally, with
at least one digit on either side of the point, if the first digit stands for at
least `10 ^ (-4)` and for less than `10 ^ 16`, and else with one digit before the
point and an exponent of a sign and at least two digits.
-/

namespace Descent

namespace Binary64

/-- Where positional writing starts and ends, as powers of ten. -/
structure Layout where
  leastPositional : Int
  firstTooLarge : Int

def layout : Layout := ⟨-4, 16⟩

def writtenExponent (e : Int) : Text :=
  let digits := Text.ofNat e.natAbs
  text "e" ++ text (if e < 0 then "-" else "+") ++
    (if digits.length < 2 then text "0" ++ digits else digits)

/-- Digits of which the first one stands for `10 ^ e`. -/
def writtenDigits (digits : Text) (e : Int) : Text :=
  if e < layout.leastPositional ∨ layout.firstTooLarge ≤ e then
    digits.take 1 ++ (if digits.length ≤ 1 then [] else text "." ++ digits.drop 1) ++
      writtenExponent e
  else if e < 0 then
    text "0." ++ List.replicate (-e - 1).toNat (CodePoint.ofChar '0') ++ digits
  else if digits.length ≤ e.toNat + 1 then
    digits ++ List.replicate (e.toNat + 1 - digits.length) (CodePoint.ofChar '0') ++ text ".0"
  else digits.take (e.toNat + 1) ++ text "." ++ digits.drop (e.toNat + 1)

def writtenMagnitude (magnitude : Nat) : Text :=
  if magnitude = 0 then text "0.0"
  else if infinity ≤ magnitude then text "inf"
  else
    let (factor, p) := shortestDecimal magnitude
    let digits := Text.ofNat factor
    writtenDigits digits (p + digits.length - 1)

def written (x : Binary64) : Text :=
  (if x.negative then text "-" else []) ++ writtenMagnitude x.magnitude

end Binary64

end Descent
