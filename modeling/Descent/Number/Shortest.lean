import Descent.Number.Binary64

/-!
# Shortest decimals

The reals that round to a binary64 number are an interval around it, whose ends
belong to it if the magnitude is even. `shortestDecimal` searches the grids of
the multiples of `10 ^ p` from a coarse one to finer ones: the first grid with a
point in the interval gives the fewest digits, and of its points the one nearest
to the number is taken.
-/

namespace Descent

namespace Binary64

/-- Whether `a / b`, counted in half units, rounds to the magnitude: it lies
between the midpoints to the two neighbours. -/
def roundsTo (magnitude a b : Nat) : Bool :=
  let low := (units (magnitude - 1) + units magnitude) * b
  let high := (units magnitude + units (magnitude + 1)) * b
  if magnitude % 2 = 0 then decide (low ≤ a) && decide (a ≤ high)
  else decide (low < a) && decide (a < high)

/-- Of the two multiples of `10 ^ p` around the magnitude those that round to it,
and of these the nearer one, by its factor. A tie goes to the even factor. -/
def nearestOnGrid? (magnitude : Nat) (p : Int) : Option Nat :=
  let step := 2 * unitsOfOne * Nat.pow 10 p.toNat
  let scale := Nat.pow 10 (-p).toNat
  let value := 2 * units magnitude * scale
  let below := value / step
  let above := below + 1
  match roundsTo magnitude (below * step) scale, roundsTo magnitude (above * step) scale with
  | false, false => none
  | true, false => some below
  | false, true => some above
  | true, true =>
    let r := value % step
    if 2 * r < step then some below
    else if step < 2 * r then some above
    else some (below + below % 2)

/-- The search from the grid of `10 ^ (n - 324)` to finer ones. The finest grid
has a point in every interval. -/
def searchGrids (magnitude : Nat) : Nat → Nat × Int
  | 0 => ((nearestOnGrid? magnitude (-324)).getD 0, -324)
  | n + 1 =>
    match nearestOnGrid? magnitude ((n + 1 : Nat) - 324) with
    | some c => (c, (n + 1 : Nat) - 324)
    | none => searchGrids magnitude n

/-- A power of ten that is larger than the magnitude, shifted by 324: a number of
`b` bits has at most `b * 0.30103 + 1` digits. -/
def coarsestGrid (magnitude : Nat) : Nat :=
  (((units magnitude).log2 + 1) * 30103) / 100000 + 3

/-- Factor and power of ten of the decimal with the fewest digits that rounds to
a magnitude which is neither zero nor infinity, and the nearest one of these. -/
def shortestDecimal (magnitude : Nat) : Nat × Int :=
  searchGrids magnitude (coarsestGrid magnitude)

end Binary64

end Descent
