/-
The fewest decimal digits that read back.

A positive number is what every decimal inside its rounding interval reads as: the
reals nearer to it than to either neighbour, and the two midpoints when its
significand is even, since ties go to the even one.  Grids of decimals are tried
from coarse to fine, `10 ^ e` apart for falling `e`, and on each only the two
points next to the number can matter: if any point of the grid lies in the
interval, one of these does.  The first grid with such a point gives the fewest
digits.  When both points lie inside, the nearer one is taken, and of two equally
near ones the larger.

Lengths are counted in quarters of `2 ^ -1074`, so that the ends of the interval
are whole even where the gap below is half the gap above.
-/
import TallyLang.Decimal
import TallyLang.Binary64.Basic

namespace TallyLang

namespace Binary64

/-- How many quarters of `2 ^ -1074` make one. -/
def quartersPerOne : Nat := 4 * unitsPerOne

/-- The number itself, in quarters. -/
def middle (x : Binary64) : Nat := 4 * x.units

/-- The lower end of the rounding interval, in quarters.  The gap below a power of two is half
the gap above it, except at the smallest exponent. -/
def lower (x : Binary64) : Nat :=
  x.middle - (if x.fraction = 0 ∧ 1 < x.exponent then 1 else 2) * Nat.pow 2 x.scale

/-- The upper end of the rounding interval, in quarters. -/
def upper (x : Binary64) : Nat := x.middle + 2 * Nat.pow 2 x.scale

/-- Whether a decimal lies in the rounding interval. -/
def covers (x : Binary64) (d : Decimal) : Bool :=
  let point := d.num * quartersPerOne
  let low := x.lower * d.den
  let high := x.upper * d.den
  if x.significand % 2 = 0 then decide (low ≤ point ∧ point ≤ high)
  else decide (low < point ∧ point < high)

/-- The last point at or below the number among the multiples of `10 ^ e`. -/
def floorOn (x : Binary64) (e : Int) : Nat :=
  x.units * Nat.pow 10 (-e).toNat / (unitsPerOne * Nat.pow 10 e.toNat)

/-- Whether the number lies nearer to `c * 10 ^ e` than to the next multiple of `10 ^ e`. -/
def nearerBelow (x : Binary64) (c : Nat) (e : Int) : Bool :=
  decide (2 * (x.units * Nat.pow 10 (-e).toNat) < (2 * c + 1) * (unitsPerOne * Nat.pow 10 e.toNat))

/-- The point of a grid that reads back as the number, if there is one. -/
def pointOn? (x : Binary64) (e : Int) : Option Decimal :=
  let c := x.floorOn e
  let below : Decimal := ⟨c, e⟩
  let above : Decimal := ⟨c + 1, e⟩
  if x.covers below then
    if x.covers above && !x.nearerBelow c e then some above else some below
  else if x.covers above then some above
  else none

/-- Tries `n` grids from `10 ^ e` on, and takes the next one without trying. -/
def firstPoint (x : Binary64) : Nat → Int → Decimal
  | 0, e => ⟨x.floorOn e, e⟩
  | n + 1, e => (x.pointOn? e).getD (firstPoint x n (e - 1))

/-- An exponent at which the grid is coarser than the number. -/
def coarseExponent (x : Binary64) : Nat := Nat.log2 (x.units / unitsPerOne) / 3 + 1

/-- The decimal with the fewest digits that reads back as the magnitude of a finite number.
The grid of `10 ^ -1074` holds every finite number, so the search ends there at the latest. -/
def shortest (x : Binary64) : Decimal :=
  if x.isZero then ⟨0, 0⟩ else x.firstPoint (x.coarseExponent + 1074) x.coarseExponent

/-- The text of a number: the fewest digits that read back, without an exponent. -/
def text (x : Binary64) : String :=
  if x.isNaN then "NaN"
  else (if x.negative then "-" else "") ++ (if x.isInfinite then "inf" else x.shortest.text)

end Binary64

end TallyLang
