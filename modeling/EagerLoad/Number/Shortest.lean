import EagerLoad.Number.Nearest

/-!
Contract: the shortest decimal digits that read back as a given binary64 value.

Owns: the interval of reals that round to a value, the search over ever finer
decimal grids, and the decimal form `digits * 10 ^ scale` that it finds.

Does not own: how digits are laid out as text (`Json/Number.lean`).

The value lies between two neighbours on every decimal grid. The coarsest grid
on which a neighbour rounds back to the value has the fewest digits; of two such
neighbours the nearer one is taken, and the even one of two equally near.
Everything is compared as natural numbers after clearing the denominators.
-/

set_option autoImplicit false

namespace EagerLoad.Binary64

structure Decimal where
  digits : Nat
  scale : Int
  deriving DecidableEq, Repr

/-- A decimal grid of step `10 ^ scale` beside a value: both are multiples of
one common unit. `step` is the grid's step and `quarter` is a quarter of the
value's last binary place. -/
structure Grid where
  scale : Int
  step : Nat
  quarter : Nat

/-- The grid of step `10 ^ scale` for values whose last place is `2 ^ exponent`. -/
def gridFor (exponent scale : Int) : Grid where
  scale := scale
  step := Nat.pow 10 scale.toNat * Nat.pow 2 (2 - exponent).toNat
  quarter := Nat.pow 2 (exponent - 2).toNat * Nat.pow 10 (-scale).toNat

/-- Half the gap to the next smaller value, in quarters of the last place: the
gap is half as wide below a power of two. -/
def lowerReach (value : Binary64) : Nat :=
  if value.mantissa = Nat.pow 2 52 ∧ value.exponent ≠ -1074 then 1 else 2

/-- Whether the grid point `point` rounds to `value`. The ends of the interval
round to it exactly when its mantissa is even. -/
def admits (value : Binary64) (grid : Grid) (point : Nat) : Bool :=
  let position := point * grid.step
  let low := (4 * value.mantissa - value.lowerReach) * grid.quarter
  let high := (4 * value.mantissa + 2) * grid.quarter
  if value.mantissa % 2 = 0 then
    decide (low ≤ position) && decide (position ≤ high)
  else
    decide (low < position) && decide (position < high)

/-- The nearer of the two grid points around a target, the even one at half way. -/
def nearerPoint (target step below : Nat) : Nat :=
  let middle := (2 * below + 1) * step
  if 2 * target < middle then below
  else if middle < 2 * target then below + 1
  else below + below % 2

/-- The grid point that rounds to `value` and is nearest to it, if one does. -/
def nearestPoint? (value : Binary64) (grid : Grid) : Option Nat :=
  let target := 4 * value.mantissa * grid.quarter
  let below := target / grid.step
  match value.admits grid below, value.admits grid (below + 1) with
  | true, true => some (nearerPoint target grid.step below)
  | true, false => some below
  | false, true => some (below + 1)
  | false, false => none

/-- The power of ten of the leading decimal digit of a positive value. -/
def decimalOrder (value : Binary64) : Int :=
  let scaled := inUnits value.mantissa 1 (-value.exponent)
  if scaled.2 ≤ scaled.1 then
    (decimalLength (scaled.1 / scaled.2) : Int) - 1
  else
    -(decimalLength ((scaled.2 + scaled.1 - 1) / scaled.1 - 1) : Int)

/-- A decimal without its trailing zeros; `fuel` bounds how many are dropped. -/
def dropZeros : Nat → Decimal → Decimal
  | 0, decimal => decimal
  | fuel + 1, decimal =>
      if decimal.digits ≠ 0 ∧ decimal.digits % 10 = 0 then
        dropZeros fuel { digits := decimal.digits / 10, scale := decimal.scale + 1 }
      else
        decimal

/-- The shortest decimal that rounds to the magnitude of `value`, and of several
the nearest. Seventeen digits always suffice. -/
def shortest (value : Binary64) : Decimal :=
  let order := value.decimalOrder
  let found := (List.range 17).findSome? fun (finer : Nat) =>
    let grid := gridFor value.exponent (order - (finer : Int))
    (value.nearestPoint? grid).map fun point => Decimal.mk point grid.scale
  dropZeros 17 (found.getD ⟨0, 0⟩)

end EagerLoad.Binary64
