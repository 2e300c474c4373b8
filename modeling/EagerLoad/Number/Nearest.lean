import EagerLoad.Number.Binary64

/-!
Contract: the binary64 value nearest to a decimal numeral, ties to the even
mantissa.

Owns: rounding of an exact ratio of natural numbers, and the reading of
`digits * 10 ^ scale` through it.

Does not own: the grammar of numerals. A numeral beyond the largest finite value
has no nearest finite value and gives `none`; one below half the smallest
positive value gives a zero of its sign.
-/

set_option autoImplicit false

namespace EagerLoad.Binary64

/-- The quotient rounded to the nearest natural number, a half to the even one. -/
def roundedQuotient (numerator denominator : Nat) : Nat :=
  let floor := numerator / denominator
  let excess := 2 * (numerator % denominator)
  if excess < denominator then floor
  else if denominator < excess then floor + 1
  else floor + floor % 2

/-- The ratio `numerator / denominator` in units of `2 ^ exponent`, as a new ratio. -/
def inUnits (numerator denominator : Nat) (exponent : Int) : Nat × Nat :=
  if 0 ≤ exponent then
    (numerator, denominator * Nat.pow 2 exponent.toNat)
  else
    (numerator * Nat.pow 2 (-exponent).toNat, denominator)

/-- The greatest power of two not above a positive ratio. -/
def binaryOrder (numerator denominator : Nat) : Int :=
  let estimate : Int := (numerator.log2 : Int) - (denominator.log2 : Int)
  let scaled := inUnits numerator denominator estimate
  if scaled.1 < scaled.2 then estimate - 1 else estimate

/-- The value nearest to a ratio; `none` when the ratio rounds past the largest
finite value. -/
def ofRatio? (negative : Bool) (numerator denominator : Nat) : Option Binary64 :=
  if numerator = 0 then
    some (zero negative)
  else
    let exponent := max (binaryOrder numerator denominator - 52) (-1074)
    let scaled := inUnits numerator denominator exponent
    let mantissa := roundedQuotient scaled.1 scaled.2
    if mantissa = Nat.pow 2 53 then
      ofParts? negative (Nat.pow 2 52) (exponent + 1)
    else
      ofParts? negative mantissa exponent

/-- The number of decimal digits of a natural number, none for zero. -/
def decimalLength (value : Nat) : Nat :=
  if value = 0 then 0 else (Nat.toDigits 10 value).length

/-- The value nearest to `digits * 10 ^ scale`. Orders of magnitude that no
finite value has are answered at once, so that no huge power is computed. -/
def ofDecimal? (negative : Bool) (digits : Nat) (scale : Int) : Option Binary64 :=
  let order : Int := (decimalLength digits : Int) + scale
  if digits = 0 then some (zero negative)
  else if 310 < order then none
  else if order < -330 then some (zero negative)
  else if 0 ≤ scale then ofRatio? negative (digits * Nat.pow 10 scale.toNat) 1
  else ofRatio? negative digits (Nat.pow 10 (-scale).toNat)

end EagerLoad.Binary64
