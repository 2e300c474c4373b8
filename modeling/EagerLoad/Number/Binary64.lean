/-!
Contract: the finite values of the IEEE 754 binary64 format, as exact data.

Owns: the canonical form (sign, mantissa, power of two), signed zero, and the
integer a value denotes when it denotes one.

Does not own: rounding a decimal to a value (`Number/Nearest.lean`) or choosing
the decimal digits of one (`Number/Shortest.lean`). No operation of the
machine's floating point unit is involved anywhere, so every statement about a
value is a statement about natural numbers.
-/

set_option autoImplicit false

namespace EagerLoad

/-- A mantissa and a power of two in canonical form: at most 53 bits, the power
in range, and 53 bits exactly unless the power is the smallest one. -/
def CanonicalBinary64 (mantissa : Nat) (exponent : Int) : Prop :=
  mantissa < Nat.pow 2 53 ∧ -1074 ≤ exponent ∧ exponent ≤ 971 ∧
    (exponent = -1074 ∨ Nat.pow 2 52 ≤ mantissa)

instance (mantissa : Nat) (exponent : Int) :
    Decidable (CanonicalBinary64 mantissa exponent) :=
  inferInstanceAs (Decidable (_ ∧ _))

/-- A finite binary64 value, `± mantissa * 2 ^ exponent`. Zero keeps its sign. -/
structure Binary64 where
  negative : Bool
  mantissa : Nat
  exponent : Int
  canonical : CanonicalBinary64 mantissa exponent
  deriving DecidableEq

namespace Binary64

def zero (negative : Bool) : Binary64 where
  negative := negative
  mantissa := 0
  exponent := -1074
  canonical := by decide

/-- The value with these parts, when they are in canonical form. -/
def ofParts? (negative : Bool) (mantissa : Nat) (exponent : Int) : Option Binary64 :=
  if canonical : CanonicalBinary64 mantissa exponent then
    some { negative, mantissa, exponent, canonical }
  else
    none

/-- The magnitude as a natural number, when the value is integral. -/
def integralMagnitude? (value : Binary64) : Option Nat :=
  if 0 ≤ value.exponent then
    some (value.mantissa * Nat.pow 2 value.exponent.toNat)
  else if value.mantissa % Nat.pow 2 (-value.exponent).toNat = 0 then
    some (value.mantissa / Nat.pow 2 (-value.exponent).toNat)
  else
    none

/-- The integer a value denotes, when it denotes one. Both zeros denote `0`. -/
def integer? (value : Binary64) : Option Int :=
  value.integralMagnitude?.map fun magnitude =>
    if value.negative then -(magnitude : Int) else (magnitude : Int)

@[simp] theorem integer?_zero (negative : Bool) : (zero negative).integer? = some 0 := by
  cases negative <;> decide +kernel

end Binary64

end EagerLoad
