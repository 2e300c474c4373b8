import EagerLoad.Number.Shortest

/-!
Contract: the numbers of a JSON document.

Owns: the three kinds a numeral is read as, by its spelling alone, and the text
that each kind is written with.

Does not own: the grammar of numerals (`Json/Token.lean`).

A numeral without fraction and exponent that fits 64 bits, signed or unsigned, is
an integer. Every other numeral is the nearest binary64 value, including minus
zero and integers that do not fit.
-/

set_option autoImplicit false

namespace EagerLoad.Json

inductive Number where
  | integer (value : Int)
  | float (value : Binary64)
  deriving DecidableEq

namespace Number

/-- Whether an integer fits 64 bits, signed or unsigned. -/
def fitsInteger (value : Int) : Bool :=
  -(Nat.pow 2 63 : Int) ≤ value && value < (Nat.pow 2 64 : Int)

def signed (negative : Bool) (magnitude : Nat) : Int :=
  if negative then -(magnitude : Int) else (magnitude : Int)

/-- The number that a numeral of plain digits denotes. -/
def ofDigits? (negative : Bool) (digits : Nat) : Option Number :=
  let value := signed negative digits
  if fitsInteger value && !(negative && digits == 0) then
    some (.integer value)
  else
    (Binary64.ofDecimal? negative digits 0).map .float

/-- The number that `digits * 10 ^ scale` denotes when its numeral has a fraction
or an exponent; `none` when it is beyond the largest finite value. -/
def ofDecimal? (negative : Bool) (digits : Nat) (scale : Int) : Option Number :=
  (Binary64.ofDecimal? negative digits scale).map .float

/-- The exponents of the leading digit that are written in plain notation. -/
def isPlain (exponent : Int) : Bool :=
  -5 ≤ exponent && exponent ≤ 15

/-- Digits with a point, plainly: zeros fill up to the point, and at least one
digit stands on either side of it. -/
def plainText (digits : List Char) (exponent : Int) : List Char :=
  if exponent < 0 then
    ['0', '.'] ++ List.replicate ((-exponent).toNat - 1) '0' ++ digits
  else
    let whole := exponent.toNat + 1
    if digits.length ≤ whole then
      digits ++ List.replicate (whole - digits.length) '0' ++ ['.', '0']
    else
      digits.take whole ++ ['.'] ++ digits.drop whole

/-- Digits with an exponent: the point stands after the first digit, and the
exponent always has a sign. -/
def scientificText (digits : List Char) (exponent : Int) : List Char :=
  let point := if digits.length ≤ 1 then digits else digits.take 1 ++ ['.'] ++ digits.drop 1
  let sign := if exponent < 0 then '-' else '+'
  point ++ ['e', sign] ++ Nat.toDigits 10 exponent.natAbs

/-- The text of a binary64 value: its shortest digits, in plain notation unless
the value is very large or very small. -/
def floatText (value : Binary64) : String :=
  let sign := if value.negative then ['-'] else []
  if value.mantissa = 0 then
    String.ofList (sign ++ ['0', '.', '0'])
  else
    let shortest := value.shortest
    let digits := Nat.toDigits 10 shortest.digits
    let exponent := shortest.scale + (digits.length : Int) - 1
    let body := if isPlain exponent then plainText digits exponent
      else scientificText digits exponent
    String.ofList (sign ++ body)

def integerText (value : Int) : String :=
  let digits := Nat.toDigits 10 value.natAbs
  String.ofList (if value < 0 then '-' :: digits else digits)

def text : Number → String
  | .integer value => integerText value
  | .float value => floatText value

end Number

end EagerLoad.Json
