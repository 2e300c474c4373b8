import EagerLoad.Json.Number
import Mathlib.Algebra.Order.Field.Rat
import Mathlib.Algebra.Order.Field.Power
import Mathlib.Tactic.Positivity

/-!
Contract: whole numbers, as rational numbers and as numerals.

Owns: the rational number that a number is, and when it is an integer; the numerals of integers,
as a grammar, and that each integer has one numeral, the text that is written for it.

Does not own: the text of numbers that are not whole (`Number/Shortest.lean`), or what keys are
made of numbers (`Proofs/Store/Identity.lean`).
-/

set_option autoImplicit false

namespace EagerLoad

/-! ## Numbers as rational numbers -/

namespace Binary64

/-- The rational number that a value is. Both zeros are zero. -/
def toRat (value : Binary64) : ℚ :=
  (if value.negative then -1 else 1) * (value.mantissa * 2 ^ value.exponent)

theorem integralMagnitude?_eq_some_iff {value : Binary64} {magnitude : Nat} :
    value.integralMagnitude? = some magnitude
      ↔ (value.mantissa : ℚ) * 2 ^ value.exponent = magnitude := by
  obtain ⟨negative, mantissa, exponent, canonical⟩ := value
  unfold integralMagnitude?
  simp only
  by_cases isWhole : 0 ≤ exponent
  · obtain ⟨places, rfl⟩ := Int.eq_ofNat_of_zero_le isWhole
    rw [if_pos isWhole, Option.some.injEq, Int.toNat_natCast, zpow_natCast]
    constructor
    · rintro rfl
      push_cast [Nat.pow_eq]
      rfl
    · intro same
      exact_mod_cast same
  · obtain ⟨places, rfl⟩ : ∃ places : Nat, exponent = -(places : Int) :=
      ⟨exponent.natAbs, by omega⟩
    -- Below the point, the value is whole if the power of two divides the mantissa.
    have isQuotient : (mantissa : ℚ) * 2 ^ (-(places : Int)) = magnitude
        ↔ mantissa = magnitude * 2 ^ places := by
      rw [zpow_neg, zpow_natCast, ← div_eq_mul_inv, div_eq_iff (by positivity)]
      exact_mod_cast Iff.rfl
    have positive : 0 < 2 ^ places := Nat.two_pow_pos places
    rw [if_neg isWhole, isQuotient, neg_neg, Int.toNat_natCast]
    change (if mantissa % 2 ^ places = 0 then some (mantissa / 2 ^ places) else none) = _ ↔ _
    split
    · rename_i divides
      rw [Option.some.injEq, Nat.div_eq_iff_eq_mul_left positive (Nat.dvd_of_mod_eq_zero divides)]
    · rename_i remains
      constructor
      · intro impossible
        cases impossible
      · rintro rfl
        exact absurd (Nat.mul_mod_left _ _) remains

theorem integer?_eq_some_iff_magnitude {value : Binary64} {whole : Int} :
    value.integer? = some whole
      ↔ ∃ magnitude : Nat, value.integralMagnitude? = some magnitude
          ∧ (if value.negative then -(magnitude : Int) else magnitude) = whole := by
  unfold integer?
  cases value.integralMagnitude? <;> simp

/-- A value denotes an integer if and only if the integer is the rational number that it is. -/
theorem integer?_eq_some_iff {value : Binary64} {whole : Int} :
    value.integer? = some whole ↔ value.toRat = whole := by
  rw [integer?_eq_some_iff_magnitude, toRat]
  simp only [integralMagnitude?_eq_some_iff]
  have notNegative : (0 : ℚ) ≤ value.mantissa * 2 ^ value.exponent := by positivity
  constructor
  · rintro ⟨magnitude, isMagnitude, rfl⟩
    rw [isMagnitude]
    cases value.negative <;> simp
  · intro isWhole
    cases sign : value.negative with
    | false =>
        simp only [sign, Bool.false_eq_true, if_false, one_mul] at isWhole ⊢
        have wholeNotNegative : 0 ≤ whole := by
          rw [isWhole] at notNegative
          exact_mod_cast notNegative
        obtain ⟨magnitude, rfl⟩ := Int.eq_ofNat_of_zero_le wholeNotNegative
        exact ⟨magnitude, by simpa using isWhole, rfl⟩
    | true =>
        simp only [sign, if_true, neg_one_mul] at isWhole ⊢
        have opposite : (value.mantissa : ℚ) * 2 ^ value.exponent = ((-whole : Int) : ℚ) := by
          rw [Int.cast_neg, ← isWhole, neg_neg]
        have wholeNotPositive : 0 ≤ -whole := by
          rw [opposite] at notNegative
          exact_mod_cast notNegative
        obtain ⟨magnitude, isMagnitude⟩ := Int.eq_ofNat_of_zero_le wholeNotPositive
        refine ⟨magnitude, ?_, by omega⟩
        rw [opposite, isMagnitude]
        simp

end Binary64

namespace Json.Number

/-- The rational number that a number is. -/
def toRat : Number → ℚ
  | .integer value => value
  | .float value => value.toRat

/-! ## Numerals -/

/-- Decimal digits without needless zeros in front. -/
structure IsPlainDigits (digits : List Char) : Prop where
  notEmpty : digits ≠ []
  areDigits : ∀ char ∈ digits, char.isDigit = true
  noNeedlessZero : digits.head? = some '0' → digits = ['0']

/-- The numeral of an integer: plain digits that denote it, behind a minus sign when it is
negative. There is no numeral `-0`, none with a plus sign, and none with a fraction. -/
inductive IsNumeral : List Char → Int → Prop
  | unsigned {digits : List Char} (plain : IsPlainDigits digits) :
      IsNumeral digits (Nat.ofDigitChars 10 digits 0)
  | negative {digits : List Char} (plain : IsPlainDigits digits) (notZero : digits ≠ ['0']) :
      IsNumeral ('-' :: digits) (-(Nat.ofDigitChars 10 digits 0 : Int))

theorem digitChar_of_isDigit {char : Char} (isDigit : char.isDigit = true) :
    char.toNat - '0'.toNat < 10 ∧ Nat.digitChar (char.toNat - '0'.toNat) = char := by
  have inRange : 48 ≤ char.toNat ∧ char.toNat ≤ 57 := by
    simpa [Char.isDigit, UInt32.le_iff_toNat_le] using isDigit
  have isZero : '0'.toNat = 48 := rfl
  have small : char.toNat - '0'.toNat < 10 := by omega
  refine ⟨small, Char.toNat_inj.1 ?_⟩
  rw [Nat.toNat_digitChar_of_lt_ten small]
  omega

/-- Digits behind those of a positive number are those of the number that they make together. -/
theorem toDigits_append {number : Nat} (positive : 0 < number) {digits : List Char}
    (areDigits : ∀ char ∈ digits, char.isDigit = true) :
    Nat.toDigits 10 number ++ digits = Nat.toDigits 10 (Nat.ofDigitChars 10 digits number) := by
  induction digits generalizing number with
  | nil => simp
  | cons char rest inductionHypothesis =>
      obtain ⟨isDigit, restDigits⟩ := List.forall_mem_cons.1 areDigits
      obtain ⟨small, isChar⟩ := digitChar_of_isDigit isDigit
      have extended := Nat.toDigits_append_toDigits (b := 10) (by decide) positive small
      rw [Nat.toDigits_of_lt_base small, isChar] at extended
      rw [Nat.ofDigitChars_cons, ← inductionHypothesis (by omega) restDigits, ← extended,
        List.append_assoc, List.singleton_append]

/-- Plain digits are those of the number that they denote. The first of them is zero only where it
is the only one, so that the number in front of the others is positive. -/
theorem IsPlainDigits.eq_toDigits {digits : List Char} (plain : IsPlainDigits digits) :
    digits = Nat.toDigits 10 (Nat.ofDigitChars 10 digits 0) := by
  cases digits with
  | nil => exact absurd rfl plain.notEmpty
  | cons char rest =>
      obtain ⟨isDigit, restDigits⟩ := List.forall_mem_cons.1 plain.areDigits
      by_cases isZero : char = '0'
      · rw [plain.noNeedlessZero (congrArg some isZero)]
        rfl
      · obtain ⟨small, isChar⟩ := digitChar_of_isDigit isDigit
        have positive : 0 < char.toNat - '0'.toNat := by
          apply Nat.pos_of_ne_zero
          intro none
          rw [none] at isChar
          exact isZero isChar.symm
        rw [Nat.ofDigitChars_cons, Nat.mul_zero, Nat.zero_add,
          ← toDigits_append positive restDigits, Nat.toDigits_of_lt_base small, isChar,
          List.singleton_append]

theorem eq_zero_of_head?_toDigits {number : Nat}
    (startsWithZero : (Nat.toDigits 10 number).head? = some '0') : number = 0 := by
  induction number using Nat.strongRecOn with
  | ind number inductionHypothesis =>
      rw [Nat.toDigits_eq_if (by decide)] at startsWithZero
      split at startsWithZero
      · simpa using startsWithZero
      · rw [List.head?_append_of_ne_nil _ Nat.toDigits_ne_nil] at startsWithZero
        have noTens := inductionHypothesis (number / 10) (by omega) startsWithZero
        omega

theorem isPlainDigits_toDigits (number : Nat) : IsPlainDigits (Nat.toDigits 10 number) where
  notEmpty := Nat.toDigits_ne_nil
  areDigits _ member := Nat.isDigit_of_mem_toDigits (by decide) (by decide) member
  noNeedlessZero startsWithZero := by
    rw [eq_zero_of_head?_toDigits startsWithZero]
    rfl

theorem IsPlainDigits.pos_of_ne_zero {digits : List Char} (plain : IsPlainDigits digits)
    (notZero : digits ≠ ['0']) : 0 < Nat.ofDigitChars 10 digits 0 := by
  apply Nat.pos_of_ne_zero
  intro isZero
  have digitsOfZero := plain.eq_toDigits
  rw [isZero] at digitsOfZero
  exact notZero digitsOfZero

theorem isNumeral_natCast (number : Nat) : IsNumeral (Nat.toDigits 10 number) number := by
  have isNumeral := IsNumeral.unsigned (isPlainDigits_toDigits number)
  rwa [Nat.ofDigitChars_ten_toDigits] at isNumeral

theorem isNumeral_neg {number : Nat} (positive : 0 < number) :
    IsNumeral ('-' :: Nat.toDigits 10 number) (-(number : Int)) := by
  have notZero : Nat.toDigits 10 number ≠ ['0'] := by
    intro isZero
    have startsWithZero : (Nat.toDigits 10 number).head? = some '0' := by rw [isZero]; rfl
    have noNumber := eq_zero_of_head?_toDigits startsWithZero
    omega
  have isNumeral := IsNumeral.negative (isPlainDigits_toDigits number) notZero
  rwa [Nat.ofDigitChars_ten_toDigits] at isNumeral

namespace IsNumeral

variable {text : List Char} {value first second : Int}

/-- A numeral denotes one integer. -/
theorem unique (isFirst : IsNumeral text first) (isSecond : IsNumeral text second) :
    first = second := by
  have noSign : ∀ digits, ¬ IsPlainDigits ('-' :: digits) := by
    intro digits plain
    exact absurd (plain.areDigits '-' List.mem_cons_self) (by decide)
  cases isFirst with
  | unsigned plain =>
      cases isSecond with
      | unsigned otherPlain => rfl
      | negative otherPlain notZero => exact absurd plain (noSign _)
  | negative plain notZero =>
      cases isSecond with
      | unsigned otherPlain => exact absurd otherPlain (noSign _)
      | negative otherPlain otherNotZero => rfl

theorem isDigit_or_minus (isNumeral : IsNumeral text value) {char : Char} (member : char ∈ text) :
    char.isDigit = true ∨ char = '-' := by
  cases isNumeral with
  | unsigned plain => exact .inl (plain.areDigits char member)
  | negative plain notZero =>
      rcases List.mem_cons.1 member with isSign | isDigit
      · exact .inr isSign
      · exact .inl (plain.areDigits char isDigit)

end IsNumeral

/-! ## The text of an integer -/

theorem toList_integerText_natCast (number : Nat) :
    (integerText (number : Int)).toList = Nat.toDigits 10 number := by
  simp [integerText]

theorem toList_integerText_neg {number : Nat} (positive : 0 < number) :
    (integerText (-(number : Int))).toList = '-' :: Nat.toDigits 10 number := by
  simp [integerText, positive]

/-- The text that is written for an integer is its numeral, and it has no other. -/
theorem isNumeral_iff {text : List Char} {value : Int} :
    IsNumeral text value ↔ text = (integerText value).toList := by
  constructor
  · intro isNumeral
    cases isNumeral with
    | unsigned plain => rw [toList_integerText_natCast, ← plain.eq_toDigits]
    | negative plain notZero =>
        rw [toList_integerText_neg (plain.pos_of_ne_zero notZero), ← plain.eq_toDigits]
  · rintro rfl
    obtain ⟨number, rfl | rfl⟩ := value.eq_nat_or_neg
    · rw [toList_integerText_natCast]
      exact isNumeral_natCast number
    · -- Minus zero is zero, and its text has no sign.
      rcases Nat.eq_zero_or_pos number with rfl | positive
      · exact isNumeral_natCast 0
      · rw [toList_integerText_neg positive]
        exact isNumeral_neg positive

theorem integerText_inj {first second : Int} :
    integerText first = integerText second ↔ first = second := by
  constructor
  · intro same
    have isFirst : IsNumeral (integerText first).toList first := isNumeral_iff.2 rfl
    have isSecond : IsNumeral (integerText first).toList second :=
      isNumeral_iff.2 (congrArg String.toList same)
    exact isFirst.unique isSecond
  · rintro rfl
    rfl

end Json.Number

end EagerLoad
