import EagerLoad.Proofs.Number.Whole
import EagerLoad.Proofs.Store.History

/-!
Contract: which values are one identity, and that records are kept by identity.

Owns: the values that serve as identities and when two of them are the same; that keys are equal
for the same identity and for no others; what that means for the records of a store.

Does not own: the numerals of integers (`Proofs/Number/Whole.lean`), or what a store holds after
some calls (`History.lean`).

A number serves as an identity when it is whole and read without loss. Whether it was read as an
integer or as a float does not count, and neither does the sign of zero. A text is the same
identity as a number when it is the numeral of the number, and no other text is.
-/

set_option autoImplicit false

namespace EagerLoad

open Json (Value Number Members)

/-! ## Identities -/

/-- A whole number that is read without loss: an integer of 64 bits, signed or unsigned, or an
integral float below `2 ^ 53`. -/
inductive Json.Number.IsExact : Number → Prop
  | integer {value : Int} (low : -2 ^ 63 ≤ value) (high : value < 2 ^ 64) : IsExact (.integer value)
  | float {value : Binary64} {whole : Int} (isWhole : value.toRat = whole)
      (below : |whole| < 2 ^ 53) : IsExact (.float value)

/-- A value that serves as an identity. -/
inductive Json.Value.IsIdentity : Value → Prop
  | string (text : String) : IsIdentity (.string text)
  | bool (flag : Bool) : IsIdentity (.bool flag)
  | number {number : Number} (exact : number.IsExact) : IsIdentity (.number number)

/-- A text that is the numeral of a number. -/
def Json.Number.HasNumeral (number : Number) (text : String) : Prop :=
  ∃ whole : Int, number.toRat = whole ∧ IsNumeral text.toList whole

/-- Two values are the same identity: equal numbers, equal texts, equal flags, a number and its
numeral, or a flag and its name. -/
def Json.Value.SameIdentity : Value → Value → Prop
  | .number first, .number second => first.toRat = second.toRat
  | .number content, .string text => content.HasNumeral text
  | .string text, .number content => content.HasNumeral text
  | .string first, .string second => first = second
  | .bool first, .bool second => first = second
  | .bool flag, .string text => text = toString flag
  | .string text, .bool flag => text = toString flag
  | _, _ => False

/-! ## Keys -/

namespace Json.Number.IsExact

variable {number first second : Number}

/-- The key of an exact number is the numeral of the integer that it is. -/
theorem exists_numeral (exact : number.IsExact) :
    ∃ whole : Int, number.toRat = whole ∧ number.keyText = integerText whole := by
  cases exact with
  | @integer value low high => exact ⟨value, rfl, rfl⟩
  | @float value whole isWhole below =>
      have isInteger := Binary64.integer?_eq_some_iff.2 isWhole
      have small : whole.natAbs < exactIntegerLimit := by
        show whole.natAbs < 2 ^ 53
        rw [Int.abs_eq_natAbs] at below
        exact_mod_cast below
      refine ⟨whole, isWhole, ?_⟩
      simp only [keyText, isInteger, if_pos small]

theorem hasNumeral_iff (exact : number.IsExact) {text : String} :
    number.HasNumeral text ↔ text = number.keyText := by
  obtain ⟨whole, isWhole, isText⟩ := exact.exists_numeral
  rw [isText, ← String.toList_inj, ← isNumeral_iff]
  constructor
  · rintro ⟨other, isOther, isNumeral⟩
    have same : whole = other := Int.cast_injective (isWhole.symm.trans isOther)
    rwa [same]
  · intro isNumeral
    exact ⟨whole, isWhole, isNumeral⟩

theorem keyText_eq_iff (isFirst : first.IsExact) (isSecond : second.IsExact) :
    first.keyText = second.keyText ↔ first.toRat = second.toRat := by
  obtain ⟨firstWhole, isFirstWhole, firstText⟩ := isFirst.exists_numeral
  obtain ⟨secondWhole, isSecondWhole, secondText⟩ := isSecond.exists_numeral
  rw [firstText, secondText, integerText_inj, isFirstWhole, isSecondWhole, Int.cast_inj]

/-- The name of a flag is no numeral. -/
theorem keyText_ne_flag (exact : number.IsExact) (flag : Bool) :
    number.keyText ≠ toString flag := by
  obtain ⟨whole, _, isText⟩ := exact.exists_numeral
  intro same
  have isNumeral : IsNumeral (toString flag).toList whole :=
    isNumeral_iff.2 (by rw [← same, isText])
  have hasLetter : 'e' ∈ (toString flag).toList := by cases flag <;> decide
  exact absurd (isNumeral.isDigit_or_minus hasLetter) (by decide)

end Json.Number.IsExact

namespace RecordKey

variable {first second value : Value}

@[simp] theorem ofValue?_string (text : String) : ofValue? (.string text) = some ⟨text⟩ := rfl

@[simp] theorem ofValue?_bool (flag : Bool) : ofValue? (.bool flag) = some ⟨toString flag⟩ := by
  cases flag <;> rfl

@[simp] theorem ofValue?_number (content : Number) :
    ofValue? (.number content) = some ⟨content.keyText⟩ := rfl

theorem exists_ofValue? (isIdentity : value.IsIdentity) : ∃ key, ofValue? value = some key := by
  cases isIdentity with
  | string text => exact ⟨_, ofValue?_string text⟩
  | bool flag => exact ⟨_, ofValue?_bool flag⟩
  | number exact => exact ⟨_, ofValue?_number _⟩

/-- Keys are equal for the same identity, and for no others. -/
theorem ofValue?_eq_iff (isFirst : first.IsIdentity) (isSecond : second.IsIdentity) :
    ofValue? first = ofValue? second ↔ first.SameIdentity second := by
  cases isFirst with
  | string text =>
      cases isSecond with
      | string other => simp [Value.SameIdentity]
      | bool flag => simp [Value.SameIdentity]
      | number exact => simp [Value.SameIdentity, exact.hasNumeral_iff]
  | bool flag =>
      cases isSecond with
      | string text => simp [Value.SameIdentity, eq_comm]
      | bool other =>
          have sameName_iff : toString flag = toString other ↔ flag = other := by
            cases flag <;> cases other <;> decide
          simp [Value.SameIdentity, sameName_iff]
      | number exact => simp [Value.SameIdentity, (exact.keyText_ne_flag flag).symm]
  | number exact =>
      cases isSecond with
      | string text => simp [Value.SameIdentity, exact.hasNumeral_iff, eq_comm]
      | bool flag => simp [Value.SameIdentity, exact.keyText_ne_flag flag]
      | number otherExact => simp [Value.SameIdentity, exact.keyText_eq_iff otherExact]

end RecordKey

/-! ## Records -/

namespace Store

/-- A stored record has the key of its identity. -/
theorem ofValue?_identity_of_mem {calls : List Call} {entity : String} {record : Record}
    (stored : record ∈ (after calls).records entity) :
    RecordKey.ofValue? record.identity = some record.key := by
  obtain ⟨call, _, _, writes⟩ := mem_written.1 ((holds_after calls entity).mem_written stored)
  exact writes.key

/-- What a store makes of two identities. -/
structure KeptByIdentity (first second : Value) : Prop where
  isKey : ∃ key, RecordKey.ofValue? first = some key
  /-- What has an identity is stored. -/
  stores : ∀ call : Call, ∀ fields : Members, call.content = .object fields →
    fields.get? call.identityField = some first →
      ∃ record, call.Writes record ∧ record.identity = first
  sameKey_iff : RecordKey.ofValue? first = RecordKey.ofValue? second ↔ first.SameIdentity second
  /-- Stored records of the same identity are one record. -/
  unique : ∀ calls entity, ∀ record ∈ (after calls).records entity,
    ∀ other ∈ (after calls).records entity, record.identity = first → other.identity = second →
      (record = other ↔ first.SameIdentity second)
  /-- What any field of any record holds leads to the stored record of the same identity. -/
  found_iff : ∀ calls entity, ∀ record ∈ (after calls).records entity, record.identity = first →
    ∀ holder : Record, ∀ field, holder.fields.get? field = some second →
      ∃ key, holder.keyOf field = some key
        ∧ ((after calls).get? entity key = some record ↔ first.SameIdentity second)
  /-- A record that is written takes the place of one of the same identity, and of no other. -/
  kept_iff : ∀ calls, ∀ call : Call, ∀ record ∈ (after calls).records call.entity,
    record.identity = first → ∀ written, call.Writes written → written.identity = second →
      (record ∈ (after (calls ++ [call])).records call.entity
        ↔ record = written ∨ ¬ first.SameIdentity second)

/-- **Records are kept by identity.** Strings, flags, integers of 64 bits and integral floats below
`2 ^ 53` are keys. Two of them are one key exactly if they are equal as numbers, as texts or as
flags, or if one is a number and the other its numeral, or one a flag and the other its name. So
no two identities share a record, whatever calls were made, and no two spellings of one identity
have records of their own. -/
theorem keptByIdentity_of_isIdentity {first second : Value} (isFirst : first.IsIdentity)
    (isSecond : second.IsIdentity) : KeptByIdentity first second where
  isKey := RecordKey.exists_ofValue? isFirst
  stores := by
    intro call fields isObject isField
    obtain ⟨key, isKey⟩ := RecordKey.exists_ofValue? isFirst
    exact ⟨⟨key, first, fields⟩, ⟨isObject, isField, isKey⟩, rfl⟩
  sameKey_iff := RecordKey.ofValue?_eq_iff isFirst isSecond
  unique := by
    rintro calls entity record stored other otherStored rfl rfl
    rw [← RecordKey.ofValue?_eq_iff isFirst isSecond, ofValue?_identity_of_mem stored,
      ofValue?_identity_of_mem otherStored, Option.some.injEq]
    constructor
    · intro same
      rw [same]
    · intro sameKey
      have found := get?_eq_some_iff.2 ⟨stored, rfl⟩
      rw [sameKey, get?_eq_some_iff.2 ⟨otherStored, rfl⟩] at found
      exact (Option.some.inj found).symm
  found_iff := by
    rintro calls entity record stored rfl holder field holds
    obtain ⟨key, isKey⟩ := RecordKey.exists_ofValue? isSecond
    refine ⟨key, ?_, ?_⟩
    · unfold Record.keyOf
      rw [holds, Option.bind_some, isKey]
    · rw [← RecordKey.ofValue?_eq_iff isFirst isSecond, ofValue?_identity_of_mem stored, isKey,
        get?_eq_some_iff, and_iff_right stored, Option.some.injEq]
  kept_iff := by
    rintro calls call record stored rfl written writes rfl
    rw [after_concat, Call.perform_of_record? (Call.record?_eq_some_iff.2 writes), records_put_self,
      Table.mem_put_iff (nodup_keys_records _ _), and_iff_right stored,
      ← RecordKey.ofValue?_eq_iff isFirst isSecond, ofValue?_identity_of_mem stored, writes.key,
      Option.some.injEq]

/-- Minus zero is kept as the text `0`. -/
theorem keptByIdentity_of_isIdentity_minusZero :
    let minusZero : Value := .number (.float (Binary64.zero true))
    let zero : Value := .string "0"
    minusZero.IsIdentity ∧ zero.IsIdentity ∧ minusZero.SameIdentity zero
      ∧ KeptByIdentity minusZero zero := by
  intro minusZero zero
  have isMinusZero : minusZero.IsIdentity := by
    refine .number (.float (Binary64.integer?_eq_some_iff.1 (Binary64.integer?_zero true)) ?_)
    decide
  have kept := keptByIdentity_of_isIdentity isMinusZero (.string "0")
  have sameKey : RecordKey.ofValue? minusZero = RecordKey.ofValue? zero := by
    simp [minusZero, zero, Number.keyText, exactIntegerLimit, Number.integerText]
  exact ⟨isMinusZero, .string "0", kept.sameKey_iff.1 sameKey, kept⟩

end Store

end EagerLoad
