import EagerLoad.Json.Value
import Mathlib.Data.List.Forall2

/-!
Contract: JSON values up to the order of object members.

Owns: which values are the same, with objects as maps from keys to values and arrays in
order.

Does not own: which values records show as (`Query/Shown.lean`).
-/

set_option autoImplicit false

namespace EagerLoad.Json.Value

/-- Values are the same if they are equal but for the order of members. Objects have the same
value or none at each key, and arrays the same items in the same places. -/
inductive Same : Value → Value → Prop
  | null : Same .null .null
  | bool (flag : Bool) : Same (.bool flag) (.bool flag)
  | number (content : Number) : Same (.number content) (.number content)
  | string (text : String) : Same (.string text) (.string text)
  | array {left right : List Value} (items : List.Forall₂ Same left right) :
      Same (.array left) (.array right)
  | object {left right : Members}
      (members : ∀ key, Option.Rel Same (left.get? key) (right.get? key)) :
      Same (.object left) (.object right)

mutual

theorem Same.refl : ∀ value : Value, Same value value
  | .null => .null
  | .bool flag => .bool flag
  | .number content => .number content
  | .string text => .string text
  | .array items => .array (Same.refl_items items)
  | .object members => .object (Same.refl_members members)

theorem Same.refl_items : ∀ items : List Value, List.Forall₂ Same items items
  | [] => .nil
  | item :: rest => .cons (Same.refl item) (Same.refl_items rest)

theorem Same.refl_members :
    ∀ (members : Members) (key : String), Option.Rel Same (members.get? key) (members.get? key)
  | [], _ => .none
  | (other, value) :: rest, key => by
      by_cases same : key = other
      · rw [same, Members.get?_cons_self]
        exact .some (Same.refl value)
      · rw [Members.get?_cons_of_ne value rest same]
        exact Same.refl_members rest key

end

/-- The same value, or none, on both sides. -/
theorem Same.refl? (value : Option Value) : Option.Rel Same value value := by
  cases value with
  | none => exact .none
  | some value => exact .some (.refl value)

end EagerLoad.Json.Value
