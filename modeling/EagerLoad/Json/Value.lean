import EagerLoad.Json.Number

/-!
Contract: JSON values.

Owns: the value type, and objects as lists of members kept in ascending order of
their keys, one member a key.

Does not own: reading a value from text (`Json/Document.lean`) or writing one
(`Json/Text.lean`).
-/

set_option autoImplicit false

namespace EagerLoad.Json

/-- A JSON value. The members of an object built by `Members.insert` are in
ascending order of their keys. -/
inductive Value where
  | null
  | bool (flag : Bool)
  | number (number : Number)
  | string (text : String)
  | array (items : List Value)
  | object (members : List (String × Value))
  deriving Inhabited

namespace Value

mutual

/-- How many arrays and objects of a value nest in one another. -/
def nesting : Value → Nat
  | .null | .bool _ | .number _ | .string _ => 0
  | .array items => itemsNesting items + 1
  | .object members => membersNesting members + 1

def itemsNesting : List Value → Nat
  | [] => 0
  | item :: rest => max item.nesting (itemsNesting rest)

def membersNesting : List (String × Value) → Nat
  | [] => 0
  | (_, value) :: rest => max value.nesting (membersNesting rest)

end

end Value

abbrev Members := List (String × Value)

namespace Members

def get? (members : Members) (key : String) : Option Value :=
  members.lookup key

/-- Sets a member: a member of that key gives way in place, a new one goes
before the first greater key. -/
def insert (members : Members) (key : String) (value : Value) : Members :=
  match members with
  | [] => [(key, value)]
  | (other, kept) :: rest =>
      if key = other then (key, value) :: rest
      else if key < other then (key, value) :: (other, kept) :: rest
      else (other, kept) :: insert rest key value

/-- The object with these members, a later member of a key replacing an earlier one. -/
def ofList (entries : List (String × Value)) : Members :=
  entries.foldl (fun members entry => insert members entry.1 entry.2) []

@[simp] theorem get?_cons_self (key : String) (value : Value) (rest : Members) :
    get? ((key, value) :: rest) key = some value := by
  simp [get?]

theorem get?_cons_of_ne {key other : String} (value : Value) (rest : Members)
    (distinct : key ≠ other) : get? ((other, value) :: rest) key = get? rest key := by
  have unequal : (key == other) = false := by simp [distinct]
  simp [get?, List.lookup_cons, unequal]

@[simp] theorem get?_insert_self (members : Members) (key : String) (value : Value) :
    (members.insert key value).get? key = some value := by
  induction members with
  | nil => simp [insert]
  | cons entry rest inductionHypothesis =>
    obtain ⟨other, kept⟩ := entry
    unfold insert
    by_cases same : key = other
    · simp [same]
    · by_cases before : key < other
      · simp [same, before]
      · simp only [same, before, if_false]
        rw [get?_cons_of_ne _ _ same]
        exact inductionHypothesis

theorem get?_insert_of_ne {key other : String} (members : Members) (value : Value)
    (distinct : other ≠ key) : (members.insert key value).get? other = members.get? other := by
  induction members with
  | nil => simp [insert, get?_cons_of_ne _ _ distinct]
  | cons entry rest inductionHypothesis =>
    obtain ⟨first, kept⟩ := entry
    unfold insert
    by_cases same : key = first
    · subst same
      simp [get?_cons_of_ne _ _ distinct]
    · by_cases before : key < first
      · simp [same, before, get?_cons_of_ne _ _ distinct]
      · simp only [same, before, if_false]
        by_cases found : other = first
        · subst found; simp
        · rw [get?_cons_of_ne _ _ found, get?_cons_of_ne _ _ found]
          exact inductionHypothesis

end Members

end EagerLoad.Json
