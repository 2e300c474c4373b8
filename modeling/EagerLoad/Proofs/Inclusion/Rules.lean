import EagerLoad.Inclusion.Recursion
import Mathlib.Data.List.Induction
import Mathlib.Order.Bounds.Defs
import Mathlib.Order.Defs.PartialOrder

/-!
Contract: recursive requests by how much they ask for.

Owns: the order of depths, the order of rules that may be absent, and the union of any
number of rules with its law: it follows what any of them follows, as deep as the deepest.

Does not own: where rules stand in a tree (`Order.lean`, `Requests.lean`).
-/

set_option autoImplicit false

namespace EagerLoad

/-! ## Depths -/

namespace Depth

/-- A depth reaches no further than another. None reaches further than the unbounded one. -/
def Le : Depth → Depth → Prop
  | _, .unbounded => True
  | .unbounded, .limit _ => False
  | .limit levels, .limit more => levels ≤ more

instance : PartialOrder Depth where
  le := Le
  le_refl depth := by
    cases depth with
    | unbounded => trivial
    | limit levels => exact Nat.le_refl levels
  le_trans first second third firstLe secondLe := by
    cases third with
    | unbounded => trivial
    | limit most =>
        cases second with
        | unbounded => exact secondLe.elim
        | limit more =>
            cases first with
            | unbounded => exact firstLe.elim
            | limit levels => exact Nat.le_trans firstLe secondLe
  le_antisymm left right leftLe rightLe := by
    cases left with
    | unbounded =>
        cases right with
        | unbounded => rfl
        | limit levels => exact leftLe.elim
    | limit levels =>
        cases right with
        | unbounded => exact rightLe.elim
        | limit more => rw [Nat.le_antisymm leftLe rightLe]

theorem le_max_left (left right : Depth) : left ≤ left.max right := by
  cases left with
  | unbounded => exact le_refl _
  | limit levels =>
      cases right with
      | unbounded => trivial
      | limit more => exact Nat.le_max_left levels more

theorem le_max_right (left right : Depth) : right ≤ left.max right := by
  cases right with
  | unbounded => cases left <;> exact le_refl _
  | limit more =>
      cases left with
      | unbounded => trivial
      | limit levels => exact Nat.le_max_right levels more

theorem max_eq_or (left right : Depth) : left.max right = left ∨ left.max right = right := by
  cases left with
  | unbounded => exact .inl rfl
  | limit levels =>
      cases right with
      | unbounded => exact .inr rfl
      | limit more =>
          rcases Nat.le_total levels more with less | less
          · exact .inr (congrArg limit (Nat.max_eq_right less))
          · exact .inl (congrArg limit (Nat.max_eq_left less))

theorem max_le {left right bound : Depth} (leftLe : left ≤ bound) (rightLe : right ≤ bound) :
    left.max right ≤ bound := by
  rcases max_eq_or left right with isMax | isMax
  · rw [isMax]
    exact leftLe
  · rw [isMax]
    exact rightLe

theorem decrement_le_decrement {depth more : Depth} (le : depth ≤ more) :
    depth.decrement ≤ more.decrement := by
  cases more with
  | unbounded => trivial
  | limit levels =>
      cases depth with
      | unbounded => exact le.elim
      | limit fewer => exact Nat.sub_le_sub_right le 1

/-- A depth that may expand lets every greater one expand. -/
theorem isExhausted_eq_false_of_le {depth more : Depth} (le : depth ≤ more)
    (expands : depth.isExhausted = false) : more.isExhausted = false := by
  cases exhausted : more.isExhausted with
  | false => rfl
  | true =>
      have isZero : more = .limit 0 := beq_iff_eq.1 exhausted
      subst isZero
      cases depth with
      | unbounded => exact le.elim
      | limit levels =>
          have levelsZero : levels = 0 := Nat.le_zero.1 le
          rw [levelsZero] at expands
          cases expands

end Depth

/-! ## Rules -/

namespace Recursion

/-- A rule asks for no more than another: it follows no other relations, and is no deeper. -/
structure Within (rule more : Recursion) : Prop where
  follows : ∀ name, rule.scope.admits name = true → more.scope.admits name = true
  shallow : rule.remaining ≤ more.remaining

theorem Within.refl (rule : Recursion) : rule.Within rule := ⟨fun _ => id, le_refl _⟩

theorem Within.trans {first second third : Recursion} (firstWithin : first.Within second)
    (secondWithin : second.Within third) : first.Within third where
  follows name admitted := secondWithin.follows name (firstWithin.follows name admitted)
  shallow := le_trans firstWithin.shallow secondWithin.shallow

theorem Within.next {rule more : Recursion} (within : rule.Within more) :
    rule.next.Within more.next where
  follows := within.follows
  shallow := Depth.decrement_le_decrement within.shallow

theorem within_union_left (left right : Recursion) : left.Within (left.union right) where
  follows name admitted := by
    show (left.scope.union right.scope).admits name = true
    rw [Scope.admits_union, admitted, Bool.true_or]
  shallow := Depth.le_max_left left.remaining right.remaining

theorem within_union_right (left right : Recursion) : right.Within (left.union right) where
  follows name admitted := by
    show (left.scope.union right.scope).admits name = true
    rw [Scope.admits_union, admitted, Bool.or_true]
  shallow := Depth.le_max_right left.remaining right.remaining

theorem union_within {left right bound : Recursion} (leftWithin : left.Within bound)
    (rightWithin : right.Within bound) : (left.union right).Within bound where
  follows name admitted := by
    rw [union, Scope.admits_union, Bool.or_eq_true] at admitted
    rcases admitted with isLeft | isRight
    · exact leftWithin.follows name isLeft
    · exact rightWithin.follows name isRight
  shallow := Depth.max_le leftWithin.shallow rightWithin.shallow

/-- A rule that may be absent asks for no more than another. No rule asks for nothing. -/
inductive Within? : Option Recursion → Option Recursion → Prop
  | none (more : Option Recursion) : Within? none more
  | some {rule more : Recursion} (within : rule.Within more) : Within? (some rule) (some more)

namespace Within?

theorem refl (rule : Option Recursion) : Within? rule rule := by
  cases rule with
  | none => exact .none _
  | some rule => exact .some (.refl rule)

theorem trans {first second third : Option Recursion} (firstWithin : Within? first second)
    (secondWithin : Within? second third) : Within? first third := by
  cases firstWithin with
  | none => exact .none third
  | some within =>
      cases secondWithin with
      | some onward => exact .some (within.trans onward)

theorem exists_of_some {rule : Recursion} {more : Option Recursion}
    (within : Within? (Option.some rule) more) :
    ∃ other, more = Option.some other ∧ rule.Within other := by
  cases within with
  | some within => exact ⟨_, rfl, within⟩

end Within?

theorem within?_union?_left (left right : Option Recursion) : Within? left (union? left right) := by
  cases left with
  | none => exact .none _
  | some left =>
      cases right with
      | none => exact .refl _
      | some right => exact .some (within_union_left left right)

theorem within?_union?_right (left right : Option Recursion) :
    Within? right (union? left right) := by
  cases left with
  | none => exact .refl right
  | some left =>
      cases right with
      | none => exact .none _
      | some right => exact .some (within_union_right left right)

/-- What asks for no more than each of two rules asks for no more than their union does:
the union is the least bound of both. -/
theorem union?_within? {left right bound : Option Recursion} (leftWithin : Within? left bound)
    (rightWithin : Within? right bound) : Within? (union? left right) bound := by
  cases leftWithin with
  | none => exact rightWithin
  | some leftWithin =>
      cases rightWithin with
      | none => exact .some leftWithin
      | some rightWithin => exact .some (union_within leftWithin rightWithin)

theorem union?_mono {left right moreLeft moreRight : Option Recursion}
    (leftWithin : Within? left moreLeft) (rightWithin : Within? right moreRight) :
    Within? (union? left right) (union? moreLeft moreRight) :=
  union?_within? (leftWithin.trans (within?_union?_left moreLeft moreRight))
    (rightWithin.trans (within?_union?_right moreLeft moreRight))

/-! ## Unions of any number of rules -/

/-- The union of some rules; none where there are none. -/
def unionAll (rules : List Recursion) : Option Recursion :=
  rules.foldl (fun united rule => union? united (some rule)) none

theorem unionAll_concat (rules : List Recursion) (rule : Recursion) :
    unionAll (rules ++ [rule]) = union? (unionAll rules) (some rule) := by
  unfold unionAll
  rw [List.foldl_append]
  rfl

/-- A rule follows what any of some rules follows, and is as deep as the deepest of them. -/
structure Unites (rule : Recursion) (rules : List Recursion) : Prop where
  admits_iff : ∀ name,
    rule.scope.admits name = true ↔ ∃ one ∈ rules, one.scope.admits name = true
  deepest : IsGreatest {depth | ∃ one ∈ rules, one.remaining = depth} rule.remaining

theorem unites_singleton (rule : Recursion) : rule.Unites [rule] where
  admits_iff name := by simp
  deepest := ⟨⟨rule, List.mem_singleton_self rule, rfl⟩, fun depth ⟨one, member, isDepth⟩ => by
    rw [← isDepth, List.mem_singleton.1 member]⟩

theorem Unites.union {united : Recursion} {rules : List Recursion} (unites : united.Unites rules)
    (rule : Recursion) : (united.union rule).Unites (rules ++ [rule]) where
  admits_iff name := by
    show (united.scope.union rule.scope).admits name = true ↔ _
    rw [Scope.admits_union, Bool.or_eq_true, unites.admits_iff]
    simp only [List.mem_append, List.mem_singleton, or_and_right, exists_or, exists_eq_left]
  deepest := by
    constructor
    · show ∃ one ∈ rules ++ [rule], one.remaining = united.remaining.max rule.remaining
      rcases Depth.max_eq_or united.remaining rule.remaining with isMax | isMax
      · obtain ⟨one, member, isDepth⟩ := unites.deepest.1
        exact ⟨one, List.mem_append_left _ member, isDepth.trans isMax.symm⟩
      · exact ⟨rule, List.mem_append_right _ (List.mem_singleton_self rule), isMax.symm⟩
    · rintro depth ⟨one, member, rfl⟩
      rcases List.mem_append.1 member with earlier | isLast
      · have below : one.remaining ≤ united.remaining := unites.deepest.2 ⟨one, earlier, rfl⟩
        exact le_trans below (Depth.le_max_left _ _)
      · rw [List.mem_singleton.1 isLast]
        exact Depth.le_max_right _ _

/-- **The law of unions.** There is a union exactly where there is a rule, and it unites
the rules. -/
theorem unionAll_cases (rules : List Recursion) :
    (rules = [] ∧ unionAll rules = none)
      ∨ ∃ rule, unionAll rules = some rule ∧ rule.Unites rules := by
  induction rules using List.reverseRecOn with
  | nil => exact .inl ⟨rfl, rfl⟩
  | append_singleton rules rule inductionHypothesis =>
      right
      rw [unionAll_concat]
      rcases inductionHypothesis with ⟨rfl, isNone⟩ | ⟨united, isUnion, unites⟩
      · rw [isNone]
        exact ⟨rule, rfl, unites_singleton rule⟩
      · rw [isUnion]
        exact ⟨united.union rule, rfl, unites.union rule⟩

/-- Where each of some rules asks for no more than one of some others, so do their unions. -/
theorem unionAll_within? {rules others : List Recursion}
    (covered : ∀ rule ∈ rules, ∃ other ∈ others, rule.Within other) :
    Within? (unionAll rules) (unionAll others) := by
  have bounded : ∀ other ∈ others, Within? (some other) (unionAll others) := by
    intro other member
    rcases unionAll_cases others with ⟨rfl, _⟩ | ⟨united, isUnion, unites⟩
    · cases member
    · rw [isUnion]
      refine .some ⟨fun name admitted => ?_, unites.deepest.2 ⟨other, member, rfl⟩⟩
      exact (unites.admits_iff name).2 ⟨other, member, admitted⟩
  induction rules using List.reverseRecOn with
  | nil => exact .none _
  | append_singleton rules rule inductionHypothesis =>
      rw [unionAll_concat]
      apply union?_within?
      · exact inductionHypothesis fun earlier member =>
          covered earlier (List.mem_append_left _ member)
      · obtain ⟨other, member, within⟩ :=
          covered rule (List.mem_append_right _ (List.mem_singleton_self rule))
        exact (Within?.some within).trans (bounded other member)

end Recursion

end EagerLoad
