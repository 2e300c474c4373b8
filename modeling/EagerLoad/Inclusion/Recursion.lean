/-!
Contract: how far a recursive request reaches.

Owns: depths with their order and countdown, scopes of relation names, and the
rule that combines both.

Does not own: where rules apply (`Inclusion/Tree.lean`) or when recursion stops
(`Hydration/Resolve.lean`).
-/

set_option autoImplicit false

namespace EagerLoad

/-- How many further levels a recursive request may expand. -/
inductive Depth where
  | unbounded
  | limit (levels : Nat)
  deriving DecidableEq, Repr

namespace Depth

/-- Whether no further level may be expanded. -/
def isExhausted (depth : Depth) : Bool := depth == .limit 0

def decrement : Depth → Depth
  | .unbounded => .unbounded
  | .limit levels => .limit (levels - 1)

def max : Depth → Depth → Depth
  | .limit left, .limit right => .limit (Nat.max left right)
  | _, _ => .unbounded

/-- The depth of an optional limit: none is unbounded. -/
def ofLimit? : Option Nat → Depth
  | some levels => .limit levels
  | none => .unbounded

end Depth

/-- Which relations a recursive request follows. -/
inductive Scope where
  | all
  | only (names : List String)
  deriving DecidableEq, Repr

namespace Scope

/-- Whether a scope follows the relations of a name. -/
def admits (scope : Scope) (name : String) : Bool :=
  match scope with
  | .all => true
  | .only names => names.contains name

/-- A list of names followed by those of another that it lacks. -/
def addNames (names more : List String) : List String :=
  more.foldl (fun known name => if name ∈ known then known else known ++ [name]) names

/-- The scope that follows what either of two follows. -/
def union : Scope → Scope → Scope
  | _, .all => .all
  | .all, .only _ => .all
  | .only names, .only more => .only (addNames names more)

theorem mem_addNames (name : String) (names more : List String) :
    name ∈ addNames names more ↔ name ∈ names ∨ name ∈ more := by
  unfold addNames
  induction more generalizing names with
  | nil => simp
  | cons first rest inductionHypothesis =>
    rw [List.foldl_cons, inductionHypothesis]
    by_cases known : first ∈ names
    · rw [if_pos known, List.mem_cons]
      constructor
      · rintro (here | there)
        · exact .inl here
        · exact .inr (.inr there)
      · rintro (here | rfl | there)
        · exact .inl here
        · exact .inl known
        · exact .inr there
    · simp [known, or_assoc]

@[simp] theorem admits_union (left right : Scope) (name : String) :
    (left.union right).admits name = (left.admits name || right.admits name) := by
  cases left <;> cases right <;> simp [union, admits]
  rename_i names more
  rw [Bool.eq_iff_iff]
  simp [mem_addNames]

end Scope

/-- A recursive request: what it follows, and how many levels are left below the
records it attaches. -/
structure Recursion where
  scope : Scope
  remaining : Depth
  deriving DecidableEq, Repr

namespace Recursion

def next (rule : Recursion) : Recursion :=
  { rule with remaining := rule.remaining.decrement }

/-- A request that follows what either of two follows, as deep as the deeper one. -/
def union (left right : Recursion) : Recursion where
  scope := left.scope.union right.scope
  remaining := left.remaining.max right.remaining

/-- The union of requests that may be absent. -/
def union? : Option Recursion → Option Recursion → Option Recursion
  | some left, some right => some (left.union right)
  | some left, none => some left
  | none, right => right

end Recursion

end EagerLoad
