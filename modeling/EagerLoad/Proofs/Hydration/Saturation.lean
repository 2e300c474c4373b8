import EagerLoad.Proofs.Hydration.Occurrence
import EagerLoad.Proofs.Hydration.Simulation

/-!
Contract: a limit of as many levels as there are records is no limit.

Owns: trees with a limit in place of none, the limits that suffice for the records that a branch
has not visited, and that what is loaded along a tree does not change when such a limit is set.

Does not own: the comparison of two descents in general (`Simulation.lean`).

## Why both stopping rules agree

A request without a limit stops where the branch holds the record already. A request with a limit
stops there as well, or where no level is left. Each level that it uses up takes it to a record
that the branch did not hold, so that the records left to visit become fewer by one at least. A
limit that was no less than their number remains so. When it is used up, no record is left, and any
record that is reached is on the branch: the request without a limit stops there too.
-/

set_option autoImplicit false

namespace EagerLoad

/-! ## Limits in place of none -/

/-- A depth with a limit in place of none. -/
def Depth.limitedTo (levels : Nat) : Depth → Depth
  | .unbounded => .limit levels
  | .limit own => .limit own

def Recursion.limitedTo (levels : Nat) (rule : Recursion) : Recursion :=
  { rule with remaining := rule.remaining.limitedTo levels }

namespace InclusionTree

mutual

def limitNode (levels : Nat) : IncludeNode → IncludeNode
  | .mk relation children recursion =>
      .mk relation (limitedTo levels children) (recursion.map (Recursion.limitedTo levels))

/-- A tree with a limit in every rule that has none, at any depth. -/
def limitedTo (levels : Nat) : List IncludeNode → List IncludeNode
  | [] => []
  | node :: rest => limitNode levels node :: limitedTo levels rest

end

theorem limitedTo_eq_map (levels : Nat) (tree : InclusionTree) :
    limitedTo levels tree = tree.map (limitNode levels) := by
  induction tree with
  | nil => rfl
  | cons node rest inductionHypothesis => rw [limitedTo, inductionHypothesis, List.map_cons]

end InclusionTree

/-! ## Limits that suffice -/

/-- Where `left` records are left to visit, a depth may stand in for another: it is the same one,
or a limit of at least so many levels in place of none. -/
inductive Depth.Suffices (left : Nat) : Depth → Depth → Prop
  | same (depth : Depth) : Suffices left depth depth
  | limit {levels : Nat} (leftLe : left ≤ levels) : Suffices left .unbounded (.limit levels)

namespace Depth.Suffices

variable {left fewer : Nat} {depth other : Depth}

theorem limitedTo {levels : Nat} (leftLe : left ≤ levels) (depth : Depth) :
    depth.Suffices left (depth.limitedTo levels) := by
  cases depth with
  | unbounded => exact .limit leftLe
  | limit own => exact .same (.limit own)

theorem mono (fewerLe : fewer ≤ left) (enough : depth.Suffices left other) :
    depth.Suffices fewer other := by
  cases enough with
  | same => exact .same depth
  | limit leftLe => exact .limit (Nat.le_trans fewerLe leftLe)

/-- One level less suffices where one record less is left. -/
theorem decrement (fewerLt : fewer < left) (enough : depth.Suffices left other) :
    depth.decrement.Suffices fewer other.decrement := by
  cases enough with
  | same => exact .same depth.decrement
  | limit leftLe => exact .limit (by omega)

theorem max {added otherAdded : Depth} (enough : depth.Suffices left other)
    (addedEnough : added.Suffices left otherAdded) :
    (depth.max added).Suffices left (other.max otherAdded) := by
  cases enough with
  | same =>
      cases addedEnough with
      | same => exact .same _
      | limit leftLe =>
          cases depth with
          | unbounded => exact .same .unbounded
          | limit own => exact .limit (Nat.le_trans leftLe (Nat.le_max_right _ _))
  | limit leftLe =>
      cases added with
      | unbounded =>
          cases addedEnough with
          | same => exact .same .unbounded
          | limit _ => exact .limit (Nat.le_trans leftLe (Nat.le_max_left _ _))
      | limit own =>
          cases addedEnough
          exact .limit (Nat.le_trans leftLe (Nat.le_max_left _ _))

/-- As long as a record is left to visit, both depths are used up or neither is. -/
theorem isExhausted_eq (enough : depth.Suffices left other) (isLeft : 0 < left) :
    other.isExhausted = depth.isExhausted := by
  cases enough with
  | same => rfl
  | @limit levels leftLe =>
      have positive : levels ≠ 0 := by omega
      simpa [isExhausted] using positive

end Depth.Suffices

/-- A rule may stand in for another with the same scope. -/
structure Recursion.Suffices (left : Nat) (rule other : Recursion) : Prop where
  scope : other.scope = rule.scope
  remaining : rule.remaining.Suffices left other.remaining

namespace InclusionTree

theorem alike_suffices (left : Nat) : Alike Eq (Recursion.Suffices left) where
  name same := same ▸ rfl
  source same := same ▸ rfl
  target same := same ▸ rfl
  kind same := same ▸ rfl
  scope enough := enough.scope
  union enough added :=
    ⟨congrArg₂ Scope.union enough.scope added.scope, enough.remaining.max added.remaining⟩

/-- A tree matches the tree with limits, if they suffice. -/
theorem matches_limitedTo {left levels : Nat} (leftLe : left ≤ levels) (tree : InclusionTree) :
    Matches Eq (Recursion.Suffices left) tree (limitedTo levels tree) := by
  induction tree using induction with
  | step tree inductionHypothesis =>
      rw [limitedTo_eq_map]
      apply List.forall₂_map_right_iff.2
      rw [List.forall₂_same]
      intro node member
      have below := inductionHypothesis node member
      obtain ⟨relation, children, rule⟩ := node
      refine .intro rfl ?_ below
      cases rule with
      | none => exact .none
      | some rule => exact .some ⟨rfl, .limitedTo leftLe rule.remaining⟩

end InclusionTree

namespace Hydration

variable {context : Context} {known branch : List Ancestor}

/-- Rules that suffice for what a branch has not visited stop at the same records. -/
theorem stops_eq_of_suffices {rule other : Recursion} {reached : Ancestor}
    (isKnown : reached ∈ known) (enough : rule.Suffices (unvisited known branch) other) :
    context.stops branch other reached = context.stops branch rule reached := by
  unfold Context.stops
  by_cases onBranch : reached ∈ branch
  · rw [List.contains_iff_mem.2 onBranch, Bool.or_true, Bool.or_true]
  · have isLeft : 0 < unvisited known branch :=
      Nat.zero_lt_of_lt (unvisited_cons_lt isKnown onBranch)
    rw [enough.remaining.isExhausted_eq isLeft]

/-- A descent along a tree with limits that suffice goes where the descent without them goes. -/
theorem simulation_suffices (knowsStored : ∀ entity, ∀ record ∈ context.view.records entity,
      (⟨entity, record.key⟩ : Ancestor) ∈ known) :
    Simulation context context Eq (fun branch => Recursion.Suffices (unvisited known branch))
      (fun _ _ => True) where
  alike branch := InclusionTree.alike_suffices (unvisited known branch)
  declared _ := List.forall₂_same.2 fun _ _ => rfl
  stored _ := trivial
  yields same _ := same ▸ rfl
  stops reached enough := stops_eq_of_suffices (knowsStored _ _ reached) enough
  onward reached enough :=
    ⟨enough.scope, enough.remaining.mono (unvisited_cons_le known _ reached)⟩
  next reached enough goesOn := by
    refine ⟨enough.scope, enough.remaining.decrement ?_⟩
    -- the rule goes on only at a record that the branch does not hold
    apply unvisited_cons_lt (knowsStored _ _ reached)
    intro onBranch
    simp [Context.stops, onBranch] at goesOn

end Hydration

namespace Resolver

/-- **Limits saturate.** Whatever the schema, the settings, the roots and the tree, to set a limit
in each rule without one changes nothing in what is loaded, as soon as the limit is no less than
the number of records in the store. -/
theorem resolve_limit_saturates (schema : Schema) (store : Store) (settings : Settings)
    (earlier otherEarlier : List Call) (entity : String) (roots : List Record)
    (tree : InclusionTree) {levels : Nat} (enough : store.size ≤ levels) :
    (((start store.view schema settings).serve otherEarlier).resolve entity roots
        (InclusionTree.limitedTo levels tree)).1
      = (((start store.view schema settings).serve earlier).resolve entity roots tree).1 := by
  rw [resolve_serve, resolve_serve]
  apply List.map_congr_left
  intro root _
  have knowsStored : ∀ entity, ∀ record ∈ (start store.view schema settings).context.view.records
      entity, (⟨entity, record.key⟩ : Ancestor) ∈ store.entries :=
    fun _ _ stored => Store.mem_entries stored
  have simulation := Hydration.simulation_suffices knowsStored
  apply simulation.load_eq_load trivial
  apply InclusionTree.matches_limitedTo
  calc Hydration.unvisited store.entries [⟨entity, root.key⟩]
      ≤ store.entries.length := Hydration.unvisited_le_length _ _
    _ = store.size := store.length_entries
    _ ≤ levels := enough

end Resolver

/-! ## Small stores -/

theorem Table.length_put_le (table : Table) (record : Record) :
    (put record table).length ≤ table.length + 1 := by
  induction table with
  | nil => exact Nat.le_refl 1
  | cons other rest inductionHypothesis =>
      unfold put
      split
      · exact Nat.le_succ _
      · exact Nat.succ_le_succ inductionHypothesis

/-- Storing a record adds one record at most. -/
theorem Store.size_put_le (store : Store) (entity : String) (record : Record) :
    (store.put entity record).size ≤ store.size + 1 := by
  have tableSize : ∀ table : IndexedTable,
      (table.put record).records.size ≤ table.records.size + 1 := by
    intro table
    have listed := Table.length_put_le table.toTable record
    rwa [← IndexedTable.toTable_put] at listed
  unfold size
  show (putIn entity record store.tables).foldr _ 0 ≤ _
  induction store.tables with
  | nil => exact tableSize .empty
  | cons entry rest inductionHypothesis =>
      obtain ⟨other, table⟩ := entry
      have here := tableSize table
      unfold putIn
      split
      · show (table.put record).records.size + _ ≤ table.records.size + _ + 1
        omega
      · show table.records.size + _ ≤ table.records.size + _ + 1
        omega

/-- Two parts of each other are loaded the same with a limit of two levels as without one. -/
theorem Resolver.resolve_limit_saturates_parts :
    Sample.store.size ≤ 2
      ∧ InclusionTree.limitedTo 2 Sample.tree
        = [.mk Sample.parts [.plain Sample.whole] (some ⟨.only ["parts"], .limit 2⟩)]
      ∧ ((Resolver.start Sample.store.view Sample.schema {}).resolve "part"
            [Sample.part "hull" "mast"] (InclusionTree.limitedTo 2 Sample.tree)).1
        = ((Resolver.start Sample.store.view Sample.schema {}).resolve "part"
            [Sample.part "hull" "mast"] Sample.tree).1 := by
  have enough : Sample.store.size ≤ 2 :=
    calc Sample.store.size
        ≤ (({} : Store).put "part" (Sample.part "hull" "mast")).size + 1 :=
          Store.size_put_le _ "part" (Sample.part "mast" "hull")
      _ ≤ ({} : Store).size + 1 + 1 :=
          Nat.add_le_add_right (Store.size_put_le _ "part" (Sample.part "hull" "mast")) 1
  exact ⟨enough, rfl, Resolver.resolve_limit_saturates Sample.schema Sample.store {} [] [] "part"
    [Sample.part "hull" "mast"] Sample.tree enough⟩

end EagerLoad
