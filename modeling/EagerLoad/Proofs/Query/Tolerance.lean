import EagerLoad.Proofs.Path.Denotation
import EagerLoad.Proofs.Path.Partition
import EagerLoad.Proofs.Store.History
import EagerLoad.Query

/-!
Contract: a query passes over the sources that it cannot read, and over what it has read before.

Owns: the paths of a list of sources against those of each source by itself, what one more source
changes, that an expression has a path, and the paths that a query requests.

Does not own: the paths of one source (`Path/Denotation.lean`), or the tree of several expressions
(`Flattening.lean`).
-/

set_option autoImplicit false

namespace EagerLoad

namespace Path

/-! ## Many sources against each by itself -/

/-- The paths of the sources that are expressions, source after source, repeats included. -/
def strictPaths (sources : List String) : List RelationPath :=
  (sources.filterMap fun source => (parse source).toOption).flatten

theorem strictPaths_append (first second : List String) :
    strictPaths (first ++ second) = strictPaths first ++ strictPaths second := by
  simp [strictPaths]

theorem strictPaths_cons_ok {source : String} {paths : List RelationPath}
    (parsed : parse source = .ok paths) (rest : List String) :
    strictPaths (source :: rest) = paths ++ strictPaths rest := by
  simp [strictPaths, parsed, Except.toOption]

theorem strictPaths_cons_error {source : String} {located : LocatedFault}
    (rejected : parse source = .error located) (rest : List String) :
    strictPaths (source :: rest) = strictPaths rest := by
  simp [strictPaths, rejected, Except.toOption]

theorem strictPaths_cons (source : String) (rest : List String) :
    strictPaths (source :: rest) = strictPaths [source] ++ strictPaths rest :=
  strictPaths_append [source] rest

/-- The paths of a source among others are paths of them all. -/
theorem strictPaths_subset {source : String} {sources : List String} (member : source ∈ sources) :
    strictPaths [source] ⊆ strictPaths sources := by
  obtain ⟨before, after, rfl⟩ := List.append_of_mem member
  intro path listed
  rw [strictPaths_append, strictPaths_cons]
  simp only [List.mem_append]
  exact .inr (.inl listed)

theorem firstOccurrences_eq_eraseDups {α : Type} [DecidableEq α] (items : List α) :
    firstOccurrences items = items.eraseDups := by
  induction items using List.reverseRecOn with
  | nil => rfl
  | append_singleton before last inductionHypothesis =>
      rw [firstOccurrences_concat, eraseDups_concat, inductionHypothesis]

/-- A list of sources has the first occurrences of the paths of its expressions. -/
theorem paths_many_eq (sources : List String) :
    (Expression.many sources).paths = (strictPaths sources).eraseDups := by
  have sameList : sources.flatMap Expression.acceptedPaths = strictPaths sources := by
    induction sources with
    | nil => rfl
    | cons source rest inductionHypothesis =>
        rw [List.flatMap_cons, inductionHypothesis, Expression.acceptedPaths]
        cases parsed : parse source with
        | ok paths => exact (strictPaths_cons_ok parsed rest).symm
        | error located => exact (strictPaths_cons_error parsed rest).symm
  rw [← firstOccurrences_eq_eraseDups, ← sameList]
  rfl

theorem mem_paths_many {sources : List String} {path : RelationPath} :
    path ∈ (Expression.many sources).paths ↔ path ∈ strictPaths sources := by
  rw [paths_many_eq, List.mem_eraseDups]

theorem nodup_paths (expression : Expression) : expression.paths.Nodup :=
  nodup_firstOccurrences _

/-- What was there before leaves no trace where it comes again. -/
theorem eraseDups_append_of_subset {α : Type} [DecidableEq α] {before again after : List α}
    (isKnown : again ⊆ before) :
    (before ++ (again ++ after)).eraseDups = (before ++ after).eraseDups := by
  have nothingNew : (again ++ after).removeAll before = after.removeAll before := by
    have noneLeft : again.removeAll before = [] := by
      refine List.filter_eq_nil_iff.2 ?_
      intro item member
      simp [isKnown member]
    rw [List.removeAll, List.filter_append]
    exact congrArg (· ++ after.removeAll before) noneLeft
  rw [List.eraseDups_append, List.eraseDups_append, nothingNew]

/-- A list of sources requests the first occurrences of the paths of its expressions. A source that
is rejected adds nothing wherever it stands, and neither does a source behind an occurrence of it.
A source ahead of its other occurrences adds no path, but its paths come earlier. -/
structure Tolerates (sources : List String) : Prop where
  paths_eq : (Expression.many sources).paths = (strictPaths sources).eraseDups
  rejected : ∀ before source after located, sources = before ++ source :: after →
    parse source = .error located →
    (Expression.many sources).paths = (Expression.many (before ++ after)).paths
  repeated : ∀ before source after, sources = before ++ source :: after → source ∈ before →
    (Expression.many sources).paths = (Expression.many (before ++ after)).paths
  ahead : ∀ before source after, sources = before ++ source :: after → source ∈ after →
    (Expression.many sources).paths.Perm (Expression.many (before ++ after)).paths

theorem tolerates (sources : List String) : Tolerates sources where
  paths_eq := paths_many_eq sources
  rejected := by
    rintro before source after located rfl isRejected
    rw [paths_many_eq, paths_many_eq, strictPaths_append, strictPaths_append,
      strictPaths_cons_error isRejected]
  repeated := by
    rintro before source after rfl known
    rw [paths_many_eq, paths_many_eq, strictPaths_append, strictPaths_append, strictPaths_cons,
      eraseDups_append_of_subset (strictPaths_subset known)]
  ahead := by
    rintro before source after rfl comesAgain
    refine (List.perm_ext_iff_of_nodup (nodup_paths _) (nodup_paths _)).2 ?_
    intro path
    have fromAfter : path ∈ strictPaths [source] → path ∈ strictPaths after :=
      fun listed => strictPaths_subset comesAgain listed
    rw [mem_paths_many, mem_paths_many, strictPaths_append, strictPaths_append, strictPaths_cons]
    simp only [List.mem_append]
    tauto

/-- A source may be repeated behind its first occurrence, not ahead of it: its paths come first
then. -/
theorem paths_reordered_by_repeat :
    ¬ ∀ (before : List String) (source : String) (after : List String), source ∈ before ++ after →
      (Expression.many (before ++ source :: after)).paths
        = (Expression.many (before ++ after)).paths := by
  intro unchanged
  have repeated : "b" ∈ [] ++ ["a", "b"] := by decide
  have parsedA : parse "a" = .ok [⟨[.relation "a"]⟩] := by
    rw [parse, segmentsOf, itemsOf_eq_itemsWithin]
    rfl
  have parsedB : parse "b" = .ok [⟨[.relation "b"]⟩] := by
    rw [parse, segmentsOf, itemsOf_eq_itemsWithin]
    rfl
  have reordered : (Expression.many ([] ++ "b" :: ["a", "b"])).paths
      = [⟨[.relation "b"]⟩, ⟨[.relation "a"]⟩] := by
    rw [paths_many_eq, List.nil_append, strictPaths_cons_ok parsedB, strictPaths_cons_ok parsedA,
      strictPaths_cons_ok parsedB]
    rfl
  have inOrder : (Expression.many ([] ++ ["a", "b"])).paths
      = [⟨[.relation "a"]⟩, ⟨[.relation "b"]⟩] := by
    rw [paths_many_eq, List.nil_append, strictPaths_cons_ok parsedA, strictPaths_cons_ok parsedB]
    rfl
  have same := unchanged [] "b" ["a", "b"] repeated
  rw [reordered, inOrder] at same
  revert same
  decide

/-! ## An expression has a path -/

theorem IsSegment.ne_nil {tokens : List Token} {alternatives : List Segment}
    (isSegment : IsSegment tokens alternatives) : alternatives ≠ [] := by
  cases isSegment with
  | atom => exact List.cons_ne_nil _ _
  | pipe => exact List.cons_ne_nil _ _

theorem IsExpression.exists_isChoice {tokens : List Token} {segments : List (List Segment)}
    (isExpression : IsExpression tokens segments) : ∃ choice, IsChoice choice segments := by
  induction isExpression with
  | segment isSegment =>
      obtain ⟨segment, member⟩ := List.exists_mem_of_ne_nil _ isSegment.ne_nil
      exact ⟨[segment], .cons member .nil⟩
  | dot isSegment _ inductionHypothesis =>
      obtain ⟨segment, member⟩ := List.exists_mem_of_ne_nil _ isSegment.ne_nil
      obtain ⟨choice, isChoice⟩ := inductionHypothesis
      exact ⟨segment :: choice, .cons member isChoice⟩

theorem ne_nil_of_parse {source : String} {paths : List RelationPath}
    (parsed : parse source = .ok paths) : paths ≠ [] := by
  obtain ⟨segments, ⟨tokens, _, isExpression⟩, lists⟩ := exists_spells_of_parse parsed
  obtain ⟨choice, isChoice⟩ := isExpression.exists_isChoice
  exact List.ne_nil_of_mem ((lists.complete ⟨choice⟩).2 isChoice)

end Path

/-! ## The paths that a query requests -/

/-- The paths that a request names one by one. -/
def Load.plainPaths : Load → List Path.RelationPath
  | .paths listed => listed
  | .all | .allRecursive _ | .recursive _ _ => []

namespace Query

def plainPaths (query : Query) : List Path.RelationPath := query.loads.flatMap Load.plainPaths

theorem plainPaths_load (query : Query) (request : Load) :
    (query.load request).plainPaths = query.plainPaths ++ request.plainPaths := by
  simp [plainPaths, load]

theorem plainPaths_withPaths (query : Query) (expression : Path.Expression) :
    (query.withPaths expression).plainPaths = query.plainPaths ++ expression.paths := by
  unfold withPaths
  split
  · rename_i isEmpty
    rw [isEmpty, List.append_nil]
  · exact plainPaths_load query _

end Query

end EagerLoad
