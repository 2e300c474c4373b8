import EagerLoad.CommandLine.Run
import EagerLoad.Proofs.Query.Tolerance

/-!
Contract: the program refuses what a query passes over, and requests the same paths otherwise.

Owns: the failures that arguments alone decide, whatever the fixture, and the plain paths of the
query that arguments describe.

Does not own: what a list of sources requests (`Query/Tolerance.lean`), or the wording of a failure
(`CommandLine/Run.lean`).
-/

set_option autoImplicit false

namespace EagerLoad.CommandLine

open EagerLoad.Path (LocatedFault RelationPath Tolerates parse strictPaths paths_many_eq
  mem_paths_many ne_nil_of_parse strictPaths_cons_ok strictPaths_subset tolerates)

/-! ## Checks of the arguments -/

/-- The first of some sources that is rejected, and its fault. -/
def FirstRejected (sources : List String) (source : String) (located : LocatedFault) : Prop :=
  ∃ before after, sources = before ++ source :: after
    ∧ (∀ earlier ∈ before, ∃ paths, parse earlier = .ok paths)
    ∧ parse source = .error located

theorem FirstRejected.later {sources : List String} {source : String} {located : LocatedFault}
    (rejected : FirstRejected sources source located) {first : String} {paths : List RelationPath}
    (parsed : parse first = .ok paths) : FirstRejected (first :: sources) source located := by
  obtain ⟨before, after, rfl, accepted, isFault⟩ := rejected
  exact ⟨first :: before, after, rfl, List.forall_mem_cons.2 ⟨⟨paths, parsed⟩, accepted⟩, isFault⟩

theorem all_accepted_or_firstRejected (sources : List String) :
    (∀ source ∈ sources, ∃ paths, parse source = .ok paths)
      ∨ ∃ source located, FirstRejected sources source located := by
  induction sources with
  | nil => exact .inl (List.forall_mem_nil _)
  | cons first rest inductionHypothesis =>
      cases parsed : parse first with
      | error located =>
          exact .inr ⟨first, located, [], rest, rfl, List.forall_mem_nil _, parsed⟩
      | ok paths =>
          rcases inductionHypothesis with accepted | ⟨source, located, rejected⟩
          · exact .inl (List.forall_mem_cons.2 ⟨⟨paths, parsed⟩, accepted⟩)
          · exact .inr ⟨source, located, rejected.later parsed⟩

/-- The failures that arguments alone decide. -/
def Failure.IsOfArguments : Failure → Prop
  | .depthWithoutRecursion | .invalidPath _ _ => True
  | .unreadableFile _ _ | .invalidFixture _ | .refusedData _ => False

namespace Arguments

/-- A depth is given, but nothing that it limits. -/
def DepthAlone (arguments : Arguments) : Prop :=
  arguments.depth ≠ none ∧ arguments.withAllRecursive = false ∧ arguments.withRecursive = []

theorem checkPaths_append {before : List String}
    (accepted : ∀ source ∈ before, ∃ paths, parse source = .ok paths) (rest : List String) :
    checkPaths (before ++ rest) = checkPaths rest := by
  induction before with
  | nil => rfl
  | cons first more inductionHypothesis =>
      obtain ⟨⟨paths, parsed⟩, acceptedMore⟩ := List.forall_mem_cons.1 accepted
      rw [List.cons_append, checkPaths, parsed]
      exact inductionHypothesis acceptedMore

theorem checkPaths_of_firstRejected {sources : List String} {source : String}
    {located : LocatedFault} (rejected : FirstRejected sources source located) :
    checkPaths sources = .error (.invalidPath source located) := by
  obtain ⟨before, after, rfl, accepted, isFault⟩ := rejected
  rw [checkPaths_append accepted, checkPaths, isFault]

theorem checkPaths_of_accepted {sources : List String}
    (accepted : ∀ source ∈ sources, ∃ paths, parse source = .ok paths) :
    checkPaths sources = .ok () := by
  rw [← List.append_nil sources, checkPaths_append accepted, checkPaths]

theorem checkPaths_eq_error_iff {sources : List String} {failure : Failure} :
    checkPaths sources = .error failure
      ↔ ∃ source located, FirstRejected sources source located
        ∧ failure = .invalidPath source located := by
  refine ⟨?_, ?_⟩
  · intro isError
    rcases all_accepted_or_firstRejected sources with accepted | ⟨source, located, rejected⟩
    · rw [checkPaths_of_accepted accepted] at isError
      cases isError
    · rw [checkPaths_of_firstRejected rejected] at isError
      exact ⟨source, located, rejected, (Except.error.inj isError).symm⟩
  · rintro ⟨source, located, rejected, rfl⟩
    exact checkPaths_of_firstRejected rejected

variable {arguments : Arguments}

theorem depthAlone_iff :
    (arguments.depth.isSome && !arguments.isRecursive) = true ↔ arguments.DepthAlone := by
  simp [DepthAlone, isRecursive, Option.isSome_iff_ne_none]

/-- The depth is checked first, and the sources only after it. -/
theorem check_eq_error_iff {failure : Failure} :
    arguments.check = .error failure
      ↔ (arguments.DepthAlone ∧ failure = .depthWithoutRecursion)
        ∨ (¬ arguments.DepthAlone ∧ ∃ source located,
          FirstRejected arguments.withPaths source located
            ∧ failure = .invalidPath source located) := by
  unfold check
  by_cases alone : arguments.DepthAlone
  · rw [if_pos (depthAlone_iff.2 alone), Except.error.injEq]
    simp only [alone, true_and, not_true_eq_false, false_and, or_false, eq_comm]
  · rw [if_neg (mt depthAlone_iff.1 alone), checkPaths_eq_error_iff]
    simp only [alone, false_and, false_or, not_false_eq_true, true_and]

theorem check_eq_depthWithoutRecursion_iff :
    arguments.check = .error .depthWithoutRecursion ↔ arguments.DepthAlone := by
  simp [check_eq_error_iff]

theorem check_eq_invalidPath_iff {source : String} {located : LocatedFault} :
    arguments.check = .error (.invalidPath source located)
      ↔ ¬ arguments.DepthAlone ∧ FirstRejected arguments.withPaths source located := by
  simp [check_eq_error_iff]

/-- A graph is refused for the fixture, never for the arguments. -/
theorem not_isOfArguments_of_graph {text : String} {failure : Failure}
    (refused : arguments.graph text = .error failure) : ¬ failure.IsOfArguments := by
  unfold graph at refused
  split at refused
  · cases refused
    exact id
  · split at refused
    · cases refused
      exact id
    · cases refused

/-- The failures that arguments decide are those of their check, whatever the fixture. -/
theorem run_eq_error_iff {failure : Failure} (isOfArguments : failure.IsOfArguments)
    (content : Except String String) :
    arguments.run content = .error failure ↔ arguments.check = .error failure := by
  unfold run
  cases arguments.check with
  | error other => simp
  | ok passed =>
      refine ⟨?_, fun absent => by cases absent⟩
      intro isError
      cases content with
      | error reason =>
          cases isError
          exact isOfArguments.elim
      | ok text =>
          cases isGraph : arguments.graph text with
          | ok graph =>
              simp only [isGraph] at isError
              cases isError
          | error other =>
              simp only [isGraph] at isError
              cases isError
              exact absurd isOfArguments (not_isOfArguments_of_graph isGraph)

/-! ## The query of the arguments -/

theorem plainPaths_loadWhen (condition : Bool) {request : Load}
    (notPlain : request.plainPaths = []) (query : Query) :
    (loadWhen condition request query).plainPaths = query.plainPaths := by
  cases condition with
  | false => rfl
  | true =>
      show (query.load request).plainPaths = query.plainPaths
      rw [Query.plainPaths_load, notPlain, List.append_nil]

/-- The plain paths of the query are those of its sources. -/
theorem plainPaths_query (arguments : Arguments) (graph : Graph) :
    (arguments.query graph).plainPaths = (Path.Expression.many arguments.withPaths).paths := by
  unfold query
  rw [plainPaths_loadWhen _ rfl, plainPaths_loadWhen _ rfl, plainPaths_loadWhen _ rfl]
  split
  · rename_i isEmpty
    rw [List.isEmpty_iff.1 isEmpty]
    rfl
  · rw [Query.plainPaths_withPaths]
    rfl

/-- Arguments are refused for a depth that limits nothing, and then for the first source that is
rejected, whatever the fixture. Where no source is rejected, each has paths, the query requests
them, and its plain paths are the first occurrences of all of them. -/
structure Strict (arguments : Arguments) : Prop where
  depth : ∀ content, arguments.run content = .error .depthWithoutRecursion ↔ arguments.DepthAlone
  path : ∀ content source located,
    arguments.run content = .error (.invalidPath source located)
      ↔ ¬ arguments.DepthAlone ∧ FirstRejected arguments.withPaths source located
  report : ∀ content source located, ¬ arguments.DepthAlone →
    FirstRejected arguments.withPaths source located →
    ∃ failure, arguments.run content = .error failure
      ∧ failure.message = "invalid --with path\n" ++ located.diagnostic.report source
  requested : (∀ source located, ¬ FirstRejected arguments.withPaths source located) →
    ∀ graph,
      (∀ source ∈ arguments.withPaths, ∃ paths, parse source = .ok paths ∧ paths ≠ []
        ∧ paths ⊆ (arguments.query graph).plainPaths)
      ∧ (arguments.query graph).plainPaths = (strictPaths arguments.withPaths).eraseDups

theorem strict (arguments : Arguments) : arguments.Strict where
  depth content := by
    have isOfArguments : Failure.depthWithoutRecursion.IsOfArguments := trivial
    exact (run_eq_error_iff isOfArguments content).trans check_eq_depthWithoutRecursion_iff
  path content source located := by
    have isOfArguments : (Failure.invalidPath source located).IsOfArguments := trivial
    exact (run_eq_error_iff isOfArguments content).trans check_eq_invalidPath_iff
  report content source located inOrder rejected := by
    have isOfArguments : (Failure.invalidPath source located).IsOfArguments := trivial
    have isCheck := check_eq_invalidPath_iff.2 ⟨inOrder, rejected⟩
    exact ⟨_, (run_eq_error_iff isOfArguments content).2 isCheck, rfl⟩
  requested := by
    intro noneRejected graph
    rw [plainPaths_query]
    refine ⟨?_, paths_many_eq _⟩
    intro source member
    rcases all_accepted_or_firstRejected arguments.withPaths with accepted | rejected
    · obtain ⟨paths, parsed⟩ := accepted source member
      refine ⟨paths, parsed, ne_nil_of_parse parsed, ?_⟩
      intro path listed
      refine mem_paths_many.2 (strictPaths_subset member ?_)
      rw [strictPaths_cons_ok parsed]
      exact List.mem_append_left _ listed
    · obtain ⟨other, located, rejected⟩ := rejected
      exact absurd rejected (noneRejected other located)

/-- **Strict and tolerant reading agree.** A list of sources requests the first occurrences of what
each of them denotes by itself, passing over those that are rejected. The program refuses to run
with a source that is rejected, and otherwise requests the same paths. -/
theorem strict_and_tolerant_agree (sources : List String) (arguments : Arguments) :
    Tolerates sources ∧ arguments.Strict :=
  ⟨tolerates sources, strict arguments⟩

end Arguments

end EagerLoad.CommandLine
