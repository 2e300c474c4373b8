import EagerLoad.Proofs.Path.Choices

/-!
Contract: which sources are path expressions, and which paths they denote.

Owns: the grammar of expressions over tokens, the agreement of reading with it, and the paths of
a source as the listing of its choices.

Does not own: the tokens of a source (`Path/Token.lean`), or the order of choices
(`Choices.lean`).

Authority boundary: `IsExpression` is the grammar as it is written down, with its two levels. It
says nothing about how a sentence is read. Reading goes from left to right and never back, so the
proofs go through `Continues`, which says what may stand behind an atom and splits no list.
-/

set_option autoImplicit false

namespace EagerLoad.Path

/-! ## The grammar -/

/-- `atom := NAME | '*'` -/
inductive IsAtom : Token → Segment → Prop
  | name (text : String) : IsAtom (.name text) (.relation text)
  | star : IsAtom .star .wildcard

/-- `segment := atom ('|' atom)*`, with its alternatives in order, repeats included. -/
inductive IsSegment : List Token → List Segment → Prop
  | atom {token : Token} {segment : Segment} (isAtom : IsAtom token segment) :
      IsSegment [token] [segment]
  | pipe {token : Token} {segment : Segment} {rest : List Token} {alternatives : List Segment}
      (isAtom : IsAtom token segment) (more : IsSegment rest alternatives) :
      IsSegment (token :: .pipe :: rest) (segment :: alternatives)

/-- `path := segment ('.' segment)*` -/
inductive IsExpression : List Token → List (List Segment) → Prop
  | segment {tokens : List Token} {alternatives : List Segment}
      (isSegment : IsSegment tokens alternatives) : IsExpression tokens [alternatives]
  | dot {tokens rest : List Token} {alternatives : List Segment} {segments : List (List Segment)}
      (isSegment : IsSegment tokens alternatives) (more : IsExpression rest segments) :
      IsExpression (tokens ++ .dot :: rest) (alternatives :: segments)

/-- Items are these tokens, and no fault is among them. -/
inductive AreTokens : List Item → List Token → Prop
  | nil : AreTokens [] []
  | cons {token : Token} {items : List Item} {tokens : List Token} (span : Span)
      (more : AreTokens items tokens) : AreTokens (.token token span :: items) (token :: tokens)

/-- A source spells an expression of these segments: its items are the tokens of a sentence. -/
def Spells (source : String) (segments : List (List Segment)) : Prop :=
  ∃ tokens, AreTokens (itemsOf source) tokens ∧ IsExpression tokens segments

/-! ## From left to right -/

/-- What may stand behind an atom: more alternatives of its segment, and then more segments. -/
inductive Continues : List Token → List Segment → List (List Segment) → Prop
  | stop : Continues [] [] []
  | pipe {token : Token} {segment : Segment} {rest : List Token} {more : List Segment}
      {segments : List (List Segment)} (isAtom : IsAtom token segment)
      (onward : Continues rest more segments) :
      Continues (.pipe :: token :: rest) (segment :: more) segments
  | dot {token : Token} {segment : Segment} {rest : List Token} {more : List Segment}
      {segments : List (List Segment)} (isAtom : IsAtom token segment)
      (onward : Continues rest more segments) :
      Continues (.dot :: token :: rest) [] ((segment :: more) :: segments)

/-- A segment starts with an atom, and behind the rest of it the expression goes on. -/
theorem IsSegment.exists_continues {tokens : List Token} {alternatives : List Segment}
    (isSegment : IsSegment tokens alternatives) :
    ∃ token segment rest more, tokens = token :: rest ∧ alternatives = segment :: more
      ∧ IsAtom token segment
      ∧ ∀ behind segments, Continues behind [] segments →
          Continues (rest ++ behind) more segments := by
  induction isSegment with
  | @atom token segment isAtom =>
      exact ⟨token, segment, [], [], rfl, rfl, isAtom, fun _ _ onward => onward⟩
  | @pipe token segment _ _ isAtom _ inductionHypothesis =>
      obtain ⟨next, alternative, rest, more, rfl, rfl, nextIsAtom, continues⟩ :=
        inductionHypothesis
      refine ⟨token, segment, .pipe :: next :: rest, alternative :: more, rfl, rfl, isAtom, ?_⟩
      intro behind segments onward
      exact .pipe nextIsAtom (continues behind segments onward)

theorem IsExpression.exists_continues {tokens : List Token} {segments : List (List Segment)}
    (isExpression : IsExpression tokens segments) :
    ∃ token segment rest more others, tokens = token :: rest
      ∧ segments = (segment :: more) :: others ∧ IsAtom token segment
      ∧ Continues rest more others := by
  induction isExpression with
  | segment isSegment =>
      obtain ⟨token, segment, rest, more, rfl, rfl, isAtom, continues⟩ :=
        isSegment.exists_continues
      have atEnd := continues [] [] .stop
      rw [List.append_nil] at atEnd
      exact ⟨token, segment, rest, more, [], rfl, rfl, isAtom, atEnd⟩
  | dot isSegment _ inductionHypothesis =>
      obtain ⟨token, segment, rest, more, rfl, rfl, isAtom, continues⟩ :=
        isSegment.exists_continues
      obtain ⟨next, first, nextRest, nextMore, others, rfl, rfl, nextIsAtom, onward⟩ :=
        inductionHypothesis
      exact ⟨token, segment, rest ++ .dot :: next :: nextRest, more,
        (first :: nextMore) :: others, rfl, rfl, isAtom, continues _ _ (.dot nextIsAtom onward)⟩

/-- An expression with one more alternative before its first. -/
theorem IsExpression.pipe {token : Token} {segment : Segment} {tokens : List Token}
    {alternatives : List Segment} {segments : List (List Segment)}
    (isAtom : IsAtom token segment)
    (isExpression : IsExpression tokens (alternatives :: segments)) :
    IsExpression (token :: .pipe :: tokens) ((segment :: alternatives) :: segments) := by
  cases isExpression with
  | segment isSegment => exact .segment (.pipe isAtom isSegment)
  | dot isSegment more => exact .dot (.pipe isAtom isSegment) more

theorem Continues.isExpression {token : Token} {segment : Segment} {rest : List Token}
    {more : List Segment} {segments : List (List Segment)} (isAtom : IsAtom token segment)
    (continues : Continues rest more segments) :
    IsExpression (token :: rest) ((segment :: more) :: segments) := by
  induction continues generalizing token segment with
  | stop => exact .segment (.atom isAtom)
  | pipe nextIsAtom _ inductionHypothesis => exact (inductionHypothesis nextIsAtom).pipe isAtom
  | dot nextIsAtom _ inductionHypothesis =>
      exact .dot (.atom isAtom) (inductionHypothesis nextIsAtom)

/-! ## Reading agrees with the grammar -/

theorem segment?_eq_some_iff {token : Token} {segment : Segment} :
    token.segment? = some segment ↔ IsAtom token segment := by
  constructor
  · intro isSegment
    cases token with
    | name text => cases isSegment; exact .name text
    | star => cases isSegment; exact .star
    | dot => cases isSegment
    | pipe => cases isSegment
  · intro isAtom
    cases isAtom with
    | name text => rfl
    | star => rfl

/-- The segments that reading ends with, when it started behind `done` with some alternatives of
the present segment and then read `more` of them and further segments. -/
def collected (done : List (List Segment)) (alternatives more : List Segment)
    (segments : List (List Segment)) : List (List Segment) :=
  done.reverse ++ more.foldl addAlternative alternatives :: segments.map firstOccurrences

theorem collected_pipe (done : List (List Segment)) (alternatives : List Segment)
    (segment : Segment) (more : List Segment) (segments : List (List Segment)) :
    collected done (addAlternative alternatives segment) more segments
      = collected done alternatives (segment :: more) segments := rfl

theorem collected_dot (done : List (List Segment)) (alternatives more : List Segment)
    (segments : List (List Segment)) :
    collected (alternatives :: done) [] more segments
      = collected done alternatives [] (more :: segments) := by
  unfold collected
  rw [List.reverse_cons, List.append_assoc]
  rfl

mutual

theorem readAtom_sound {stop : Nat} {done : List (List Segment)} {alternatives : List Segment}
    {result : List (List Segment)} : ∀ {items : List Item},
    readAtom stop done alternatives items = .ok result →
    ∃ token segment rest more segments, AreTokens items (token :: rest) ∧ IsAtom token segment
      ∧ Continues rest more segments
      ∧ result = collected done alternatives (segment :: more) segments
  | [], read => by cases read
  | .fault _ :: _, read => by cases read
  | .token token span :: items, read => by
      rw [readAtom] at read
      cases isSegment : token.segment? with
      | none =>
          rw [isSegment] at read
          cases read
      | some segment =>
          rw [isSegment] at read
          obtain ⟨rest, more, segments, areTokens, continues, isResult⟩ :=
            readContinuation_sound read
          exact ⟨token, segment, rest, more, segments, .cons span areTokens,
            segment?_eq_some_iff.1 isSegment, continues, isResult⟩

theorem readContinuation_sound {stop : Nat} {done : List (List Segment)}
    {alternatives : List Segment} {result : List (List Segment)} : ∀ {items : List Item},
    readContinuation stop done alternatives items = .ok result →
    ∃ tokens more segments, AreTokens items tokens ∧ Continues tokens more segments
      ∧ result = collected done alternatives more segments
  | [], read => by
      cases read
      refine ⟨[], [], [], .nil, .stop, ?_⟩
      exact List.reverse_cons
  | .fault _ :: _, read => by cases read
  | .token .pipe span :: items, read => by
      obtain ⟨token, segment, rest, more, segments, areTokens, isAtom, continues, isResult⟩ :=
        readAtom_sound read
      exact ⟨_, _, segments, .cons span areTokens, .pipe isAtom continues, isResult⟩
  | .token .dot span :: items, read => by
      obtain ⟨token, segment, rest, more, segments, areTokens, isAtom, continues, isResult⟩ :=
        readAtom_sound read
      rw [collected_dot] at isResult
      exact ⟨_, _, _, .cons span areTokens, .dot isAtom continues, isResult⟩
  | .token .star _ :: _, read => by cases read
  | .token (.name _) _ :: _, read => by cases read

end

theorem readAtom_cons {stop : Nat} {done : List (List Segment)} {alternatives : List Segment}
    {token : Token} {segment : Segment} (isAtom : IsAtom token segment) (span : Span)
    (items : List Item) :
    readAtom stop done alternatives (.token token span :: items)
      = readContinuation stop done (addAlternative alternatives segment) items := by
  rw [readAtom, segment?_eq_some_iff.2 isAtom]

theorem readContinuation_complete {stop : Nat} {done : List (List Segment)}
    {alternatives : List Segment} {items : List Item} {tokens : List Token} {more : List Segment}
    {segments : List (List Segment)} (continues : Continues tokens more segments)
    (areTokens : AreTokens items tokens) :
    readContinuation stop done alternatives items
      = .ok (collected done alternatives more segments) := by
  induction continues generalizing done alternatives items with
  | stop =>
      cases areTokens
      exact congrArg Except.ok List.reverse_cons
  | pipe isAtom _ inductionHypothesis =>
      cases areTokens with
      | cons _ areAtoms =>
          cases areAtoms with
          | cons span areRest =>
              rw [readContinuation, readAtom_cons isAtom, inductionHypothesis areRest,
                collected_pipe]
  | dot isAtom _ inductionHypothesis =>
      cases areTokens with
      | cons _ areAtoms =>
          cases areAtoms with
          | cons span areRest =>
              rw [readContinuation, readAtom_cons isAtom, inductionHypothesis areRest,
                collected_pipe, collected_dot]

/-- The segments of a source are those of the expression that it spells, each with the first
occurrences of its alternatives. -/
theorem segmentsOf_eq_ok_iff {source : String} {result : List (List Segment)} :
    segmentsOf source = .ok result
      ↔ ∃ segments, Spells source segments ∧ result = segments.map firstOccurrences := by
  unfold segmentsOf Spells
  constructor
  · intro read
    split at read
    · cases read
    · obtain ⟨token, segment, rest, more, segments, areTokens, isAtom, continues, isResult⟩ :=
        readAtom_sound read
      exact ⟨_, ⟨_, areTokens, continues.isExpression isAtom⟩, isResult⟩
  · intro spells
    obtain ⟨_, ⟨_, areTokens, isExpression⟩, rfl⟩ := spells
    obtain ⟨token, segment, rest, more, others, rfl, rfl, isAtom, continues⟩ :=
      isExpression.exists_continues
    cases items : itemsOf source with
    | nil =>
        rw [items] at areTokens
        cases areTokens
    | cons item items' =>
        rw [items] at areTokens
        cases areTokens with
        | cons span areRest =>
            show readAtom _ [] [] _ = _
            rw [readAtom_cons isAtom, readContinuation_complete continues areRest, collected_pipe]
            rfl

/-- An expression denotes the listing of its choices. -/
theorem Spells.parse_eq {source : String} {segments : List (List Segment)}
    (spells : Spells source segments) :
    parse source = .ok ((choices (segments.map firstOccurrences)).map RelationPath.mk) := by
  unfold parse
  rw [segmentsOf_eq_ok_iff.2 ⟨segments, spells, rfl⟩]
  rfl

theorem exists_spells_of_parse {source : String} {paths : List RelationPath}
    (parsed : parse source = .ok paths) :
    ∃ segments, Spells source segments ∧ ListsChoices segments paths := by
  unfold parse at parsed
  cases read : segmentsOf source with
  | error fault =>
      rw [read] at parsed
      cases parsed
  | ok result =>
      obtain ⟨segments, spells, rfl⟩ := segmentsOf_eq_ok_iff.1 read
      rw [read] at parsed
      cases parsed
      exact ⟨segments, spells, listsChoices_choices segments⟩

theorem Spells.parse_eq_ok_iff {source : String} {segments : List (List Segment)}
    (spells : Spells source segments) {paths : List RelationPath} :
    parse source = .ok paths ↔ ListsChoices segments paths := by
  rw [spells.parse_eq]
  constructor
  · intro same
    cases same
    exact listsChoices_choices segments
  · intro lists
    rw [lists.unique (listsChoices_choices segments)]

/-- **Expressions denote their choices.** A source is accepted if and only if it spells an
expression. Its paths are then the listing of the choices of that expression: one alternative
from every segment, each choice once, and earlier segments varying slowest. So there are as many
paths as the product of the numbers of distinct alternatives. -/
theorem parse_denotes_choices (source : String) :
    ((∃ paths, parse source = .ok paths) ↔ ∃ segments, Spells source segments)
      ∧ ∀ segments, Spells source segments → ∀ paths,
          (parse source = .ok paths ↔ ListsChoices segments paths)
            ∧ (parse source = .ok paths →
                paths.Nodup
                  ∧ (∀ path ∈ paths, path.segments.length = segments.length)
                  ∧ paths.length
                      = (segments.map fun alternatives => alternatives.toFinset.card).prod) := by
  constructor
  · constructor
    · intro accepted
      obtain ⟨paths, parsed⟩ := accepted
      obtain ⟨segments, spells, _⟩ := exists_spells_of_parse parsed
      exact ⟨segments, spells⟩
    · intro isExpression
      obtain ⟨segments, spells⟩ := isExpression
      exact ⟨_, spells.parse_eq⟩
  · intro segments spells paths
    refine ⟨spells.parse_eq_ok_iff, ?_⟩
    intro parsed
    have lists := spells.parse_eq_ok_iff.1 parsed
    refine ⟨lists.nodup, ?_, lists.length_eq⟩
    intro path listed
    exact ((lists.complete path).1 listed).length_eq

end EagerLoad.Path
