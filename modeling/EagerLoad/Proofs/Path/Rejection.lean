import EagerLoad.Proofs.Path.Denotation
import EagerLoad.Proofs.Path.Partition

/-!
Contract: a source is rejected at its first failure.

Owns: the beginnings of sentences, what an expression has to go on with behind some items, and the
fault of a source as that of the first item with which no sentence goes on.

Does not own: the grammar (`Denotation.lean`), or the wording of a fault (`Path/Fault.lean`).

Reading remembers segments, but only one bit of that decides how it goes on: whether an atom must
come next. This bit is the phase. There is a phase behind some items exactly if a sentence begins
with them, so reading breaks off at the first item that is the end of no such beginning.
-/

set_option autoImplicit false

namespace EagerLoad.Path

/-! ## Beginnings of sentences -/

/-- Items are the first tokens of a sentence. -/
def Begins (items : List Item) : Prop :=
  ∃ tokens behind segments, AreTokens items tokens ∧ IsExpression (tokens ++ behind) segments

/-- The first of some items that is not the end of a beginning of a sentence. -/
structure FirstMisfit (items before : List Item) (item : Item) : Prop where
  stands : ∃ after, items = before ++ item :: after
  begins : Begins before
  misfits : ¬ Begins (before ++ [item])

theorem AreTokens.append {first second : List Item} {firstTokens secondTokens : List Token}
    (areFirst : AreTokens first firstTokens) (areSecond : AreTokens second secondTokens) :
    AreTokens (first ++ second) (firstTokens ++ secondTokens) := by
  induction areFirst with
  | nil => exact areSecond
  | cons span _ inductionHypothesis => exact .cons span inductionHypothesis

theorem AreTokens.of_append {first second : List Item} {tokens : List Token}
    (areTokens : AreTokens (first ++ second) tokens) :
    ∃ firstTokens secondTokens, tokens = firstTokens ++ secondTokens
      ∧ AreTokens first firstTokens ∧ AreTokens second secondTokens := by
  induction first generalizing tokens with
  | nil => exact ⟨[], tokens, rfl, .nil, areTokens⟩
  | cons item rest inductionHypothesis =>
      cases areTokens with
      | cons span more =>
          obtain ⟨firstTokens, secondTokens, rfl, areFirst, areSecond⟩ := inductionHypothesis more
          exact ⟨_ :: firstTokens, secondTokens, rfl, .cons span areFirst, areSecond⟩

/-- Tokens as items of an empty text. -/
theorem areTokens_map (tokens : List Token) :
    AreTokens (tokens.map fun token => Item.token token (Span.point 0)) tokens := by
  induction tokens with
  | nil => exact .nil
  | cons token rest inductionHypothesis => exact .cons _ inductionHypothesis

/-- No sentence has a fault among its items. -/
theorem not_begins_fault (before : List Item) (located : LocatedFault) :
    ¬ Begins (before ++ [.fault located]) := by
  intro begins
  obtain ⟨tokens, _, _, areTokens, _⟩ := begins
  obtain ⟨_, _, _, _, areFault⟩ := areTokens.of_append
  cases areFault

/-! ## Phases -/

/-- What comes next in an expression: an atom, or what may stand behind one. -/
inductive Phase where
  | atom
  | continuation

namespace Phase

/-- The phase behind an item, if the item fits. -/
def next? : Phase → Item → Option Phase
  | .atom, .token (.name _) _ => some .continuation
  | .atom, .token .star _ => some .continuation
  | .continuation, .token .dot _ => some .atom
  | .continuation, .token .pipe _ => some .atom
  | _, _ => none

/-- The fault of an item that does not fit. -/
def refuse : Phase → Item → LocatedFault
  | _, .fault located => located
  | .atom, .token token span => ⟨.expectedName token, span⟩
  | .continuation, .token token span => ⟨.expectedContinuation token, span⟩

def after? (phase : Phase) (items : List Item) : Option Phase := items.foldlM next? phase

def read (stop : Nat) (done : List (List Segment)) (alternatives : List Segment) :
    Phase → List Item → Except LocatedFault (List (List Segment))
  | .atom => readAtom stop done alternatives
  | .continuation => readContinuation stop done alternatives

theorem span_refuse (phase : Phase) (item : Item) : (phase.refuse item).span = item.span := by
  cases item <;> cases phase <;> rfl

theorem after?_cons (phase : Phase) (item : Item) (rest : List Item) :
    phase.after? (item :: rest) = (phase.next? item).bind fun following => following.after? rest :=
  rfl

theorem after?_append (phase : Phase) (first second : List Item) :
    phase.after? (first ++ second)
      = (phase.after? first).bind fun following => following.after? second :=
  List.foldlM_append

theorem after?_concat {phase following : Phase} {before : List Item}
    (isAfter : phase.after? before = some following) (item : Item) :
    phase.after? (before ++ [item]) = following.next? item := by
  rw [after?_append, isAfter, Option.bind_some, after?_cons]
  exact Option.bind_fun_some _

variable {stop : Nat}

/-- Reading takes an item that fits, and goes on in the phase behind it. -/
theorem read_step {phase following : Phase} {item : Item}
    (fits : phase.next? item = some following) (done : List (List Segment))
    (alternatives : List Segment) :
    ∃ nextDone nextAlternatives, ∀ rest,
      phase.read stop done alternatives (item :: rest)
        = following.read stop nextDone nextAlternatives rest := by
  cases phase with
  | atom =>
      rcases item with ⟨_ | _ | _ | text, span⟩ | located <;> cases fits
      · exact ⟨_, _, fun rest => readAtom_cons .star span rest⟩
      · exact ⟨_, _, fun rest => readAtom_cons (.name text) span rest⟩
  | continuation =>
      rcases item with ⟨_ | _ | _ | text, span⟩ | located <;> cases fits
      · exact ⟨alternatives :: done, [], fun rest => by simp only [read, readContinuation]⟩
      · exact ⟨done, alternatives, fun rest => by simp only [read, readContinuation]⟩

/-- Reading stops at an item that does not fit. -/
theorem read_refuse {phase : Phase} {item : Item} (misfits : phase.next? item = none)
    (done : List (List Segment)) (alternatives : List Segment) (rest : List Item) :
    phase.read stop done alternatives (item :: rest) = .error (phase.refuse item) := by
  cases phase with
  | atom =>
      rcases item with ⟨_ | _ | _ | text, span⟩ | located
      · simp only [read, readAtom, Token.segment?, refuse]
      · simp only [read, readAtom, Token.segment?, refuse]
      · cases misfits
      · cases misfits
      · simp only [read, readAtom, refuse]
  | continuation =>
      rcases item with ⟨_ | _ | _ | text, span⟩ | located
      · cases misfits
      · cases misfits
      · simp only [read, readContinuation, refuse]
      · simp only [read, readContinuation, refuse]
      · simp only [read, readContinuation, refuse]

/-- Reading takes all items that fit, one after the other. -/
theorem read_append {phase following : Phase} {items : List Item}
    (isAfter : phase.after? items = some following) (done : List (List Segment))
    (alternatives : List Segment) :
    ∃ nextDone nextAlternatives, ∀ rest,
      phase.read stop done alternatives (items ++ rest)
        = following.read stop nextDone nextAlternatives rest := by
  induction items generalizing phase done alternatives with
  | nil =>
      cases isAfter
      exact ⟨done, alternatives, fun rest => rfl⟩
  | cons item more inductionHypothesis =>
      rw [after?_cons, Option.bind_eq_some_iff] at isAfter
      obtain ⟨middle, fits, isAfterMore⟩ := isAfter
      obtain ⟨midDone, midAlternatives, first⟩ := read_step fits done alternatives
      obtain ⟨nextDone, nextAlternatives, onward⟩ :=
        inductionHypothesis isAfterMore midDone midAlternatives
      exact ⟨nextDone, nextAlternatives, fun rest => (first (more ++ rest)).trans (onward rest)⟩

theorem read_misfit {phase following : Phase} {before : List Item} {item : Item}
    (isAfter : phase.after? before = some following) (misfits : following.next? item = none)
    (done : List (List Segment)) (alternatives : List Segment) (after : List Item) :
    phase.read stop done alternatives (before ++ item :: after)
      = .error (following.refuse item) := by
  obtain ⟨_, _, onward⟩ := read_append isAfter done alternatives
  rw [onward, read_refuse misfits]

theorem read_missing {phase : Phase} {items : List Item}
    (isAfter : phase.after? items = some .atom) (done : List (List Segment))
    (alternatives : List Segment) :
    phase.read stop done alternatives items = .error ⟨.missingName, Span.point stop⟩ := by
  obtain ⟨_, _, onward⟩ := read_append isAfter done alternatives
  rw [← List.append_nil items, onward, read, readAtom]

theorem exists_read {phase : Phase} {items : List Item}
    (isAfter : phase.after? items = some .continuation) (done : List (List Segment))
    (alternatives : List Segment) :
    ∃ result, phase.read stop done alternatives items = .ok result := by
  obtain ⟨nextDone, nextAlternatives, onward⟩ := read_append isAfter done alternatives
  rw [← List.append_nil items, onward, read, readContinuation]
  exact ⟨_, rfl⟩

/-- Where the phases break off, there is a first item that does not fit. -/
theorem exists_misfit {phase : Phase} {items : List Item} (breaksOff : phase.after? items = none) :
    ∃ before item after following, items = before ++ item :: after
      ∧ phase.after? before = some following ∧ following.next? item = none := by
  induction items generalizing phase with
  | nil => cases breaksOff
  | cons item rest inductionHypothesis =>
      rw [after?_cons] at breaksOff
      cases fits : phase.next? item with
      | none => exact ⟨[], item, rest, phase, rfl, rfl, fits⟩
      | some middle =>
          rw [fits, Option.bind_some] at breaksOff
          obtain ⟨before, misfit, after, following, rfl, isAfter, misfits⟩ :=
            inductionHypothesis breaksOff
          refine ⟨item :: before, misfit, after, following, rfl, ?_, misfits⟩
          rw [after?_cons, fits, Option.bind_some, isAfter]

/-! ## Phases and sentences -/

/-- Items make up a sentence if and only if something may stand behind them but need not. -/
theorem after?_eq_continuation_iff {items : List Item} :
    Phase.atom.after? items = some .continuation
      ↔ ∃ tokens segments, AreTokens items tokens ∧ IsExpression tokens segments := by
  constructor
  · intro isAfter
    have accepted : ∃ result, Phase.atom.read 0 [] [] items = .ok result :=
      exists_read isAfter [] []
    obtain ⟨result, isRead⟩ := accepted
    obtain ⟨token, segment, rest, more, segments, areTokens, isAtom, continues, _⟩ :=
      readAtom_sound isRead
    exact ⟨_, _, areTokens, continues.isExpression isAtom⟩
  · intro sentence
    obtain ⟨tokens, segments, areTokens, isExpression⟩ := sentence
    obtain ⟨token, segment, rest, more, others, rfl, rfl, isAtom, continues⟩ :=
      isExpression.exists_continues
    have isRead : ∃ result, Phase.atom.read 0 [] [] items = .ok result := by
      cases areTokens with
      | cons span areRest =>
          exact ⟨_, (readAtom_cons isAtom span _).trans
            (readContinuation_complete continues areRest)⟩
    obtain ⟨result, isRead⟩ := isRead
    cases isAfter : Phase.atom.after? items with
    | none =>
        obtain ⟨before, item, after, following, rfl, isBefore, misfits⟩ := exists_misfit isAfter
        rw [read_misfit isBefore misfits] at isRead
        cases isRead
    | some following =>
        cases following with
        | continuation => rfl
        | atom =>
            rw [read_missing isAfter] at isRead
            cases isRead

/-- A sentence begins with some items if and only if there is a phase behind them. -/
theorem begins_iff {items : List Item} :
    Begins items ↔ ∃ phase, Phase.atom.after? items = some phase := by
  constructor
  · intro begins
    obtain ⟨tokens, behind, segments, areTokens, isExpression⟩ := begins
    have isAfter := after?_eq_continuation_iff.2
      ⟨_, segments, areTokens.append (areTokens_map behind), isExpression⟩
    rw [after?_append, Option.bind_eq_some_iff] at isAfter
    obtain ⟨phase, isPhase, _⟩ := isAfter
    exact ⟨phase, isPhase⟩
  · intro hasPhase
    obtain ⟨phase, isAfter⟩ := hasPhase
    cases phase with
    | continuation =>
        obtain ⟨tokens, segments, areTokens, isExpression⟩ := after?_eq_continuation_iff.1 isAfter
        exact ⟨tokens, [], segments, areTokens, by rwa [List.append_nil]⟩
    | atom =>
        -- Where an atom must come next, a wildcard makes a sentence of the items.
        have withStar := after?_concat isAfter (.token .star (Span.point 0))
        obtain ⟨tokens, segments, areTokens, isExpression⟩ :=
          after?_eq_continuation_iff.1 withStar
        obtain ⟨first, second, rfl, areFirst, _⟩ := areTokens.of_append
        exact ⟨first, second, segments, areFirst, isExpression⟩

/-- Where an atom must come next, sentences go on with atoms and with nothing else. -/
theorem begins_concat_iff {items : List Item} (isAfter : Phase.atom.after? items = some .atom)
    (token : Token) (span : Span) :
    Begins (items ++ [.token token span]) ↔ ∃ segment, IsAtom token segment := by
  rw [begins_iff, after?_concat isAfter]
  cases token with
  | name text => exact ⟨fun _ => ⟨_, .name text⟩, fun _ => ⟨_, rfl⟩⟩
  | star => exact ⟨fun _ => ⟨_, .star⟩, fun _ => ⟨_, rfl⟩⟩
  | dot => constructor <;> rintro ⟨_, ⟨⟩⟩
  | pipe => constructor <;> rintro ⟨_, ⟨⟩⟩

theorem firstMisfit_iff {items before : List Item} {item : Item} :
    FirstMisfit items before item
      ↔ (∃ after, items = before ++ item :: after)
        ∧ ∃ phase, Phase.atom.after? before = some phase ∧ phase.next? item = none := by
  constructor
  · intro first
    obtain ⟨phase, isAfter⟩ := begins_iff.1 first.begins
    refine ⟨first.stands, phase, isAfter, ?_⟩
    rw [← after?_concat isAfter, Option.eq_none_iff_forall_ne_some]
    intro following isFollowing
    exact first.misfits (begins_iff.2 ⟨following, isFollowing⟩)
  · rintro ⟨stands, phase, isAfter, misfits⟩
    refine ⟨stands, begins_iff.2 ⟨phase, isAfter⟩, ?_⟩
    intro begins
    obtain ⟨following, isFollowing⟩ := begins_iff.1 begins
    rw [after?_concat isAfter, misfits] at isFollowing
    cases isFollowing

end Phase

/-! ## The fault of a source -/

variable {source : String} {located : LocatedFault}

theorem parse_eq_error_iff :
    parse source = .error located ↔ segmentsOf source = .error located := by
  unfold parse
  cases segmentsOf source <;> simp [Except.map]

theorem located_of_itemsOf_eq_nil (rejected : parse source = .error located)
    (noItems : itemsOf source = []) : located = ⟨.emptyPath, Span.point 0⟩ := by
  rw [parse_eq_error_iff, segmentsOf, noItems] at rejected
  exact (Except.error.inj rejected).symm

theorem read_itemsOf (rejected : parse source = .error located) (notEmpty : itemsOf source ≠ []) :
    Phase.atom.read (byteLength source.toList) [] [] (itemsOf source) = .error located := by
  rw [parse_eq_error_iff, segmentsOf] at rejected
  cases items : itemsOf source with
  | nil => exact absurd items notEmpty
  | cons item rest =>
      rw [items] at rejected
      exact rejected

/-- A source with a misfit is rejected for the first one. -/
theorem located_of_firstMisfit (rejected : parse source = .error located) {before : List Item}
    {item : Item} (first : FirstMisfit (itemsOf source) before item) :
    ∃ phase : Phase, located = phase.refuse item := by
  obtain ⟨⟨after, items⟩, phase, isAfter, misfits⟩ := Phase.firstMisfit_iff.1 first
  have notEmpty : itemsOf source ≠ [] := by
    rw [items]
    exact List.append_ne_nil_of_right_ne_nil _ (List.cons_ne_nil _ _)
  have isRead := read_itemsOf rejected notEmpty
  rw [items, Phase.read_misfit isAfter misfits] at isRead
  exact ⟨phase, (Except.error.inj isRead).symm⟩

/-- A source without a misfit is rejected where it ends, and an atom must come next there. -/
theorem located_of_fits (rejected : parse source = .error located) (notEmpty : itemsOf source ≠ [])
    (fits : ∀ before item, ¬ FirstMisfit (itemsOf source) before item) :
    located = ⟨.missingName, Span.point (byteLength source.toList)⟩
      ∧ Phase.atom.after? (itemsOf source) = some .atom := by
  have isRead := read_itemsOf rejected notEmpty
  cases isAfter : Phase.atom.after? (itemsOf source) with
  | none =>
      obtain ⟨before, item, after, phase, items, isBefore, misfits⟩ := Phase.exists_misfit isAfter
      exact absurd (Phase.firstMisfit_iff.2 ⟨⟨after, items⟩, phase, isBefore, misfits⟩)
        (fits before item)
  | some phase =>
      cases phase with
      | atom =>
          rw [Phase.read_missing isAfter] at isRead
          exact ⟨(Except.error.inj isRead).symm, rfl⟩
      | continuation =>
          obtain ⟨result, accepted⟩ := Phase.exists_read isAfter [] []
          rw [accepted] at isRead
          cases isRead

theorem located_cases (rejected : parse source = .error located) :
    located = ⟨.emptyPath, Span.point 0⟩
      ∨ (∃ item ∈ itemsOf source, ∃ phase : Phase, located = phase.refuse item)
      ∨ located = ⟨.missingName, Span.point (byteLength source.toList)⟩ := by
  by_cases noItems : itemsOf source = []
  · exact .inl (located_of_itemsOf_eq_nil rejected noItems)
  by_cases misfit : ∃ before item, FirstMisfit (itemsOf source) before item
  · obtain ⟨before, item, first⟩ := misfit
    obtain ⟨after, items⟩ := first.stands
    refine .inr (.inl ⟨item, ?_, located_of_firstMisfit rejected first⟩)
    rw [items]
    exact List.mem_append_right before List.mem_cons_self
  · refine .inr (.inr (located_of_fits rejected noItems ?_).1)
    intro before item first
    exact misfit ⟨before, item, first⟩

/-- The span of a fault cuts the source. -/
theorem exists_cuts_of_rejected (rejected : parse source = .error located) :
    ∃ before inside after, Cuts source.toList located.span before inside after := by
  rcases located_cases rejected with rfl | ⟨item, member, phase, rfl⟩ | rfl
  · exact ⟨[], [], source.toList, ⟨rfl, rfl, rfl⟩⟩
  · obtain ⟨before, inside, after, cuts, _⟩ := exists_cuts_of_mem_itemsOf member
    exact ⟨before, inside, after, phase.span_refuse item ▸ cuts⟩
  · refine ⟨source.toList, [], [], ?_, rfl, ?_⟩
    · rw [List.append_nil, List.append_nil]
    · rw [List.append_nil]
      rfl

/-- A fault names the first failure of a source: the start of a source without items, otherwise the
first item with which no sentence begins, and otherwise the end of the source, where an atom must
come next. A fault among the items is such an item, and is reported as it is. In each case the
fault lies between boundaries of characters. -/
structure FailsFirst (source : String) (located : LocatedFault) : Prop where
  empty : itemsOf source = [] → located.span = Span.point 0
  misfit : ∀ before item, FirstMisfit (itemsOf source) before item → located.span = item.span
  lexical : ∀ before fault after, itemsOf source = before ++ .fault fault :: after →
    Begins before → located = fault
  atEnd : itemsOf source ≠ [] → (∀ before item, ¬ FirstMisfit (itemsOf source) before item) →
    located.span = Span.point source.utf8ByteSize
      ∧ ∀ token span, Begins (itemsOf source ++ [.token token span])
          ↔ ∃ segment, IsAtom token segment
  start_le_stop : located.span.start ≤ located.span.stop
  stop_le : located.span.stop ≤ source.utf8ByteSize
  isValid_start : String.Pos.Raw.IsValid source ⟨located.span.start⟩
  isValid_stop : String.Pos.Raw.IsValid source ⟨located.span.stop⟩

/-- **A source is rejected at its first failure.** -/
theorem parse_fails_first (rejected : parse source = .error located) :
    FailsFirst source located := by
  obtain ⟨_, _, _, cuts⟩ := exists_cuts_of_rejected rejected
  exact {
    empty := by
      intro noItems
      rw [located_of_itemsOf_eq_nil rejected noItems]
    misfit := by
      intro before item first
      obtain ⟨phase, rfl⟩ := located_of_firstMisfit rejected first
      exact phase.span_refuse item
    lexical := by
      intro before fault after items begins
      have first : FirstMisfit (itemsOf source) before (.fault fault) :=
        ⟨⟨after, items⟩, begins, not_begins_fault before fault⟩
      obtain ⟨phase, rfl⟩ := located_of_firstMisfit rejected first
      cases phase <;> rfl
    atEnd := by
      intro notEmpty fits
      obtain ⟨rfl, isAfter⟩ := located_of_fits rejected notEmpty fits
      exact ⟨congrArg Span.point (byteLength_toList source), Phase.begins_concat_iff isAfter⟩
    start_le_stop := cuts.start_le_stop
    stop_le := cuts.stop_le
    isValid_start := cuts.isValid_start
    isValid_stop := cuts.isValid_stop }

theorem itemsOf_likes :
    itemsOf "posts.été likes"
      = [.token (.name "posts") ⟨0, 5⟩, .token .dot ⟨5, 6⟩, .token (.name "été") ⟨6, 11⟩,
          .token (.name "likes") ⟨12, 17⟩] := by
  rw [itemsOf_eq_itemsWithin]
  rfl

/-- The second name stands where only a separator of segments or alternatives fits. -/
theorem parse_fails_first_likes :
    parse "posts.été likes" = .error ⟨.expectedContinuation (.name "likes"), ⟨12, 17⟩⟩
      ∧ FailsFirst "posts.été likes" ⟨.expectedContinuation (.name "likes"), ⟨12, 17⟩⟩ := by
  have rejected : parse "posts.été likes"
      = .error ⟨.expectedContinuation (.name "likes"), ⟨12, 17⟩⟩ := by
    rw [parse, segmentsOf, itemsOf_likes]
    rfl
  exact ⟨rejected, parse_fails_first rejected⟩

end EagerLoad.Path
