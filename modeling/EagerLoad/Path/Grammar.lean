import EagerLoad.Path.Token

/-!
Contract: the grammar of path expressions.

Owns: segments and relation paths, the reading of an expression as a list of
alternatives a segment, and the expansion into all paths.

Does not own: lists of expressions (`Path/Expression.lean`).

The grammar over tokens is

    path    := segment ('.' segment)*
    segment := atom ('|' atom)*
    atom    := NAME | '*'

An expression denotes one path for each way to choose an alternative from every
segment. Earlier segments vary slowest.
-/

set_option autoImplicit false

namespace EagerLoad.Path

/-- One step of a path: a relation by name, or every relation. -/
inductive Segment where
  | relation (name : String)
  | wildcard
  deriving DecidableEq, Repr

namespace Segment

def text : Segment → String
  | .relation name => name
  | .wildcard => "*"

end Segment

/-- A path of relations, outermost first. -/
structure RelationPath where
  segments : List Segment
  deriving DecidableEq, Repr

namespace RelationPath

def text (path : RelationPath) : String :=
  ".".intercalate (path.segments.map Segment.text)

end RelationPath

/-- The segment that a token stands for, if it is an atom. -/
def Token.segment? : Token → Option Segment
  | .name text => some (.relation text)
  | .star => some .wildcard
  | .dot | .pipe => none

/-- The alternatives of a segment with one more at the end, unless it is already
among them. -/
def addAlternative (alternatives : List Segment) (segment : Segment) : List Segment :=
  if segment ∈ alternatives then alternatives else alternatives ++ [segment]

mutual

/-- Reads on where an atom must stand. `done` holds the segments before, last
first, and `alternatives` those of the present segment; `stop` is the length of
the source. -/
def readAtom (stop : Nat) (done : List (List Segment)) (alternatives : List Segment) :
    List Item → Except LocatedFault (List (List Segment))
  | [] => .error ⟨.missingName, Span.point stop⟩
  | .fault fault :: _ => .error fault
  | .token token span :: rest =>
      match token.segment? with
      | some segment => readContinuation stop done (addAlternative alternatives segment) rest
      | none => .error ⟨.expectedName token, span⟩

/-- Reads on behind an atom: the expression ends, or another alternative or another
segment follows. -/
def readContinuation (stop : Nat) (done : List (List Segment)) (alternatives : List Segment) :
    List Item → Except LocatedFault (List (List Segment))
  | [] => .ok (alternatives :: done).reverse
  | .fault fault :: _ => .error fault
  | .token .pipe _ :: rest => readAtom stop done alternatives rest
  | .token .dot _ :: rest => readAtom stop (alternatives :: done) [] rest
  | .token token span :: _ => .error ⟨.expectedContinuation token, span⟩

end

/-- The alternatives of every segment of an expression. -/
def segmentsOf (source : String) : Except LocatedFault (List (List Segment)) :=
  match itemsOf source with
  | [] => .error ⟨.emptyPath, Span.point 0⟩
  | items => readAtom (byteLength source.toList) [] [] items

/-- All ways to choose one alternative from every segment; earlier segments vary
slowest. -/
def choices : List (List Segment) → List (List Segment)
  | [] => [[]]
  | alternatives :: rest =>
      alternatives.flatMap fun segment => (choices rest).map fun tail => segment :: tail

/-- One alternative from each segment, in order. -/
inductive IsChoice : List Segment → List (List Segment) → Prop where
  | nil : IsChoice [] []
  | cons {segment : Segment} {choice : List Segment} {alternatives : List Segment}
      {rest : List (List Segment)} (member : segment ∈ alternatives) (tail : IsChoice choice rest) :
      IsChoice (segment :: choice) (alternatives :: rest)

/-- The choices are exactly what takes one alternative from each segment. -/
theorem mem_choices {segments : List (List Segment)} {choice : List Segment} :
    choice ∈ choices segments ↔ IsChoice choice segments := by
  induction segments generalizing choice with
  | nil =>
    constructor
    · intro member
      rw [List.mem_singleton.mp member]
      exact .nil
    · rintro ⟨⟩
      exact List.mem_singleton.mpr rfl
  | cons alternatives rest inductionHypothesis =>
    simp only [choices, List.mem_flatMap, List.mem_map]
    constructor
    · rintro ⟨segment, member, tail, isTail, rfl⟩
      exact .cons member (inductionHypothesis.mp isTail)
    · intro isChoice
      cases isChoice with
      | cons member isTail => exact ⟨_, member, _, inductionHypothesis.mpr isTail, rfl⟩

/-- There are as many choices as the product of the numbers of alternatives. -/
theorem length_choices (segments : List (List Segment)) :
    (choices segments).length
      = segments.foldr (fun alternatives total => alternatives.length * total) 1 := by
  induction segments with
  | nil => rfl
  | cons alternatives rest inductionHypothesis =>
    simp [choices, List.length_flatMap, inductionHypothesis, List.map_const']

/-- The paths that an expression denotes, or the first fault in it. -/
def parse (source : String) : Except LocatedFault (List RelationPath) :=
  (segmentsOf source).map fun segments => (choices segments).map RelationPath.mk

end EagerLoad.Path
