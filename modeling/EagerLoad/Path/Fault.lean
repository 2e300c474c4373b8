import EagerLoad.Path.Span

/-!
Contract: what can be wrong with a path expression.

Owns: the tokens and their description, the causes of rejection with their
wording, and the report that marks a fault in its source line.

Does not own: when a cause arises (`Path/Token.lean`, `Path/Grammar.lean`).
-/

set_option autoImplicit false

namespace EagerLoad.Path

inductive Token where
  | dot
  | pipe
  | star
  | name (text : String)
  deriving DecidableEq, Repr

namespace Token

def describe : Token → String
  | .dot => "'.'"
  | .pipe => "'|'"
  | .star => "'*'"
  | .name text => "'" ++ text ++ "'"

end Token

inductive Fault where
  | reservedBlank (char : Char)
  | emptyPath
  | missingName
  | expectedName (found : Token)
  | expectedContinuation (found : Token)
  deriving DecidableEq, Repr

namespace Fault

def message : Fault → String
  | .reservedBlank char => "unexpected character '" ++ char.toString ++ "'"
  | .emptyPath => "empty relation path"
  | .missingName => "unexpected end of relation path"
  | .expectedName found => "expected relation name or '*', found " ++ found.describe
  | .expectedContinuation found => "expected '.' or '|', found " ++ found.describe

/-- What to do about a fault, where there is something to say. -/
def hint? : Fault → Option String
  | .reservedBlank _ => some "'.', '|' and '*' are reserved in relation paths"
  | .emptyPath => some "name at least one relation, or use '*'"
  | .missingName | .expectedName _ | .expectedContinuation _ => none

end Fault

structure LocatedFault where
  fault : Fault
  span : Span
  deriving DecidableEq, Repr

/-! ## Reports -/

/-- A message about a place in a source text. -/
structure Diagnostic where
  message : String
  span : Span
  hint : Option String
  deriving DecidableEq, Repr

def LocatedFault.diagnostic (located : LocatedFault) : Diagnostic where
  message := located.fault.message
  span := located.span
  hint := located.fault.hint?

namespace Diagnostic

/-- The characters that mark a span: a caret, and a tilde for every further byte. -/
def marks (span : Span) : List Char :=
  '^' :: List.replicate (span.length - 1) '~'

/-- The line that marks the span under the source line. -/
def markerLine (diagnostic : Diagnostic) (source : String) : String :=
  String.ofList (List.replicate (columnOf source diagnostic.span.start - 1) ' '
    ++ marks diagnostic.span)

/-- The report of a message: the source with the span marked below it, and the
hint last. -/
def report (diagnostic : Diagnostic) (source : String) : String :=
  "error: " ++ diagnostic.message ++ "\n"
    ++ "  --> column " ++ Nat.repr (columnOf source diagnostic.span.start) ++ "\n"
    ++ "   |\n"
    ++ "   | " ++ source ++ "\n"
    ++ "   | " ++ diagnostic.markerLine source ++ "\n"
    ++ match diagnostic.hint with
      | some hint => "   = hint: " ++ hint ++ "\n"
      | none => ""

end Diagnostic

end EagerLoad.Path
