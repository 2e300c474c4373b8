import EagerLoad.CommandLine.Arguments
import EagerLoad.Fixture

/-!
Contract: what the program answers.

Owns: the checks of the arguments, the graph and the query that they describe, the
printed result, and the causes of failure with their wording.

Does not own: the reading of files and the streams of the process
(`Main.lean`).

The checks come in a fixed order: the depth, each path in order, the file, the
fixture in it, its data. Unlike a query, which passes over a path it cannot read,
the program refuses to run with one.
-/

set_option autoImplicit false

namespace EagerLoad.CommandLine

open Json

inductive Failure where
  | depthWithoutRecursion
  | invalidPath (source : String) (located : Path.LocatedFault)
  | unreadableFile (path reason : String)
  | invalidFixture (cause : ReadError)
  | refusedData (refusal : DataError)

namespace Failure

def message : Failure → String
  | .depthWithoutRecursion => "--depth needs --with-all-recursive or --with-recursive"
  | .invalidPath source located => "invalid --with path\n" ++ located.diagnostic.report source
  | .unreadableFile path reason => "failed to read " ++ path ++ ": " ++ reason
  | .invalidFixture .malformed => "invalid fixture"
  | .invalidFixture (.mismatch cause) => "invalid fixture: " ++ cause.message
  | .refusedData refusal => refusal.message

end Failure

namespace Arguments

def isRecursive (arguments : Arguments) : Bool :=
  arguments.withAllRecursive || !arguments.withRecursive.isEmpty

/-- The first path that cannot be read. -/
def checkPaths : List String → Except Failure Unit
  | [] => .ok ()
  | source :: rest =>
      match Path.parse source with
      | .ok _ => checkPaths rest
      | .error located => .error (.invalidPath source located)

def check (arguments : Arguments) : Except Failure Unit :=
  if arguments.depth.isSome && !arguments.isRecursive then .error .depthWithoutRecursion
  else checkPaths arguments.withPaths

/-- The settings of a fixture, changed as the arguments say. -/
def settings (arguments : Arguments) (fixture : Fixture) : Settings :=
  let declared := fixture.settings.getD {}
  { declared with
    fillUnloadedRelations := declared.fillUnloadedRelations || arguments.fillUnloaded
    syntheticIdField := arguments.idField.getD declared.syntheticIdField }

def graph (arguments : Arguments) (text : String) : Except Failure Graph :=
  match Fixture.ofText text with
  | .error cause => .error (.invalidFixture cause)
  | .ok fixture =>
      match { fixture with settings := some (arguments.settings fixture) }.toGraph with
      | .error refusal => .error (.refusedData refusal)
      | .ok graph => .ok graph

/-- A query with a request added when a condition holds. -/
def loadWhen (condition : Bool) (request : Load) (query : Query) : Query :=
  if condition then query.load request else query

def query (arguments : Arguments) (graph : Graph) : Query :=
  let depth := Depth.ofLimit? arguments.depth
  let query := graph.query arguments.entity
  let query :=
    if arguments.withPaths.isEmpty then query else query.withPaths (.many arguments.withPaths)
  let query := loadWhen arguments.withAll .all query
  let query := loadWhen arguments.withAllRecursive (.allRecursive depth) query
  loadWhen (!arguments.withRecursive.isEmpty) (.recursive arguments.withRecursive depth) query

/-- The result of a query: the record of an identity, the first one, or all. -/
def result (arguments : Arguments) (query : Query) : Value :=
  match arguments.find, arguments.first with
  | some identity, _ => (query.find (.string identity)).getD .null
  | none, true => query.first.getD .null
  | none, false => .array query.get

def print (arguments : Arguments) (value : Value) : String :=
  (if arguments.compact then value.compact else value.indented) ++ "\n"

/-- What the program prints, given the content of the fixture file or the reason why
it cannot be read. -/
def run (arguments : Arguments) (content : Except String String) : Except Failure String :=
  match arguments.check with
  | .error failure => .error failure
  | .ok () =>
      match content with
      | .error reason => .error (.unreadableFile arguments.fixture reason)
      | .ok text =>
          match arguments.graph text with
          | .error failure => .error failure
          | .ok graph => .ok (arguments.print (arguments.result (arguments.query graph)))

end Arguments

/-- How the program ends: with printed text, with a failure, or for arguments that
are not in order. -/
inductive Outcome where
  | printed (text : String)
  | failed (failure : Failure)
  | refused

/-- The outcome for an argument list, given what is known of the files. -/
def outcome (arguments : List String) (content : String → Except String String) : Outcome :=
  match Arguments.ofList arguments with
  | .error .notInOrder => .refused
  | .error (.describe description) => .printed description.text
  | .ok arguments =>
      match arguments.run (content arguments.fixture) with
      | .ok text => .printed text
      | .error failure => .failed failure

end EagerLoad.CommandLine
