import EagerLoad.CommandLine.Run

/-!
Contract: the program as a process.

Owns: the reading of the fixture file, the output streams and the exit status:
`0` for printed text, `1` for a failure, `2` for arguments that are not in order.

Does not own: anything that is decided on the way (`CommandLine/Run.lean`).
-/

set_option autoImplicit false

namespace EagerLoad.CommandLine

/-- Why the operating system does not let a file be read. -/
def reasonOf (error : IO.Error) : String :=
  match error with
  | .noFileOrDirectory _ code details => details ++ " (os error " ++ Nat.repr code.toNat ++ ")"
  | .permissionDenied _ code details => details ++ " (os error " ++ Nat.repr code.toNat ++ ")"
  | .inappropriateType _ code details => details ++ " (os error " ++ Nat.repr code.toNat ++ ")"
  | .invalidArgument _ code details => details ++ " (os error " ++ Nat.repr code.toNat ++ ")"
  | .otherError code details => details ++ " (os error " ++ Nat.repr code.toNat ++ ")"
  | error => toString error

/-- The text of a file, or the reason why it cannot be read. -/
def fileContent (path : String) : IO (Except String String) := do
  match ← (IO.FS.withFile path .read fun handle => handle.readBinToEnd).toBaseIO with
  | .error error => return .error (reasonOf error)
  | .ok bytes =>
      match String.fromUTF8? bytes with
      | some text => return .ok text
      | none => return .error "stream did not contain valid UTF-8"

def reportFailure (failure : Failure) : IO UInt32 := do
  IO.eprintln ("Error: " ++ failure.message)
  return 1

/-- Runs the program for arguments that are in order. The file is not touched when
the arguments alone are reason enough to fail. -/
def perform (arguments : Arguments) : IO UInt32 := do
  match arguments.check with
  | .error failure => reportFailure failure
  | .ok () =>
      match arguments.run (← fileContent arguments.fixture) with
      | .error failure => reportFailure failure
      | .ok text =>
          IO.print text
          return 0

def runProcess (arguments : List String) : IO UInt32 := do
  match Arguments.ofList arguments with
  | .error .notInOrder =>
      IO.eprintln ("error: the arguments are not in order; try '" ++ programName ++ " --help'")
      return 2
  | .error (.describe description) =>
      IO.print description.text
      return 0
  | .ok arguments => perform arguments

end EagerLoad.CommandLine

def main (arguments : List String) : IO UInt32 :=
  EagerLoad.CommandLine.runProcess arguments
