import StackScript.Session

/-!
# The command line

Given the path of a script the program runs it; without one it holds a session. It prints to its
output, reports failures apart from that, and ends with an exit code.
-/

namespace StackScript.CommandLine

/-- The exit code when a script or the input cannot be read. -/
def unreadableExitCode : Nat := 74

/-- What a run of the program leaves behind. -/
structure Response where
  exitCode : Nat
  output : Array UInt8
  diagnostics : String

/-- Why a script cannot be read. -/
inductive FileError where
  | missing
  | invalidText
deriving DecidableEq

def FileError.message : FileError → String
  | missing => "No such file or directory (os error 2)"
  | invalidText => StreamError.invalidText.message

/-- The text of a file with the given contents; a file that does not exist has none. -/
def readText (contents : Option (List UInt8)) : Except FileError String :=
  match contents with
  | none => .error .missing
  | some bytes =>
    match Text.decode? bytes with
    | none => .error .invalidText
    | some text => .ok text

/-- Runs the script at `path`, whose contents are given. -/
def runScript (steps : Nat) (path : String) (contents : Option (List UInt8)) : Response :=
  match readText contents with
  | .error error =>
    { exitCode := unreadableExitCode
      output := #[]
      diagnostics := s!"Could not read {path}: {error.message}\n" }
  | .ok source =>
    let result := Script.execute steps source (.start (.ofRoom none))
    { exitCode := (Script.Status.ofOutcome result.1).exitCode
      output := result.2.output.written
      diagnostics := Script.diagnostic result.1 }

/-- The exit code and the last report of a session. -/
def endOfSession : Outcome StreamError → Nat × String
  | .finished => (0, "")
  | .failed error => (unreadableExitCode, error.message ++ "\n")
  | .unfinished => (Script.Status.unfinished.exitCode, "")

/-- The session with which the program starts. -/
def startSession : Session :=
  .start (.start (.ofRoom none)) none

/-- Holds a session over all of the input. -/
def runSession (steps : Nat) (input : List UInt8) : Response :=
  let result := startSession.converse steps input
  let ending := endOfSession result.1
  { exitCode := ending.1
    output := result.2.screen.written
    diagnostics := result.2.diagnostics ++ ending.2 }

end StackScript.CommandLine
