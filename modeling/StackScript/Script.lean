import StackScript.Compile.Program
import StackScript.Machine.Run
import StackScript.Token.Scan

/-!
# Scripts

From the text of a script to what running it does: scan, compile, run. A script that cannot be
compiled does not touch the machine.
-/

namespace StackScript.Script

/-- Why a script has failed. -/
inductive Error where
  | scan (error : ScanError)
  | compile (errors : List Compile.Error)
  | runtime (error : RuntimeError)

/-- The report of a failure; errors of the compiler stand on a line each. -/
def Error.display : Error → String
  | scan error => error.message
  | compile errors => "\n".intercalate (errors.map Compile.Error.display)
  | runtime error => error.display

/-- The chunk of a script. -/
def compile (source : String) : Except Error Chunk := do
  let tokens ← (Token.scan source).mapError .scan
  (Compile.compile tokens).result.mapError .compile

/-- Compiles and runs a script on a machine, for at most the given number of steps. -/
def execute (steps : Nat) (source : String) (m : Machine) : Outcome Error × Machine :=
  match compile source with
  | .error error => (.failed error, m)
  | .ok chunk =>
    let result := m.run chunk steps
    (result.1.mapError .runtime, result.2)

/-- The kinds of outcome that an exit status tells apart. -/
inductive Status where
  | ok
  | compileError
  | runtimeError
  | unfinished
deriving DecidableEq

def Status.ofOutcome : Outcome Error → Status
  | .finished => ok
  | .failed (.scan _) | .failed (.compile _) => compileError
  | .failed (.runtime _) => runtimeError
  | .unfinished => unfinished

/-- The exit status of the program: wrong data, a fault of the script, or a temporary failure. -/
def Status.exitCode : Status → Nat
  | ok => 0
  | compileError => 65
  | runtimeError => 70
  | unfinished => 75

/-- What is reported to the user about an outcome: one text ended by a newline, or nothing. -/
def diagnostic : Outcome Error → String
  | .failed error => error.display ++ "\n"
  | _ => ""

end StackScript.Script
