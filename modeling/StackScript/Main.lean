import StackScript.CommandLine

/-!
# The program

Reads a script or the lines of a session, and prints. Everything else is done by `CommandLine`.
-/

namespace StackScript

/-- More steps than a run can take in practice. -/
def stepLimit : Nat := 0x4000000000000000

/-- Prints bytes and reports, and flushes both. -/
def deliver (output : Array UInt8) (diagnostics : String) : IO Unit := do
  let stdout ← IO.getStdout
  stdout.write ⟨output⟩
  stdout.flush
  let stderr ← IO.getStderr
  stderr.putStr diagnostics
  stderr.flush

/-- Runs the script at a path. -/
def runFile (path : String) : IO UInt32 := do
  let contents ←
    try
      pure (some (← IO.FS.readBinFile path).data.toList)
    catch _ =>
      pure none
  let response := CommandLine.runScript stepLimit path contents
  deliver response.output response.diagnostics
  return response.exitCode.toUInt32

/-- Reads a line with its end. -/
partial def readLine (input : IO.FS.Stream) (line : Array UInt8) : IO (List UInt8) := do
  let bytes ← input.read 1
  let line := line ++ bytes.data
  if bytes.isEmpty || bytes.data.back? == some '\n'.toUInt8 then
    return line.toList
  else
    readLine input line

/-- Prints what a session has to show and forgets it. -/
def refresh (s : Session) : IO Session := do
  let shown := s.screen.drain
  deliver shown.1 s.diagnostics
  return {
    machine := { s.machine with output := s.machine.output.drain.2 }
    screen := shown.2
    diagnostics := "" }

/-- Holds a session with the user. -/
partial def converseWith (input : IO.FS.Stream) (s : Session) : IO UInt32 := do
  let s ← refresh (s.say Session.prompt).2
  match s.turn stepLimit (← readLine input #[]) with
  | .goOn s => converseWith input s
  | .ended outcome s =>
    let ending := CommandLine.endOfSession outcome
    let _ ← refresh { s with diagnostics := s.diagnostics ++ ending.2 }
    return ending.1.toUInt32

end StackScript

def main (arguments : List String) : IO UInt32 := do
  match arguments with
  | [] => StackScript.converseWith (← IO.getStdin) StackScript.CommandLine.startSession
  | [path] => StackScript.runFile path
  | _ =>
    (← IO.getStderr).putStrLn "usage: stackscript [SCRIPT]"
    return 2
