import StackScript.Bytecode.Listing
import StackScript.Script

/-!
# Traces

A trace tells what compiling and running did, step by step: the errors of the compiler, a summary
and a listing of the code, and each instruction with the stack before it.
-/

namespace StackScript.Trace

inductive Event where
  | compileError (error : Compile.Error)
  /-- The compiler has left a script with this many locals declared. -/
  | closedUnit (locals : Nat)
  | compiled (bytes constants errors : Nat)
  | listing (text : String)
  /-- An instruction is about to be executed. -/
  | instruction (text stack : String)

/-- The fields of an event's record, with their names. -/
def Event.fields : Event → List (String × String)
  | compileError error =>
    [("level", "WARN"), ("message", "compile error"), ("error", error.display)]
  | closedUnit locals =>
    [("level", "TRACE"), ("message", "closed compile unit"), ("kind", "Script"),
      ("locals", toString locals)]
  | compiled bytes constants errors =>
    [("level", "DEBUG"), ("message", "compiled script"), ("bytes", toString bytes),
      ("constants", toString constants), ("errors", toString errors)]
  | listing text => [("level", "TRACE"), ("message", text)]
  | instruction text stack => [("level", "TRACE"), ("message", text), ("stack", stack)]

/-- What compiling a script did. -/
def ofCompilation (c : Compile.Compilation) : List Event :=
  let summary :=
    [.closedUnit c.locals, .compiled c.chunk.size c.chunk.constants.size c.errors.length]
  let code := if c.errors.isEmpty then [.listing ("\n" ++ c.chunk.listing "code")] else []
  c.errors.map .compileError ++ summary ++ code

/-- The values on a stack, the top last. -/
def stackText (stack : Array Value) : String :=
  "[" ++ ", ".intercalate (stack.toList.map Value.display) ++ "]"

/-- What the machine is about to do. -/
def beforeStep (chunk : Chunk) (m : Machine) : Event :=
  .instruction (chunk.entry m.ip).1 (stackText m.stack)

/-- Runs like `Machine.runFrom` and records an event before every step. -/
def runFrom (chunk : Chunk) : (steps : Nat) → Machine → Array Event →
    Array Event × Outcome RuntimeError × Machine
  | 0, m, events => (events, .unfinished, m)
  | steps + 1, m, events =>
    let events := events.push (beforeStep chunk m)
    match Machine.step chunk m with
    | .ok .running m => runFrom chunk steps m events
    | .ok .halted m => (events, .finished, m)
    | .error fault m => (events, .failed ⟨fault, m.line⟩, m)

/-- Runs a chunk from its start, after the events so far. -/
def run (chunk : Chunk) (steps : Nat) (m : Machine) (events : Array Event) :
    Array Event × Outcome Script.Error × Machine :=
  let result := runFrom chunk steps m.reset events
  (result.1, result.2.1.mapError .runtime, result.2.2)

/-- Compiles and runs a script. -/
def execute (steps : Nat) (source : String) (m : Machine) :
    Array Event × Outcome Script.Error × Machine :=
  match Token.scan source with
  | .error error => (#[], .failed (.scan error), m)
  | .ok tokens =>
    let compilation := Compile.compile tokens
    let events := (ofCompilation compilation).toArray
    match compilation.result with
    | .error errors => (events, .failed (.compile errors), m)
    | .ok chunk => run chunk steps m events

end StackScript.Trace
