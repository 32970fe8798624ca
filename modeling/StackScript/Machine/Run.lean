import StackScript.Machine.Step

/-!
# Running a chunk

A run executes instructions from the start of a chunk until it returns or faults. Because a script
may run forever, a run is given the number of steps that it may take.
-/

namespace StackScript

/-- How something that may fail, or take longer than it is given, has ended. -/
inductive Outcome (ε : Type) where
  | finished
  | failed (error : ε)
  /-- There were not enough steps. -/
  | unfinished

/-- The outcome with its error changed. -/
def Outcome.mapError {ε ε' : Type} (f : ε → ε') : Outcome ε → Outcome ε'
  | finished => .finished
  | failed error => .failed (f error)
  | unfinished => .unfinished

namespace Machine

/-- Executes instructions from where the machine is, at most as many as `steps` says. A fault is
reported for the line that the machine is on. -/
def runFrom (chunk : Chunk) : (steps : Nat) → Machine → Outcome RuntimeError × Machine
  | 0, m => (.unfinished, m)
  | steps + 1, m =>
    match step chunk m with
    | .ok .running m => runFrom chunk steps m
    | .ok .halted m => (.finished, m)
    | .error fault m => (.failed ⟨fault, m.line⟩, m)

/-- The machine before a run: variables are kept, the stack is not. The line stays the one of the
run before, until the first instruction starts. -/
def reset (m : Machine) : Machine :=
  { m with stack := #[], ip := 0 }

/-- Runs a chunk from its start. -/
def run (chunk : Chunk) (steps : Nat) (m : Machine) : Outcome RuntimeError × Machine :=
  runFrom chunk steps m.reset

end Machine

end StackScript
