import StackScript.Bytecode.Chunk
import StackScript.Compile.Cursor
import StackScript.Compile.Error
import StackScript.Compile.Scope

/-!
# The state of the compiler

Compiling is one pass over the tokens that appends code as it goes. A step either succeeds or fails
with an error; in both cases the state it reached is kept, because the compiler goes on after an
error. A jump over code that is not there yet is first emitted with a placeholder and is open until
its distance is filled in.
-/

namespace StackScript.Compile

structure State where
  cursor : Cursor
  chunk : Chunk
  scope : Scope
  /-- The operands of the jumps whose distance is still to be filled in, the latest first. -/
  openJumps : List Nat
  /-- The errors found so far. -/
  errors : Array Error

def State.start (tokens : List Token) : State where
  cursor := .start tokens
  chunk := .empty
  scope := .empty
  openJumps := []
  errors := #[]

/-- A step of the compiler. -/
abbrev CompileM := EStateM Error State

/-- Runs a step and returns its error, if it has one, as a value. -/
def attempt (step : CompileM Unit) : CompileM (Option Error) := fun s =>
  match step s with
  | .ok _ s => .ok none s
  | .error e s => .ok (some e) s

/-- Fails with an error that an attempt returned. -/
def settle : Option Error → CompileM Unit
  | none => pure ()
  | some e => throw e

/-! ### Tokens

Steps that look at tokens, pass them or report one. -/

/-- The token passed last. -/
def previous : CompileM Token :=
  return (← get).cursor.previous

/-- The next token. -/
def current : CompileM Token :=
  return (← get).cursor.current

def advance : CompileM Unit :=
  modify fun s => { s with cursor := s.cursor.advance }

/-- Passes the next token if it has the given kind, and tells whether it had. -/
def accept (kind : Kind) : CompileM Bool := do
  if (← current).kind = kind then
    advance
    return true
  else
    return false

/-- Fails at the token passed last. -/
def failAtPrevious {α : Type} (cause : Cause) : CompileM α := do
  throw (.atToken (← previous) cause)

/-- Fails at the next token. -/
def failAtCurrent {α : Type} (cause : Cause) : CompileM α := do
  throw (.atToken (← current) cause)

/-- Passes the next token if it has the given kind, and fails at it otherwise. -/
def expect (kind : Kind) (what : Expectation) : CompileM Unit := do
  unless ← accept kind do
    failAtCurrent (.expected what)

/-! ### Code

Instructions are emitted for the line of the token passed last, and jumps forward are completed
later. -/

/-- The number of bytes emitted so far. -/
def codeSize : CompileM Nat :=
  return (← get).chunk.size

/-- Appends an instruction on the line of the token passed last and returns its offset. -/
def emitAt (i : Instruction) : CompileM Nat :=
  modifyGet fun s =>
    let (offset, chunk) := s.chunk.emit i s.cursor.previous.line
    (offset, { s with chunk })

/-- Appends an instruction. -/
def emit (i : Instruction) : CompileM Unit := do
  discard (emitAt i)

/-- Adds a constant and returns its index. -/
def addConstant (value : Value) : CompileM UInt8 := do
  match (← get).chunk.addConstant? value with
  | some (index, chunk) =>
    modify fun s => { s with chunk }
    return index
  | none => failAtPrevious .tooManyConstants

def emitConstant (value : Value) : CompileM Unit := do
  emit (.constant (← addConstant value))

/-- The greatest distance of a jump. -/
def maxDistance : Nat := 65535

/-- Emits a jump with a placeholder for its distance and returns the offset of its operand. -/
def emitJump (jump : UInt16 → Instruction) : CompileM Nat := do
  let operand := (← emitAt (jump maxDistance.toUInt16)) + 1
  modify fun s => { s with openJumps := operand :: s.openJumps }
  return operand

/-- Lets an open jump lead to the end of the code. Its distance counts from the end of the
instruction, two bytes after the start of the operand. -/
def patchJump (operand : Nat) : CompileM Unit := do
  let size ← codeSize
  if operand + 2 ≤ size ∧ operand ∈ (← get).openJumps then
    let distance := size - (operand + 2)
    if distance ≤ maxDistance then
      modify fun s =>
        { s with
          chunk := s.chunk.patchWord operand distance.toUInt16
          openJumps := s.openJumps.erase operand }
    else failAtPrevious .jumpTooFar
  else failAtPrevious .misplacedJump

/-- Emits a jump back to `start`. Its distance includes the three bytes of the jump itself. -/
def emitLoop (start : Nat) : CompileM Unit := do
  let size ← codeSize
  if start ≤ size then
    let distance := size - start + 3
    if distance ≤ maxDistance then emit (.loop distance.toUInt16)
    else failAtPrevious .loopTooLarge
  else failAtPrevious .misplacedJump

/-! ### Variables

Locals live in the scope, globals are named by constants. -/

/-- Runs a step in a block of its own. The block is closed even if the step fails, and its locals
are dropped from the stack. -/
def inBlock (body : CompileM Unit) : CompileM Unit := do
  modify fun s => { s with scope := s.scope.beginBlock }
  let outcome ← attempt body
  let scope := (← get).scope
  let closed := scope.endBlock
  modify fun s => { s with scope := closed }
  (List.replicate (scope.locals.length - closed.locals.length) Instruction.pop).forM emit
  settle outcome

/-- Adds the constant that holds a variable's name. -/
def nameConstant (name : String) : CompileM UInt8 :=
  addConstant (.string name)

/-- Declares the variable named by the token passed last. A global is not declared; the index of its
name is returned instead. -/
def declareVariable : CompileM (Option UInt8) := do
  let name := (← previous).lexeme
  let scope := (← get).scope
  if scope.depth = 0 then
    return some (← nameConstant name)
  else if scope.declares name then
    failAtPrevious .alreadyDeclared
  else if scope.isFull then
    failAtPrevious .tooManyLocals
  else
    modify fun s => { s with scope := s.scope.declare name }
    return none

/-- Binds a declared variable to the value on top of the stack. -/
def defineVariable : Option UInt8 → CompileM Unit
  | some name => emit (.defineGlobal name)
  | none => modify fun s => { s with scope := s.scope.markInitialized }

/-- The instructions that read and write a variable. -/
structure Access where
  get : Instruction
  set : Instruction
deriving DecidableEq

/-- How to reach a variable: the latest local of its name, or else the global. -/
def access (name : String) : CompileM Access := do
  match (← get).scope.resolve name with
  | some (slot, l) =>
    if l.depth.isNone then failAtPrevious .selfReference
    else return ⟨.getLocal slot, .setLocal slot⟩
  | none =>
    let index ← nameConstant name
    return ⟨.getGlobal index, .setGlobal index⟩

end StackScript.Compile
