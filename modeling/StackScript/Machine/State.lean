import Std.Data.ExtTreeMap
import StackScript.Bytecode.Chunk
import StackScript.Machine.Fault
import StackScript.Machine.Output

/-!
# The state of the machine

The machine has a stack of operands and locals, the global variables, the offset of the next byte to
read, the line that it is on, and an output. An action either succeeds or faults; what it has
changed before a fault stays changed.
-/

namespace StackScript

/-- The global variables. -/
abbrev Globals := Std.ExtTreeMap String Value

structure Machine where
  /-- The stack, its top last. -/
  stack : Array Value
  globals : Globals
  /-- The offset of the next byte of code. -/
  ip : Nat
  /-- The line on which the latest instruction starts. -/
  line : Nat
  output : Output

/-- Part of the execution of an instruction. -/
abbrev MachineM := EStateM Fault Machine

namespace Machine

/-- A machine without variables that prints to the given output. -/
def start (output : Output) : Machine where
  stack := #[]
  globals := ∅
  ip := 0
  line := 0
  output := output

/-- The greatest number of values on the stack. -/
def maxStack : Nat := 16384

/-! ### Reading the code

Bytes are read at the place where the machine is, which moves behind them. -/

/-- Notes the line of the instruction that is read next. -/
@[inline] def noteLine (chunk : Chunk) : MachineM Unit :=
  modify fun m => { m with line := chunk.line m.ip }

@[inline] def fetchByte (chunk : Chunk) : MachineM UInt8 := do
  match chunk.readByte? (← get).ip with
  | some byte =>
    modify fun m => { m with ip := m.ip + 1 }
    return byte
  | none => throw .endOfCode

@[inline] def fetchWord (chunk : Chunk) : MachineM UInt16 := do
  match chunk.readWord? (← get).ip with
  | some word =>
    modify fun m => { m with ip := m.ip + 2 }
    return word
  | none => throw .endOfCode

/-- The constant to which the next byte refers. -/
@[inline] def fetchConstant (chunk : Chunk) : MachineM Value := do
  let index ← fetchByte chunk
  match chunk.constants[index.toNat]? with
  | some value => return value
  | none => throw (.invalidConstant index)

/-- The variable's name to which the next byte refers. -/
@[inline] def fetchName (chunk : Chunk) : MachineM String := do
  match ← fetchConstant chunk with
  | .string name => return name
  | value => throw (.notAName value.typeName)

/-! ### The stack

Its height is limited, and nothing can be taken off an empty stack. -/

@[inline] def push (value : Value) : MachineM Unit := do
  if (← get).stack.size < maxStack then
    modify fun m => { m with stack := m.stack.push value }
  else
    throw .stackOverflow

@[inline] def pop : MachineM Value := do
  match (← get).stack.back? with
  | some value =>
    modify fun m => { m with stack := m.stack.pop }
    return value
  | none => throw .stackUnderflow

/-- The value on top of the stack. -/
@[inline] def peek : MachineM Value := do
  match (← get).stack.back? with
  | some value => return value
  | none => throw .stackUnderflow

@[inline] def getLocal (slot : UInt8) : MachineM Value := do
  match (← get).stack[slot.toNat]? with
  | some value => return value
  | none => throw (.invalidSlot slot)

@[inline] def setLocal (slot : UInt8) (value : Value) : MachineM Unit :=
  modify fun m => { m with stack := m.stack.setIfInBounds slot.toNat value }

/-! ### Variables and output

Globals are found by name, and text is written as far as the output has room. -/

@[inline] def getGlobal (name : String) : MachineM Value := do
  match (← get).globals[name]? with
  | some value => return value
  | none => throw (.undefinedVariable name)

def defineGlobal (name : String) (value : Value) : MachineM Unit :=
  modify fun m => { m with globals := m.globals.insert name value }

/-- Writes a line. -/
def printLine (text : String) : MachineM Unit := do
  let complete ← modifyGet fun m =>
    let result := m.output.writeText (text ++ "\n")
    (result.1, { m with output := result.2 })
  unless complete do
    throw .outputFull

/-- Goes on at a distance after the next instruction. -/
@[inline] def jumpForward (distance : UInt16) : MachineM Unit :=
  modify fun m => { m with ip := m.ip + distance.toNat }

/-- Goes on at a distance before the next instruction. -/
@[inline] def jumpBackward (distance : UInt16) : MachineM Unit := do
  if distance.toNat ≤ (← get).ip then
    modify fun m => { m with ip := m.ip - distance.toNat }
  else
    throw .loopBeforeStart

end Machine

end StackScript
