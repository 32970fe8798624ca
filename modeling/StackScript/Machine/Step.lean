import StackScript.Machine.State

/-!
# Executing an instruction

`step` notes the line, reads an opcode and its operand from the code and does what the opcode says.
An operand is read before the stack is looked at, and operators take their operands off the stack
before they look at the operands' types.
-/

namespace StackScript.Machine

/-- Whether the machine goes on after an instruction. -/
inductive Progress where
  | running
  | halted
deriving DecidableEq

/-- The sum of two numbers or of two texts. -/
def addValues : Value → Value → MachineM Value
  | .number a, .number b => return .number (a + b)
  | .string a, .string b => return .string (a ++ b)
  | _, _ => throw .operandsNotAddable

/-- An operation on two numbers. -/
@[inline] def onNumbers (operation : Float → Float → Value) : Value → Value → MachineM Value
  | .number a, .number b => return operation a b
  | _, _ => throw .operandsNotNumbers

/-- Replaces the two topmost values by the result of an operation on them. -/
@[inline] def binary (operation : Value → Value → MachineM Value) : MachineM Unit := do
  let right ← pop
  let left ← pop
  push (← operation left right)

/-- Replaces the number on top of the stack by its opposite. -/
def negateTop : MachineM Unit := do
  match ← pop with
  | .number a => push (.number (-a))
  | _ => throw .operandNotNumber

/-- Does what an opcode says; its operand is still to be read. -/
def perform (chunk : Chunk) : Opcode → MachineM Unit
  | .constant => do push (← fetchConstant chunk)
  | .nil => push .nil
  | .true => push (.bool true)
  | .false => push (.bool false)
  | .pop => do discard pop
  | .getLocal => do push (← getLocal (← fetchByte chunk))
  | .setLocal => do
    let slot ← fetchByte chunk
    discard (getLocal slot)
    setLocal slot (← peek)
  | .getGlobal => do push (← getGlobal (← fetchName chunk))
  | .defineGlobal => do
    let name ← fetchName chunk
    defineGlobal name (← pop)
  | .setGlobal => do
    let name ← fetchName chunk
    let value ← peek
    discard (getGlobal name)
    defineGlobal name value
  | .equal => binary fun a b => return .bool (a.equals b)
  | .greater => binary (onNumbers fun a b => .bool (a > b))
  | .less => binary (onNumbers fun a b => .bool (a < b))
  | .add => binary addValues
  | .subtract => binary (onNumbers fun a b => .number (a - b))
  | .multiply => binary (onNumbers fun a b => .number (a * b))
  | .divide => binary (onNumbers fun a b => .number (a / b))
  | .not => do push (.bool (← pop).isFalsey)
  | .negate => negateTop
  | .print => do printLine (← pop).display
  | .jump => do jumpForward (← fetchWord chunk)
  | .jumpIfFalse => do
    let distance ← fetchWord chunk
    if (← peek).isFalsey then
      jumpForward distance
  | .loop => do jumpBackward (← fetchWord chunk)
  | .ret => pure ()
  | opcode => throw (.reservedOpcode opcode)

/-- Executes the next instruction. -/
def step (chunk : Chunk) : MachineM Progress := do
  noteLine chunk
  let byte ← fetchByte chunk
  match Opcode.ofByte? byte with
  | none => throw (.unknownOpcode byte)
  | some opcode =>
    perform chunk opcode
    return if opcode = .ret then .halted else .running

end StackScript.Machine
