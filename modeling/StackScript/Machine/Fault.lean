import StackScript.Bytecode.Opcode

/-!
# Faults

Why the machine stops before the end of a script.
-/

namespace StackScript

/-- Why an instruction cannot be executed. -/
inductive Fault where
  | endOfCode
  | unknownOpcode (byte : UInt8)
  | reservedOpcode (opcode : Opcode)
  | invalidConstant (index : UInt8)
  /-- The constant that should name a variable is of another type. -/
  | notAName (typeName : String)
  | invalidSlot (slot : UInt8)
  | stackOverflow
  | stackUnderflow
  | undefinedVariable (name : String)
  | operandsNotAddable
  | operandsNotNumbers
  | operandNotNumber
  | loopBeforeStart
  | outputFull
deriving DecidableEq

/-- What an output says that takes no more. -/
def outputFullMessage : String := "sink full"

def Fault.message : Fault → String
  | endOfCode => "Unexpected end of bytecode."
  | unknownOpcode byte => s!"Unknown opcode {byte.toNat}."
  | reservedOpcode opcode => s!"Unimplemented opcode {opcode.mnemonic}."
  | invalidConstant index => s!"Invalid constant {index.toNat}."
  | notAName typeName => s!"Expect variable name, got {typeName}."
  | invalidSlot slot => s!"Invalid local slot {slot.toNat}."
  | stackOverflow => "Stack overflow."
  | stackUnderflow => "Stack underflow."
  | undefinedVariable name => s!"Undefined variable '{name}'."
  | operandsNotAddable => "Operands must be two numbers or two strings."
  | operandsNotNumbers => "Operands must be numbers."
  | operandNotNumber => "Operand must be a number."
  | loopBeforeStart => "Loop target before start of chunk."
  | outputFull => s!"Print failed: {outputFullMessage}."

/-- A fault and the source line of the instruction that raised it. -/
structure RuntimeError where
  fault : Fault
  line : Nat
deriving DecidableEq

def RuntimeError.display (e : RuntimeError) : String :=
  s!"{e.fault.message}\n[line {e.line}] in script"

end StackScript
