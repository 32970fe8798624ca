import StackScript.Bytecode.Opcode

/-!
# Instructions

An instruction is an opcode with its operand: an index or a slot in one byte, or a distance in two
bytes, the high one first. Reserved opcodes have no instruction.
-/

namespace StackScript

/-- What the machine can execute. -/
inductive Instruction where
  | constant (index : UInt8)
  | nil
  | true
  | false
  | pop
  | getLocal (slot : UInt8)
  | setLocal (slot : UInt8)
  | getGlobal (name : UInt8)
  | defineGlobal (name : UInt8)
  | setGlobal (name : UInt8)
  | equal
  | greater
  | less
  | add
  | subtract
  | multiply
  | divide
  | not
  | negate
  | print
  /-- Jumps forward; distances count from the end of the instruction. -/
  | jump (distance : UInt16)
  | jumpIfFalse (distance : UInt16)
  /-- Jumps backward. -/
  | loop (distance : UInt16)
  | ret
deriving DecidableEq

/-- The operand that follows an opcode. -/
inductive Operand where
  | none
  | byte (value : UInt8)
  | word (value : UInt16)
deriving DecidableEq

/-- The high byte of a word. -/
def highByte (word : UInt16) : UInt8 :=
  (word >>> 8).toUInt8

/-- The low byte of a word. -/
def lowByte (word : UInt16) : UInt8 :=
  word.toUInt8

/-- The word with the given high and low bytes. -/
def wordOfBytes (high low : UInt8) : UInt16 :=
  high.toUInt16 <<< 8 ||| low.toUInt16

namespace Operand

def width : Operand → Nat
  | none => 0
  | byte _ => 1
  | word _ => 2

def encode : Operand → List UInt8
  | none => []
  | byte value => [value]
  | word value => [highByte value, lowByte value]

end Operand

namespace Instruction

def opcode : Instruction → Opcode
  | constant _ => .constant
  | nil => .nil
  | true => .true
  | false => .false
  | pop => .pop
  | getLocal _ => .getLocal
  | setLocal _ => .setLocal
  | getGlobal _ => .getGlobal
  | defineGlobal _ => .defineGlobal
  | setGlobal _ => .setGlobal
  | equal => .equal
  | greater => .greater
  | less => .less
  | add => .add
  | subtract => .subtract
  | multiply => .multiply
  | divide => .divide
  | not => .not
  | negate => .negate
  | print => .print
  | jump _ => .jump
  | jumpIfFalse _ => .jumpIfFalse
  | loop _ => .loop
  | ret => .ret

def operand : Instruction → Operand
  | constant value | getLocal value | setLocal value
  | getGlobal value | defineGlobal value | setGlobal value => .byte value
  | jump value | jumpIfFalse value | loop value => .word value
  | _ => .none

/-- The size of the encoding in bytes. -/
def width (i : Instruction) : Nat :=
  1 + i.operand.width

def encode (i : Instruction) : List UInt8 :=
  i.opcode.toByte :: i.operand.encode

@[simp] theorem length_encode (i : Instruction) : i.encode.length = i.width := by
  cases i <;> rfl

theorem width_pos (i : Instruction) : 0 < i.width := by
  unfold width
  omega

/-- The mnemonic, and the operand in decimal if there is one. -/
def display (i : Instruction) : String :=
  match i.operand with
  | .none => i.opcode.mnemonic
  | .byte value => s!"{i.opcode.mnemonic} {value.toNat}"
  | .word value => s!"{i.opcode.mnemonic} {value.toNat}"

end Instruction

end StackScript
