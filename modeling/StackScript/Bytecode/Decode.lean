import StackScript.Bytecode.Instruction

/-!
# Decoding

Reading instructions back from bytes. `Instruction.decode` reads the one that starts at an offset,
`Instruction.decodeAll` reads a whole code from its start.
-/

namespace StackScript

/-- Why no instruction can be read at an offset. -/
inductive DecodeError where
  /-- The byte is not assigned. -/
  | unknown (byte : UInt8) (offset : Nat)
  /-- The byte is assigned to a reserved opcode. -/
  | reserved (opcode : Opcode) (offset : Nat)
  /-- The code ends before the instruction does. -/
  | truncated (offset : Nat)
deriving DecidableEq

namespace DecodeError

def offset : DecodeError → Nat
  | unknown _ offset | reserved _ offset | truncated offset => offset

def message : DecodeError → String
  | unknown byte offset => s!"unknown opcode {byte.toNat} at offset {offset}"
  | reserved opcode offset => s!"reserved opcode {opcode.mnemonic} at offset {offset}"
  | truncated offset => s!"truncated instruction at offset {offset}"

end DecodeError

namespace Instruction

/-- The byte operand of an instruction at `offset`. -/
def byteOperand (code : Array UInt8) (offset : Nat) : Except DecodeError UInt8 :=
  match code[offset + 1]? with
  | some value => .ok value
  | none => .error (.truncated offset)

/-- The two-byte operand of an instruction at `offset`. -/
def wordOperand (code : Array UInt8) (offset : Nat) : Except DecodeError UInt16 :=
  match code[offset + 1]?, code[offset + 2]? with
  | some high, some low => .ok (wordOfBytes high low)
  | _, _ => .error (.truncated offset)

/-- The instruction with the given opcode at `offset`. -/
def decodeOpcode (code : Array UInt8) (offset : Nat) : Opcode → Except DecodeError Instruction
  | .constant => constant <$> byteOperand code offset
  | .nil => .ok nil
  | .true => .ok true
  | .false => .ok false
  | .pop => .ok pop
  | .getLocal => getLocal <$> byteOperand code offset
  | .setLocal => setLocal <$> byteOperand code offset
  | .getGlobal => getGlobal <$> byteOperand code offset
  | .defineGlobal => defineGlobal <$> byteOperand code offset
  | .setGlobal => setGlobal <$> byteOperand code offset
  | .equal => .ok equal
  | .greater => .ok greater
  | .less => .ok less
  | .add => .ok add
  | .subtract => .ok subtract
  | .multiply => .ok multiply
  | .divide => .ok divide
  | .not => .ok not
  | .negate => .ok negate
  | .print => .ok print
  | .jump => jump <$> wordOperand code offset
  | .jumpIfFalse => jumpIfFalse <$> wordOperand code offset
  | .loop => loop <$> wordOperand code offset
  | .ret => .ok ret
  | opcode => .error (.reserved opcode offset)

/-- The instruction that starts at `offset`. -/
def decode (code : Array UInt8) (offset : Nat) : Except DecodeError Instruction :=
  match code[offset]? with
  | none => .error (.truncated offset)
  | some byte =>
    match Opcode.ofByte? byte with
    | none => .error (.unknown byte offset)
    | some opcode => decodeOpcode code offset opcode

/-- The instructions from `offset` to the end of the code, after those already decoded. -/
def decodeFrom (code : Array UInt8) (offset : Nat) (done : Array Instruction) :
    Except DecodeError (Array Instruction) :=
  if offset < code.size then
    match decode code offset with
    | .error e => .error e
    | .ok i => decodeFrom code (offset + i.width) (done.push i)
  else .ok done
termination_by code.size - offset
decreasing_by have := i.width_pos; omega

/-- All instructions of the code. -/
def decodeAll (code : Array UInt8) : Except DecodeError (List Instruction) :=
  (decodeFrom code 0 #[]).map Array.toList

end Instruction

end StackScript
