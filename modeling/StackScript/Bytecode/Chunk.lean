import StackScript.Bytecode.Decode
import StackScript.Value

/-!
# Chunks

A chunk is compiled code: its bytes, the source line of each byte, and the constants that
instructions refer to by index.
-/

namespace StackScript

structure Chunk where
  code : Array UInt8
  /-- The source line of each byte of code. -/
  lines : Array Nat
  constants : Array Value

namespace Chunk

def empty : Chunk where
  code := #[]
  lines := #[]
  constants := #[]

/-- A constant is referred to by one byte, so there are at most this many. -/
def maxConstants : Nat := 256

/-- The number of bytes of code. -/
def size (c : Chunk) : Nat :=
  c.code.size

/-- Appends a byte. -/
def write (c : Chunk) (byte : UInt8) (line : Nat) : Chunk :=
  { c with code := c.code.push byte, lines := c.lines.push line }

/-- Appends an instruction and returns the offset at which it starts. -/
def emit (c : Chunk) (i : Instruction) (line : Nat) : Nat × Chunk :=
  (c.size, i.encode.foldl (fun c byte => c.write byte line) c)

/-- Appends a constant and returns its index, unless there is no room for it. -/
def addConstant? (c : Chunk) (value : Value) : Option (UInt8 × Chunk) :=
  if c.constants.size < maxConstants then
    some (c.constants.size.toUInt8, { c with constants := c.constants.push value })
  else none

/-- The byte at `offset`. -/
def readByte? (c : Chunk) (offset : Nat) : Option UInt8 :=
  c.code[offset]?

/-- The word whose two bytes start at `offset`. -/
def readWord? (c : Chunk) (offset : Nat) : Option UInt16 :=
  match c.code[offset]?, c.code[offset + 1]? with
  | some high, some low => some (wordOfBytes high low)
  | _, _ => none

/-- Whether both bytes of a word at `offset` are inside the code. -/
def hasWord (c : Chunk) (offset : Nat) : Bool :=
  offset + 1 < c.size

/-- Overwrites the two bytes at `offset`, the high one first; bytes outside the code are left
out. -/
def patchWord (c : Chunk) (offset : Nat) (value : UInt16) : Chunk :=
  { c with code :=
      (c.code.setIfInBounds offset (highByte value)).setIfInBounds (offset + 1) (lowByte value) }

/-- The source line of a byte; a byte without one is on line 0. -/
def line (c : Chunk) (offset : Nat) : Nat :=
  c.lines[offset]?.getD 0

/-- The instructions of the code. -/
def instructions (c : Chunk) : Except DecodeError (List Instruction) :=
  Instruction.decodeAll c.code

end Chunk

end StackScript
