import StackScript.Bytecode.Chunk

/-!
# Listings

The code of a chunk as text for reading: under a header one entry per instruction, with its offset,
its source line, its mnemonic and what its operand refers to. Bytes that are no instruction are
shown one at a time; an instruction that the code breaks off is shown last.
-/

namespace StackScript.Chunk

/-- Pads a text with `fill` on the left. -/
def padLeft (width : Nat) (fill : Char) (text : String) : String :=
  String.ofList (List.replicate (width - text.length) fill) ++ text

/-- Pads a text with blanks on the right. -/
def padRight (width : Nat) (text : String) : String :=
  text ++ String.ofList (List.replicate (width - text.length) ' ')

/-- A mnemonic and a number in their columns. -/
def columns (i : Instruction) (number : Nat) : String :=
  padRight 16 i.opcode.mnemonic ++ " " ++ padLeft 4 ' ' (toString number)

/-- The constant that an operand refers to, in quotes. -/
def constantText (c : Chunk) (index : UInt8) : String :=
  match c.constants[index.toNat]? with
  | some value => "'" ++ value.display ++ "'"
  | none => "<missing>"

/-- The offset after a forward jump of the given distance. -/
def forwardTarget (offset : Nat) (distance : UInt16) : Nat :=
  offset + 3 + distance.toNat

/-- The offset after a backward jump, negative if it lies before the code. -/
def backwardTarget (offset : Nat) (distance : UInt16) : Int :=
  (offset + 3 : Nat) - (distance.toNat : Int)

/-- The text of an instruction at `offset`. -/
def instructionText (c : Chunk) (offset : Nat) (i : Instruction) : String :=
  match i with
  | .constant index | .getGlobal index | .defineGlobal index | .setGlobal index =>
    columns i index.toNat ++ " " ++ c.constantText index
  | .getLocal slot | .setLocal slot => columns i slot.toNat
  | .jump distance | .jumpIfFalse distance =>
    columns i offset ++ " -> " ++ toString (forwardTarget offset distance)
  | .loop distance => columns i offset ++ " -> " ++ toString (backwardTarget offset distance)
  | _ => i.opcode.mnemonic

/-- The offset and the source line at the start of an entry. A line that is the same as for the
byte before is not repeated. -/
def margin (c : Chunk) (offset : Nat) : String :=
  let line :=
    if 0 < offset ∧ c.line offset = c.line (offset - 1) then "   |"
    else padLeft 4 ' ' (toString (c.line offset))
  padLeft 4 '0' (toString offset) ++ " " ++ line ++ " "

/-- What stands at an offset, without the margin, and the offset of the next entry. -/
def entryBody (c : Chunk) (offset : Nat) : String × Nat :=
  match Instruction.decode c.code offset with
  | .ok i => (c.instructionText offset i, offset + i.width)
  | .error (.reserved opcode _) => (opcode.mnemonic, offset + 1)
  | .error (.unknown byte _) => (s!"Unknown opcode {byte.toNat}", offset + 1)
  | .error (.truncated _) => ("<truncated>", c.size)

/-- The entry at an offset and the offset of the next one. -/
def entry (c : Chunk) (offset : Nat) : String × Nat :=
  let body := c.entryBody offset
  (c.margin offset ++ body.1, body.2)

theorem lt_entry_next (c : Chunk) {offset : Nat} (h : offset < c.size) :
    offset < (c.entry offset).2 := by
  unfold entry entryBody
  split
  · rename_i i _
    have := i.width_pos
    dsimp only
    omega
  · dsimp only; omega
  · dsimp only; omega
  · exact h

/-- The entries from `offset` on, each ended by a newline, after the text so far. -/
def entriesFrom (c : Chunk) (offset : Nat) (text : String) : String :=
  if offset < c.size then
    let entry := c.entry offset
    c.entriesFrom entry.2 (text ++ entry.1 ++ "\n")
  else text
termination_by c.size - offset
decreasing_by have := c.lt_entry_next (by assumption); omega

/-- The listing of a chunk under the given name. -/
def listing (c : Chunk) (name : String) : String :=
  c.entriesFrom 0 ("== " ++ name ++ " ==\n")

end StackScript.Chunk
