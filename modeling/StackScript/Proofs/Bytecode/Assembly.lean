import StackScript.Proofs.Tree.Lowering

/-!
# Laying out code in bytes

How a `Lowering` becomes part of a chunk, and how the chunk is read back.

* **`Chunk.extend`**: appends the bytes, lines and constants of a piece of code. Emitting an
  instruction, adding a constant and filling in a jump are all cases of it.
* **`patchWord_extend`**: filling in the distance of a jump gives the chunk that would have been
  there had the distance been known from the start.
* **`Chunk.Holds`**: a chunk holds a piece of code from an offset on and its constants from an index
  on. A concatenation is held exactly if its pieces are held one after the other.
* **`Chunk.Holds.decode`**: what is held at an offset is what the decoder reads there.
-/

namespace StackScript

/-! ## Words

A distance is written as two bytes, the higher one first. -/

/-- The two bytes of a word give the word back. -/
@[simp] theorem wordOfBytes_highByte_lowByte (w : UInt16) :
    wordOfBytes (highByte w) (lowByte w) = w := by
  apply UInt16.toNat_inj.mp
  have hw : w.toNat < 2 ^ 16 := w.toNat_lt
  have hhigh : w.toNat >>> 8 = w.toNat / 256 := Nat.shiftRight_eq_div_pow w.toNat 8
  have hshift : (w.toNat / 256) <<< 8 = w.toNat / 256 * 256 := Nat.shiftLeft_eq _ 8
  have hor : (w.toNat / 256) <<< 8 ||| w.toNat % 256 = (w.toNat / 256) <<< 8 + w.toNat % 256 :=
    (Nat.shiftLeft_add_eq_or_of_lt (Nat.mod_lt _ (by decide)) _).symm
  have hbyte : w.toNat / 256 % 256 = w.toNat / 256 := by omega
  have hword : (w.toNat / 256) <<< 8 % 2 ^ 16 = (w.toNat / 256) <<< 8 := by
    rw [hshift]
    omega
  simp only [wordOfBytes, highByte, lowByte, UInt16.toNat_or, UInt16.toNat_shiftLeft,
    UInt8.toNat_toUInt16, UInt16.toNat_toUInt8, UInt16.toNat_shiftRight]
  change (w.toNat >>> 8 % 256) <<< 8 % 2 ^ 16 ||| w.toNat % 256 = w.toNat
  rw [hhigh, hbyte, hword, hor, hshift]
  omega

namespace Lowering

/-! ## Bytes and lines

Code as a chunk stores it: the bytes of all instructions, and a line for each byte. -/

/-- The bytes of a list of instructions. -/
def bytes (code : List (Instruction × Nat)) : List UInt8 :=
  code.flatMap (·.1.encode)

/-- The line of each byte. -/
def byteLines (code : List (Instruction × Nat)) : List Nat :=
  code.flatMap fun i => List.replicate i.1.width i.2

@[simp] theorem bytes_append (a b : List (Instruction × Nat)) :
    bytes (a ++ b) = bytes a ++ bytes b :=
  List.flatMap_append

@[simp] theorem byteLines_append (a b : List (Instruction × Nat)) :
    byteLines (a ++ b) = byteLines a ++ byteLines b :=
  List.flatMap_append

@[simp] theorem bytes_cons (i : Instruction × Nat) (code : List (Instruction × Nat)) :
    bytes (i :: code) = i.1.encode ++ bytes code := rfl

@[simp] theorem byteLines_cons (i : Instruction × Nat) (code : List (Instruction × Nat)) :
    byteLines (i :: code) = List.replicate i.1.width i.2 ++ byteLines code := rfl

/-- The size of code counts its bytes. -/
@[simp] theorem length_bytes (code : List (Instruction × Nat)) :
    (bytes code).length = codeSize code := by
  induction code with
  | nil => rfl
  | cons i code ih => simp [ih]

/-- There is a line for every byte. -/
@[simp] theorem length_byteLines (code : List (Instruction × Nat)) :
    (byteLines code).length = codeSize code := by
  induction code with
  | nil => rfl
  | cons i code ih => simp [ih]

end Lowering

namespace Chunk

/-! ## Extending a chunk

A chunk after code and constants were added to it. The compiler only ever extends chunks and fills
in jumps. -/

/-- Appends a piece of code and its constants. -/
def extend (c : Chunk) (l : Lowering) : Chunk where
  code := c.code ++ (Lowering.bytes l.code).toArray
  lines := c.lines ++ (Lowering.byteLines l.code).toArray
  constants := c.constants ++ l.constants.toArray

/-- Two parts can be added one after the other. -/
theorem extend_append (c : Chunk) (a b : Lowering) :
    c.extend (a ++ b) = (c.extend a).extend b := by
  simp [extend, ← List.append_toArray, Array.append_assoc]

@[simp] theorem extend_empty (c : Chunk) : c.extend .empty = c := by
  simp [extend, Lowering.empty, Lowering.bytes, Lowering.byteLines]

@[simp] theorem size_extend (c : Chunk) (l : Lowering) : (c.extend l).size = c.size + l.size := by
  simp [extend, size, Lowering.size]

@[simp] theorem size_constants_extend (c : Chunk) (l : Lowering) :
    (c.extend l).constants.size = c.constants.size + l.constants.length := by
  simp [extend]

/-- Writing bytes one after the other appends them with their line. -/
theorem foldl_write (bytes : List UInt8) (line : Nat) (c : Chunk) :
    bytes.foldl (fun c byte => c.write byte line) c =
      { c with
        code := c.code ++ bytes.toArray
        lines := c.lines ++ (List.replicate bytes.length line).toArray } := by
  induction bytes generalizing c with
  | nil => simp
  | cons byte rest ih =>
    rw [List.foldl_cons, ih]
    have hcode : c.code.push byte ++ rest.toArray = c.code ++ (byte :: rest).toArray := by
      simp
    have hlines : c.lines.push line ++ (List.replicate rest.length line).toArray =
        c.lines ++ (List.replicate (byte :: rest).length line).toArray := by
      apply Array.toList_inj.mp
      simp [List.replicate_succ]
    simp only [write]
    rw [hcode, hlines]

/-- An instruction is appended where the code ends. -/
theorem emit_eq_extend (c : Chunk) (i : Instruction) (line : Nat) :
    c.emit i line = (c.size, c.extend (.instruction i line)) := by
  simp [emit, foldl_write, extend, Lowering.instruction, Lowering.bytes, Lowering.byteLines]

/-- A constant is added as long as the pool has room for it. -/
theorem addConstant?_eq (c : Chunk) (value : Value) :
    c.addConstant? value =
      if c.constants.size < maxConstants then
        some (c.constants.size.toUInt8, c.extend (.pool [value]))
      else none := by
  unfold addConstant?
  split
  · simp [extend, Lowering.pool, Lowering.bytes, Lowering.byteLines]
  · rfl

/-! ## Filling in a jump

A jump forward is emitted with a distance that is not the right one and is replaced later. -/

/-- The bytes of a forward jump: an opcode and the two bytes of the distance. -/
def IsForward (make : UInt16 → Instruction) : Prop :=
  ∃ opcode, ∀ distance, (make distance).encode = [opcode, highByte distance, lowByte distance]

theorem isForward_jump : IsForward .jump :=
  ⟨Opcode.jump.toByte, fun _ => rfl⟩

theorem isForward_jumpIfFalse : IsForward .jumpIfFalse :=
  ⟨Opcode.jumpIfFalse.toByte, fun _ => rfl⟩

/-- A forward jump takes three bytes, whatever its distance. -/
theorem IsForward.width {make : UInt16 → Instruction} (h : IsForward make) (distance : UInt16) :
    (make distance).width = 3 := by
  obtain ⟨opcode, hencode⟩ := h
  rw [← Instruction.length_encode, hencode]
  rfl

/-- Every jump is three bytes, whatever its distance. -/
theorem IsForward.size_jump {make : UInt16 → Instruction} (h : IsForward make)
    (distance line : Nat) : (Lowering.jump make distance line).size = 3 := by
  simp [Lowering.size, Lowering.jump, h.width]

/-- Filling in the distance of a jump gives the chunk in which the jump has that distance from the
start, also when more code has been emitted after it. -/
theorem patchWord_extend {make : UInt16 → Instruction} (h : IsForward make) (c : Chunk)
    (old new line : Nat) (body : Lowering) :
    ((c.extend (.jump make old line)).extend body).patchWord (c.size + 1) new.toUInt16 =
      c.extend (.jump make new line ++ body) := by
  obtain ⟨opcode, hencode⟩ := h
  have hwidth : ∀ d, (make d).width = 3 := IsForward.width ⟨opcode, hencode⟩
  have hcode : ∀ (a b : List UInt8) (x y x' y' : UInt8),
      ((a ++ opcode :: x :: y :: b).set (a.length + 1) x').set (a.length + 1 + 1) y' =
        a ++ opcode :: x' :: y' :: b := by
    intro a b x y x' y'
    induction a with
    | nil => rfl
    | cons z a ih => simp
  rw [extend_append]
  simp only [patchWord, extend, Lowering.jump, Lowering.bytes, Lowering.byteLines, size,
    List.flatMap_cons, List.flatMap_nil, List.append_nil, hencode, hwidth]
  congr 1
  apply Array.toList_inj.mp
  simp only [Array.toList_setIfInBounds, Array.toList_append, List.append_assoc, List.cons_append,
    List.nil_append]
  exact hcode c.code.toList (List.flatMap (·.1.encode) body.code) _ _ _ _

/-! ## Reading code back

The decoder finds an instruction wherever its bytes are, whatever stands around them. -/

/-- A byte of an array after a known prefix. -/
theorem getElem?_of_toList {α : Type} {xs : Array α} {before after : List α}
    (h : xs.toList = before ++ after) (k : Nat) : xs[before.length + k]? = after[k]? := by
  rw [← Array.getElem?_toList, h, List.getElem?_append_right (by omega)]
  congr 1
  omega

/-- The decoder reads the instruction whose bytes stand at an offset. -/
theorem decode_of_toList {code : Array UInt8} {before : List UInt8} (i : Instruction)
    (after : List UInt8) (h : code.toList = before ++ (i.encode ++ after)) :
    Instruction.decode code before.length = .ok i := by
  have hbyte := getElem?_of_toList h
  have h0 : code[before.length]? = some i.opcode.toByte := hbyte 0
  unfold Instruction.decode
  simp only [h0, Opcode.ofByte?_toByte]
  -- an operand stands in the one or two bytes after the opcode
  have h1 := hbyte 1
  have h2 := hbyte 2
  cases i <;>
    simp only [Instruction.encode, Instruction.opcode, Instruction.operand, Operand.encode,
      List.cons_append, List.nil_append, List.getElem?_cons_succ, List.getElem?_cons_zero]
      at h1 h2 <;>
    simp [Instruction.opcode, Instruction.decodeOpcode, Instruction.byteOperand,
      Instruction.wordOperand, h1, h2, Functor.map, Except.map]

/-- Code and lines of a chunk are those of a list of instructions. -/
structure Assembles (c : Chunk) (code : List (Instruction × Nat)) : Prop where
  bytes : c.code.toList = Lowering.bytes code
  lines : c.lines.toList = Lowering.byteLines code

/-- A piece of code stands in a chunk from an offset on. -/
def CodeAt (c : Chunk) (offset : Nat) (code : List (Instruction × Nat)) : Prop :=
  ∃ before after, c.Assembles (before ++ (code ++ after)) ∧ Lowering.codeSize before = offset

/-- The first part of some code is at the same offset. -/
theorem CodeAt.left {c : Chunk} {offset : Nat} {a b : List (Instruction × Nat)}
    (h : c.CodeAt offset (a ++ b)) : c.CodeAt offset a := by
  obtain ⟨before, after, hassembles, hsize⟩ := h
  exact ⟨before, b ++ after, by simpa using hassembles, hsize⟩

/-- The second part is behind the first. -/
theorem CodeAt.right {c : Chunk} {offset : Nat} {a b : List (Instruction × Nat)}
    (h : c.CodeAt offset (a ++ b)) : c.CodeAt (offset + Lowering.codeSize a) b := by
  obtain ⟨before, after, hassembles, hsize⟩ := h
  exact ⟨before ++ a, after, by simpa using hassembles, by simp [hsize]⟩

/-- So is what follows an instruction. -/
theorem CodeAt.tail {c : Chunk} {offset line : Nat} {i : Instruction}
    {rest : List (Instruction × Nat)} (h : c.CodeAt offset ((i, line) :: rest)) :
    c.CodeAt (offset + i.width) rest := by
  obtain ⟨before, after, hassembles, hsize⟩ := h
  refine ⟨before ++ [(i, line)], after, by simpa using hassembles, ?_⟩
  simp [hsize]

/-- The decoder reads the first instruction of a piece of code at its offset. -/
theorem CodeAt.decode {c : Chunk} {offset line : Nat} {i : Instruction}
    {rest : List (Instruction × Nat)} (h : c.CodeAt offset ((i, line) :: rest)) :
    Instruction.decode c.code offset = .ok i := by
  obtain ⟨before, after, hassembles, rfl⟩ := h
  rw [← Lowering.length_bytes]
  apply decode_of_toList i (Lowering.bytes (rest ++ after))
  rw [hassembles.bytes, Lowering.bytes_append]
  rfl

/-- The line of an instruction is found at its offset. -/
theorem CodeAt.line {c : Chunk} {offset line : Nat} {i : Instruction}
    {rest : List (Instruction × Nat)} (h : c.CodeAt offset ((i, line) :: rest)) :
    c.line offset = line := by
  obtain ⟨before, after, hassembles, rfl⟩ := h
  have hlines : c.lines.toList = Lowering.byteLines before ++
      (List.replicate i.width line ++ Lowering.byteLines (rest ++ after)) := by
    rw [hassembles.lines, Lowering.byteLines_append]
    rfl
  have hget := getElem?_of_toList hlines 0
  rw [Nat.add_zero, Lowering.length_byteLines, List.getElem?_append_left (by
    rw [List.length_replicate]
    exact i.width_pos)] at hget
  rw [Chunk.line, hget, List.getElem?_replicate, if_pos i.width_pos]
  rfl

/-- Constants stand in the pool from an index on. -/
def ConstantsAt (c : Chunk) (base : Nat) (values : List Value) : Prop :=
  ∃ before after, c.constants.toList = before ++ (values ++ after) ∧ before.length = base

/-- The first of some constants are at the same index. -/
theorem ConstantsAt.left {c : Chunk} {base : Nat} {a b : List Value}
    (h : c.ConstantsAt base (a ++ b)) : c.ConstantsAt base a := by
  obtain ⟨before, after, hconstants, hlength⟩ := h
  exact ⟨before, b ++ after, by simpa using hconstants, hlength⟩

/-- The others come behind them. -/
theorem ConstantsAt.right {c : Chunk} {base : Nat} {a b : List Value}
    (h : c.ConstantsAt base (a ++ b)) : c.ConstantsAt (base + a.length) b := by
  obtain ⟨before, after, hconstants, hlength⟩ := h
  exact ⟨before ++ a, after, by simpa using hconstants, by simp [hlength]⟩

/-- The first constant is at the index of all. -/
theorem ConstantsAt.getElem? {c : Chunk} {base : Nat} {value : Value} {rest : List Value}
    (h : c.ConstantsAt base (value :: rest)) : c.constants[base]? = some value := by
  obtain ⟨before, after, hconstants, rfl⟩ := h
  exact getElem?_of_toList hconstants 0

/-- Each of the constants is found at its index. -/
theorem ConstantsAt.getElem?_add {c : Chunk} {base : Nat} {values : List Value}
    (h : c.ConstantsAt base values) {k : Nat} (hk : k < values.length) :
    c.constants[base + k]? = values[k]? := by
  obtain ⟨before, after, hconstants, rfl⟩ := h
  rw [getElem?_of_toList hconstants, List.getElem?_append_left hk]

/-- A chunk holds a piece of code at an offset and its constants at an index. -/
structure Holds (c : Chunk) (offset base : Nat) (l : Lowering) : Prop where
  code : c.CodeAt offset l.code
  constants : c.ConstantsAt base l.constants

/-- Code and constants of the first part are at the same places. -/
theorem Holds.left {c : Chunk} {offset base : Nat} {a b : Lowering}
    (h : c.Holds offset base (a ++ b)) : c.Holds offset base a :=
  ⟨h.code.left, h.constants.left⟩

/-- Those of the second part are behind them. -/
theorem Holds.right {c : Chunk} {offset base : Nat} {a b : Lowering}
    (h : c.Holds offset base (a ++ b)) :
    c.Holds (offset + a.size) (base + a.constants.length) b :=
  ⟨h.code.right, h.constants.right⟩

/-- A chunk built from one piece of code holds it from its start. -/
theorem holds_extend_empty (l : Lowering) : (empty.extend l).Holds 0 0 l where
  code := ⟨[], [], ⟨by simp [extend, empty], by simp [extend, empty]⟩, rfl⟩
  constants := ⟨[], [], by simp [extend, empty], rfl⟩

/-- A chunk made from code alone is made of this code. -/
theorem assembles_extend_empty (l : Lowering) : (empty.extend l).Assembles l.code :=
  ⟨by simp [extend, empty], by simp [extend, empty]⟩

/-! ## The instructions of a chunk

The list of instructions that the decoder gives for a chunk is the code it was made from. -/

/-- Decoding from the end of known instructions appends the rest of them. -/
theorem decodeFrom_of_toList {code : Array UInt8} {rest : List (Instruction × Nat)}
    (before : List (Instruction × Nat)) (done : Array Instruction)
    (h : code.toList = Lowering.bytes (before ++ rest)) :
    Instruction.decodeFrom code (Lowering.codeSize before) done =
      .ok (done ++ (rest.map (·.1)).toArray) := by
  have hsize : code.size = Lowering.codeSize before + Lowering.codeSize rest := by
    rw [← Array.length_toList, h, Lowering.length_bytes, Lowering.codeSize_append]
  induction rest generalizing before done with
  | nil =>
    rw [Instruction.decodeFrom, if_neg (by simp [hsize])]
    simp
  | cons i rest ih =>
    have hwidth := i.1.width_pos
    -- the next instruction is found behind those that were read
    have hdecode : Instruction.decode code (Lowering.codeSize before) = .ok i.1 := by
      rw [← Lowering.length_bytes]
      exact decode_of_toList i.1 (Lowering.bytes rest) (by
        rw [h, Lowering.bytes_append, Lowering.bytes_cons])
    rw [Lowering.codeSize_cons] at hsize
    rw [Instruction.decodeFrom, if_pos (by omega), hdecode]
    dsimp only
    have hnext := ih (before ++ [i]) (done.push i.1) (by simpa using h) (by simp; omega)
    rw [Lowering.codeSize_append, Lowering.codeSize_cons, Lowering.codeSize_nil,
      Nat.add_zero] at hnext
    rw [hnext]
    simp

/-- A chunk that assembles a list of instructions decodes to it. -/
theorem Assembles.instructions {c : Chunk} {code : List (Instruction × Nat)}
    (h : c.Assembles code) : c.instructions = .ok (code.map (·.1)) := by
  have hdecode := decodeFrom_of_toList [] #[] h.bytes
  rw [Lowering.codeSize_nil] at hdecode
  simp [Chunk.instructions, Instruction.decodeAll, hdecode, Except.map]

end Chunk

end StackScript
