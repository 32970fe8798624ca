import StackScript.Machine.Run
import StackScript.Proofs.Actions
import StackScript.Proofs.Bytecode.Assembly

/-!
# Executing decoded instructions

The machine reads an opcode and then its operand, byte by byte. Here an instruction is decoded first
and executed as a whole.

* **`Machine.execute`**: what an instruction does once its operand is known.
* **`Machine.past`**: the state in which an instruction is executed, on its line.
* **`Machine.step_of_decode`**: a step is the execution of the instruction that the decoder reads.
-/

namespace StackScript.Machine

/-! ## Instructions with their operands

The machine reads an opcode and then the bytes that belong to it. Here an instruction is executed
after all of it was decoded. -/

/-- The constant with the given index. -/
def constantAt (chunk : Chunk) (index : UInt8) : MachineM Value :=
  match chunk.constants[index.toNat]? with
  | some value => return value
  | none => throw (.invalidConstant index)

/-- The variable's name with the given index. -/
def nameAt (chunk : Chunk) (index : UInt8) : MachineM String := do
  match ← constantAt chunk index with
  | .string name => return name
  | value => throw (.notAName value.typeName)

/-- Does what an instruction says; the next one follows it. -/
def execute (chunk : Chunk) : Instruction → MachineM Unit
  | .constant index => do push (← constantAt chunk index)
  | .nil => push .nil
  | .true => push (.bool true)
  | .false => push (.bool false)
  | .pop => do discard pop
  | .getLocal slot => do push (← getLocal slot)
  | .setLocal slot => do
    discard (getLocal slot)
    setLocal slot (← peek)
  | .getGlobal index => do push (← getGlobal (← nameAt chunk index))
  | .defineGlobal index => do
    let name ← nameAt chunk index
    defineGlobal name (← pop)
  | .setGlobal index => do
    let name ← nameAt chunk index
    let value ← peek
    discard (getGlobal name)
    defineGlobal name value
  | .equal => binary fun a b => return .bool (a.equals b)
  | .greater => binary (onNumbers fun a b => .bool (a > b))
  | .less => binary (onNumbers fun a b => .bool (a < b))
  | .add => binary addValues
  | .subtract => binary (onNumbers fun a b => .number (a - b))
  | .multiply => binary (onNumbers fun a b => .number (a * b))
  | .divide => binary (onNumbers fun a b => .number (a / b))
  | .not => do push (.bool (← pop).isFalsey)
  | .negate => negateTop
  | .print => do printLine (← pop).display
  | .jump distance => jumpForward distance
  | .jumpIfFalse distance => do
    if (← peek).isFalsey then
      jumpForward distance
  | .loop distance => jumpBackward distance
  | .ret => pure ()

/-- Whether the machine goes on after an instruction. -/
def progress (i : Instruction) : Progress :=
  if i = .ret then .halted else .running

/-- The state in which an instruction starts: the machine is on its line. -/
def atLine (m : Machine) (chunk : Chunk) : Machine :=
  { m with line := chunk.line m.ip }

/-- The state in which an instruction is executed: the machine is on its line, and the next
instruction follows it. -/
def past (m : Machine) (chunk : Chunk) (i : Instruction) : Machine :=
  { m.atLine chunk with ip := m.ip + i.width }

/-! ## Steps

Decoding an instruction and executing it is a step of the machine. -/

/-- What a step does when the line is noted. It reads the code and the constants of a chunk, and not
its lines. -/
def proceed (chunk : Chunk) : MachineM Progress := do
  let byte ← fetchByte chunk
  match Opcode.ofByte? byte with
  | none => throw (.unknownOpcode byte)
  | some opcode =>
    perform chunk opcode
    return if opcode = .ret then .halted else .running

/-- A step takes down the line first. -/
theorem step_eq_proceed (chunk : Chunk) (m : Machine) :
    step chunk m = proceed chunk (m.atLine chunk) := rfl

/-- Reading a byte, which fails at the end of the code. -/
theorem fetchByte_apply (chunk : Chunk) (m : Machine) :
    fetchByte chunk m = match chunk.readByte? m.ip with
      | some byte => .ok byte { m with ip := m.ip + 1 }
      | none => .error .endOfCode m := by
  unfold fetchByte
  rw [bind_of_ok (get_apply m)]
  cases chunk.readByte? m.ip <;> rfl

/-- Reading two bytes, both of which must be there. -/
theorem fetchWord_apply (chunk : Chunk) (m : Machine) :
    fetchWord chunk m = match chunk.readWord? m.ip with
      | some word => .ok word { m with ip := m.ip + 2 }
      | none => .error .endOfCode m := by
  unfold fetchWord
  rw [bind_of_ok (get_apply m)]
  cases chunk.readWord? m.ip <;> rfl

/-- The operand of one byte is the next byte. -/
theorem fetchByte_of_byteOperand {chunk : Chunk} {m : Machine} {value : UInt8}
    (h : Instruction.byteOperand chunk.code m.ip = .ok value) :
    fetchByte chunk { m with ip := m.ip + 1 } = .ok value { m with ip := m.ip + 2 } := by
  unfold Instruction.byteOperand at h
  split at h
  · rename_i byte hbyte
    cases h
    have hread : chunk.readByte? (m.ip + 1) = some value := hbyte
    rw [fetchByte_apply, hread]
  · cases h

/-- The operand of two bytes is the next word. -/
theorem fetchWord_of_wordOperand {chunk : Chunk} {m : Machine} {value : UInt16}
    (h : Instruction.wordOperand chunk.code m.ip = .ok value) :
    fetchWord chunk { m with ip := m.ip + 1 } = .ok value { m with ip := m.ip + 3 } := by
  unfold Instruction.wordOperand at h
  split at h
  · rename_i high low hhigh hlow
    cases h
    have hread : chunk.readWord? (m.ip + 1) = some (wordOfBytes high low) := by
      simp only [Chunk.readWord?, hhigh, Nat.add_assoc, Nat.reduceAdd, hlow]
    rw [fetchWord_apply, hread]
  · cases h

/-- A constant is found at the index that was read. -/
theorem fetchConstant_of_fetchByte {chunk : Chunk} {m m' : Machine} {index : UInt8}
    (h : fetchByte chunk m = .ok index m') : fetchConstant chunk m = constantAt chunk index m' := by
  unfold fetchConstant
  rw [bind_of_ok h]
  rfl

theorem fetchName_of_fetchByte {chunk : Chunk} {m m' : Machine} {index : UInt8}
    (h : fetchByte chunk m = .ok index m') : fetchName chunk m = nameAt chunk index m' :=
  bind_apply_congr (fetchConstant_of_fetchByte h)

/-- An instruction is read with an operand if its operand can be read. -/
theorem map_eq_ok {α β : Type} {f : α → β} {x : Except DecodeError α} {b : β}
    (h : f <$> x = .ok b) : ∃ a, x = .ok a ∧ b = f a := by
  cases x with
  | error e => cases h
  | ok a =>
    cases h
    exact ⟨a, rfl, rfl⟩

/-- The instruction has the opcode that was read. -/
theorem opcode_of_decodeOpcode {code : Array UInt8} {offset : Nat} {opcode : Opcode}
    {i : Instruction} (h : Instruction.decodeOpcode code offset opcode = .ok i) :
    i.opcode = opcode := by
  cases opcode with
  | constant | getLocal | setLocal | getGlobal | defineGlobal | setGlobal | jump | jumpIfFalse
  | loop =>
    obtain ⟨value, -, rfl⟩ := map_eq_ok h
    rfl
  | _ => first | (cases h; rfl) | cases h

/-- Reading the operand and then doing what the opcode says is executing the instruction. -/
theorem perform_of_decodeOpcode {chunk : Chunk} {opcode : Opcode} {i : Instruction} {m : Machine}
    (h : Instruction.decodeOpcode chunk.code m.ip opcode = .ok i) :
    perform chunk opcode { m with ip := m.ip + 1 } =
      execute chunk i { m with ip := m.ip + i.width } := by
  cases opcode with
  | constant =>
    obtain ⟨value, hoperand, rfl⟩ := map_eq_ok h
    exact bind_apply_congr (fetchConstant_of_fetchByte (fetchByte_of_byteOperand hoperand))
  | getLocal | setLocal =>
    obtain ⟨value, hoperand, rfl⟩ := map_eq_ok h
    exact bind_of_ok (fetchByte_of_byteOperand hoperand)
  | getGlobal | defineGlobal | setGlobal =>
    obtain ⟨value, hoperand, rfl⟩ := map_eq_ok h
    exact bind_apply_congr (fetchName_of_fetchByte (fetchByte_of_byteOperand hoperand))
  | jump | jumpIfFalse | loop =>
    obtain ⟨value, hoperand, rfl⟩ := map_eq_ok h
    exact bind_of_ok (fetchWord_of_wordOperand hoperand)
  -- opcodes without an operand, and those that are reserved and cannot be decoded
  | _ => first | (cases h; rfl) | cases h

/-- A step executes the instruction that the decoder reads where the machine is. -/
theorem step_of_decode {chunk : Chunk} {m : Machine} {i : Instruction}
    (h : Instruction.decode chunk.code m.ip = .ok i) :
    step chunk m = (do execute chunk i; return progress i) (m.past chunk i) := by
  unfold Instruction.decode at h
  split at h
  · cases h
  · rename_i byte hbyte
    split at h
    · cases h
    · rename_i opcode hopcode
      have hread : chunk.readByte? m.ip = some byte := hbyte
      -- whether the machine goes on is decided by the opcode
      have hprogress : progress i = if opcode = .ret then .halted else .running := by
        rw [← opcode_of_decodeOpcode h]
        cases i <;> rfl
      have hfetch : fetchByte chunk (m.atLine chunk) =
          .ok byte { m.atLine chunk with ip := m.ip + 1 } := by
        rw [fetchByte_apply, show chunk.readByte? (m.atLine chunk).ip = some byte from hread]
        rfl
      rw [step_eq_proceed]
      unfold proceed
      rw [bind_of_ok hfetch, hopcode, hprogress]
      exact bind_apply_congr (perform_of_decodeOpcode h)

/-- The instruction decides whether the machine goes on. -/
theorem progress_of_step {chunk : Chunk} {m m' : Machine} {i : Instruction} {p : Progress}
    (h : Instruction.decode chunk.code m.ip = .ok i) (hstep : step chunk m = .ok p m') :
    p = progress i := by
  rw [step_of_decode h] at hstep
  obtain ⟨_, _, -, hends⟩ := bind_eq_ok.mp hstep
  cases hends
  rfl

/-! ## Single actions

What each action does to a state, with both of its results. -/

theorem push_apply (value : Value) (m : Machine) :
    push value m =
      if m.stack.size < maxStack then .ok () { m with stack := m.stack.push value }
      else .error .stackOverflow m := by
  unfold push
  rw [bind_of_ok (get_apply m)]
  split <;> rfl

theorem pop_apply (m : Machine) :
    pop m = match m.stack.back? with
      | some value => .ok value { m with stack := m.stack.pop }
      | none => .error .stackUnderflow m := by
  unfold pop
  rw [bind_of_ok (get_apply m)]
  cases m.stack.back? <;> rfl

theorem peek_apply (m : Machine) :
    peek m = match m.stack.back? with
      | some value => .ok value m
      | none => .error .stackUnderflow m := by
  unfold peek
  rw [bind_of_ok (get_apply m)]
  cases m.stack.back? <;> rfl

theorem getLocal_apply (slot : UInt8) (m : Machine) :
    getLocal slot m = match m.stack[slot.toNat]? with
      | some value => .ok value m
      | none => .error (.invalidSlot slot) m := by
  unfold getLocal
  rw [bind_of_ok (get_apply m)]
  cases m.stack[slot.toNat]? <;> rfl

theorem getGlobal_apply (name : String) (m : Machine) :
    getGlobal name m = match m.globals[name]? with
      | some value => .ok value m
      | none => .error (.undefinedVariable name) m := by
  unfold getGlobal
  rw [bind_of_ok (get_apply m)]
  cases m.globals[name]? <;> rfl

theorem printLine_apply (text : String) (m : Machine) :
    printLine text m =
      if (m.output.writeText (text ++ "\n")).1 then
        .ok () { m with output := (m.output.writeText (text ++ "\n")).2 }
      else .error .outputFull { m with output := (m.output.writeText (text ++ "\n")).2 } := by
  unfold printLine
  rw [bind_of_ok (modifyGet_apply _ m)]
  split <;> rfl

theorem jumpBackward_apply (distance : UInt16) (m : Machine) :
    jumpBackward distance m =
      if distance.toNat ≤ m.ip then .ok () { m with ip := m.ip - distance.toNat }
      else .error .loopBeforeStart m := by
  unfold jumpBackward
  rw [bind_of_ok (get_apply m)]
  split <;> rfl

/-- A jump with a condition leaves the value it looks at on the stack. -/
theorem execute_jumpIfFalse (chunk : Chunk) (distance : UInt16) (m : Machine) :
    execute chunk (.jumpIfFalse distance) m = match m.stack.back? with
      | some value => .ok () { m with ip := if value.isFalsey then m.ip + distance.toNat else m.ip }
      | none => .error .stackUnderflow m := by
  have hpeek := peek_apply m
  cases hback : m.stack.back? with
  | none =>
    rw [hback] at hpeek
    exact bind_of_error hpeek
  | some value =>
    rw [hback] at hpeek
    rw [execute, bind_of_ok hpeek]
    by_cases hfalsey : value.isFalsey = true
    · simp only [if_pos hfalsey]
      rfl
    · simp only [if_neg hfalsey]
      rfl

theorem constantAt_apply (chunk : Chunk) (index : UInt8) (m : Machine) :
    constantAt chunk index m = match chunk.constants[index.toNat]? with
      | some value => .ok value m
      | none => .error (.invalidConstant index) m := by
  unfold constantAt
  cases chunk.constants[index.toNat]? <;> rfl

/-- A constant that is a string is a name. -/
theorem nameAt_of_string {chunk : Chunk} {index : UInt8} {name : String}
    (h : chunk.constants[index.toNat]? = some (.string name)) (m : Machine) :
    nameAt chunk index m = .ok name m := by
  unfold nameAt
  rw [bind_of_ok (by rw [constantAt_apply, h])]
  rfl

end StackScript.Machine
