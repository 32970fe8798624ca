import StackScript.Proofs.Machine.Runs

/-!
# Fetching bytes and decoding instructions

The machine reads its code byte by byte and never decodes an instruction. `Machine.interpret` is the
plain interpreter beside it: it decodes the instruction where it is, goes past it and executes it.
The two agree on every code, also where a jump leads into an instruction, behind the end, or to an
operand that the end cuts off.

* **`Machine.step_of_decode_error`**: where no instruction can be read the machine faults, and
  nothing but its place in the code has changed.
* **`Machine.run_agrees_interpret`**: runs of the machine and of the interpreter agree.
-/

namespace StackScript

/-- The fault of a machine that is to execute what cannot be decoded. -/
def DecodeError.fault : DecodeError → Fault
  | unknown byte _ => .unknownOpcode byte
  | reserved opcode _ => .reservedOpcode opcode
  | truncated _ => .endOfCode

/-- The two ways to tell reserved opcodes apart, by their list and by having no instruction. -/
theorem Instruction.decodeOpcode_eq_reserved_iff (code : Array UInt8) (offset : Nat)
    (opcode : Opcode) :
    decodeOpcode code offset opcode = .error (.reserved opcode offset) ↔
      opcode.isReserved = .true := by
  cases opcode with
  | constant | getLocal | setLocal | getGlobal | defineGlobal | setGlobal =>
    unfold decodeOpcode byteOperand Opcode.isReserved
    cases code[offset + 1]? <;> simp [Functor.map, Except.map]
  | jump | jumpIfFalse | loop =>
    unfold decodeOpcode wordOperand Opcode.isReserved
    cases code[offset + 1]? <;> cases code[offset + 2]? <;> simp [Functor.map, Except.map]
  | _ => simp [decodeOpcode, Opcode.isReserved]

namespace Machine

/-! ## Code that cannot be decoded

The machine fails at such code in the way that the decoder says. -/

/-- A function that is applied to a result does not change an error. -/
theorem map_eq_error {α β : Type} {f : α → β} {x : Except DecodeError α} {e : DecodeError}
    (h : f <$> x = .error e) : x = .error e := by
  cases x with
  | ok a => cases h
  | error e' =>
    cases h
    rfl

/-- The end of the code cuts off an operand of one byte. -/
theorem fetchByte_of_byteOperand_error {chunk : Chunk} {m : Machine} {e : DecodeError}
    (h : Instruction.byteOperand chunk.code m.ip = .error e) :
    fetchByte chunk { m with ip := m.ip + 1 } = .error e.fault { m with ip := m.ip + 1 } := by
  unfold Instruction.byteOperand at h
  split at h
  · cases h
  · rename_i hnone
    cases h
    have hread : chunk.readByte? (m.ip + 1) = none := hnone
    rw [fetchByte_apply, hread]
    rfl

/-- The end of the code cuts off an operand of two bytes, be it one of them or both. -/
theorem fetchWord_of_wordOperand_error {chunk : Chunk} {m : Machine} {e : DecodeError}
    (h : Instruction.wordOperand chunk.code m.ip = .error e) :
    fetchWord chunk { m with ip := m.ip + 1 } = .error e.fault { m with ip := m.ip + 1 } := by
  unfold Instruction.wordOperand at h
  split at h
  · cases h
  · rename_i hnone
    cases h
    have hread : chunk.readWord? (m.ip + 1) = none := by
      unfold Chunk.readWord?
      split
      · rename_i high low hhigh hlow
        exact absurd hlow (hnone high low hhigh)
      · rfl
    rw [fetchWord_apply, hread]
    rfl

/-- An opcode without its operand, or a reserved one, changes nothing before the fault. -/
theorem perform_of_decodeOpcode_error {chunk : Chunk} {opcode : Opcode} {e : DecodeError}
    {m : Machine} (h : Instruction.decodeOpcode chunk.code m.ip opcode = .error e) :
    perform chunk opcode { m with ip := m.ip + 1 } = .error e.fault { m with ip := m.ip + 1 } := by
  cases opcode with
  | constant =>
    have hfetch := fetchByte_of_byteOperand_error (map_eq_error h)
    exact bind_of_error (bind_of_error hfetch)
  | getLocal | setLocal =>
    exact bind_of_error (fetchByte_of_byteOperand_error (map_eq_error h))
  | getGlobal | defineGlobal | setGlobal =>
    have hfetch := fetchByte_of_byteOperand_error (map_eq_error h)
    exact bind_of_error (bind_of_error (bind_of_error hfetch))
  | jump | jumpIfFalse | loop =>
    exact bind_of_error (fetchWord_of_wordOperand_error (map_eq_error h))
  | _ => cases h <;> rfl

/-- Where no instruction can be read the machine faults; it has gone past the opcode at most. -/
theorem step_of_decode_error {chunk : Chunk} {m : Machine} {e : DecodeError}
    (h : Instruction.decode chunk.code m.ip = .error e) :
    ∃ ip, step chunk m = .error e.fault { m.atLine chunk with ip := ip } := by
  unfold Instruction.decode at h
  split at h
  -- there is no byte at this offset
  · rename_i hnone
    cases h
    have hread : chunk.readByte? m.ip = none := hnone
    refine ⟨m.ip, ?_⟩
    rw [step_eq_proceed]
    apply bind_of_error
    rw [fetchByte_apply, show chunk.readByte? (m.atLine chunk).ip = none from hread]
    rfl
  · rename_i byte hbyte
    have hread : chunk.readByte? m.ip = some byte := hbyte
    have hfetch : fetchByte chunk (m.atLine chunk) =
        .ok byte { m.atLine chunk with ip := m.ip + 1 } := by
      rw [fetchByte_apply, show chunk.readByte? (m.atLine chunk).ip = some byte from hread]
      rfl
    refine ⟨m.ip + 1, ?_⟩
    rw [step_eq_proceed]
    unfold proceed
    rw [bind_of_ok hfetch]
    split at h
    -- the byte is no opcode
    · rename_i hopcode
      cases h
      rw [hopcode]
      rfl
    -- the opcode is reserved, or its operand is cut off
    · rename_i opcode hopcode
      rw [hopcode]
      exact bind_of_error (perform_of_decodeOpcode_error h)

/-! ## The interpreter

A second machine, which decodes an instruction as a whole before it executes it. -/

/-- Executes decoded instructions from where the machine is, at most as many as `steps` says. Code
that cannot be decoded ends the run and changes nothing but the line. -/
def interpret (chunk : Chunk) : (steps : Nat) → Machine → Outcome RuntimeError × Machine
  | 0, m => (.unfinished, m)
  | steps + 1, m =>
    let line := chunk.line m.ip
    match Instruction.decode chunk.code m.ip with
    | .error e => (.failed ⟨e.fault, line⟩, { m with line := line })
    | .ok i =>
      match execute chunk i { m with ip := m.ip + i.width, line := line } with
      | .error fault m' => (.failed ⟨fault, line⟩, m')
      | .ok () m' => if i = .ret then (.finished, m') else interpret chunk steps m'

/-- Two runs have ended alike, or are at the same place. Where in the code a failed run stood is not
compared: nothing is read from there any more. -/
structure Agrees (x y : Outcome RuntimeError × Machine) : Prop where
  outcome : x.1 = y.1
  stack : x.2.stack = y.2.stack
  globals : x.2.globals = y.2.globals
  line : x.2.line = y.2.line
  output : x.2.output = y.2.output
  ip : (∀ e, x.1 ≠ .failed e) → x.2.ip = y.2.ip

theorem Agrees.refl (x : Outcome RuntimeError × Machine) : Agrees x x :=
  ⟨rfl, rfl, rfl, rfl, rfl, fun _ => rfl⟩

/-- One step of the machine is one round of the interpreter. -/
theorem runFrom_agrees_interpret (chunk : Chunk) (steps : Nat) (m : Machine) :
    Agrees (runFrom chunk steps m) (interpret chunk steps m) := by
  induction steps generalizing m with
  | zero => exact .refl _
  | succ steps ih =>
    rw [runFrom, interpret]
    cases hdecode : Instruction.decode chunk.code m.ip with
    | error e =>
      obtain ⟨ip, hstep⟩ := step_of_decode_error hdecode
      rw [hstep]
      -- Here alone do the two stand at different places.
      exact ⟨rfl, rfl, rfl, rfl, rfl, fun h => absurd rfl (h _)⟩
    | ok i =>
      show Agrees _ (match execute chunk i (m.past chunk i) with
        | .error fault m' => (.failed ⟨fault, chunk.line m.ip⟩, m')
        | .ok () m' => if i = .ret then (.finished, m') else interpret chunk steps m')
      have hstep := step_of_decode hdecode
      cases hexecute : execute chunk i (m.past chunk i) with
      | error fault m' =>
        rw [bind_of_error hexecute] at hstep
        rw [hstep]
        -- the line that is reported is the one that was noted before the instruction
        simp only [line_of_error hstep]
        exact .refl _
      | ok _ m' =>
        rw [bind_of_ok hexecute] at hstep
        rw [hstep]
        by_cases hret : i = .ret
        · have hhalts : (return progress i : MachineM Progress) m' = .ok .halted m' := by
            rw [progress, if_pos hret]
            rfl
          rw [hhalts]
          simp only [if_pos hret]
          exact .refl _
        · have hruns : (return progress i : MachineM Progress) m' = .ok .running m' := by
            rw [progress, if_neg hret]
            rfl
          rw [hruns]
          simp only [if_neg hret]
          exact ih m'

/-- On every chunk and from every state the machine takes the steps of the interpreter, and ends as
it does. Where nothing can be decoded it ends with the fault that says why, on the line of that
place, and has changed neither the stack nor the variables nor the output. -/
theorem run_agrees_interpret (chunk : Chunk) (steps : Nat) (m : Machine) :
    Agrees (run chunk steps m) (interpret chunk steps m.reset) ∧
    Agrees (runFrom chunk steps m) (interpret chunk steps m) ∧
    (∀ e, Instruction.decode chunk.code m.ip = .error e →
      (∃ ip, runFrom chunk (steps + 1) m =
        (.failed ⟨e.fault, chunk.line m.ip⟩, { m with ip := ip, line := chunk.line m.ip })) ∧
      e.fault.message = match e with
        | .truncated _ => "Unexpected end of bytecode."
        | .reserved opcode _ => "Unimplemented opcode " ++ opcode.mnemonic ++ "."
        | .unknown byte _ => "Unknown opcode " ++ toString byte.toNat ++ ".") ∧
    ∀ opcode, Instruction.decodeOpcode chunk.code m.ip opcode = .error (.reserved opcode m.ip) ↔
      opcode.isReserved = true := by
  refine ⟨runFrom_agrees_interpret chunk steps m.reset, runFrom_agrees_interpret chunk steps m,
    ?_, Instruction.decodeOpcode_eq_reserved_iff chunk.code m.ip⟩
  intro e hdecode
  obtain ⟨ip, hstep⟩ := step_of_decode_error hdecode
  refine ⟨⟨ip, ?_⟩, ?_⟩
  · rw [runFrom, hstep]
    rfl
  · cases e <;> rfl

/-- A jump whose distance is cut off after its first byte, behind an instruction that pushes. -/
def cutChunk : Chunk where
  code := #[1, 25, 0]
  lines := #[7, 8, 8]
  constants := #[]

/-- The run ends on the line of the jump, and what was pushed before is still there. -/
theorem run_agrees_interpret_cut :
    Instruction.decode cutChunk.code 1 = .error (.truncated 1) ∧
    ∃ ip, runFrom cutChunk 1 { start (.ofRoom none) with stack := #[.nil], ip := 1 } =
      (.failed ⟨.endOfCode, 8⟩,
        { start (.ofRoom none) with stack := #[.nil], ip := ip, line := 8 }) :=
  have hcut : Instruction.decode cutChunk.code 1 = .error (.truncated 1) := rfl
  ⟨hcut, ((run_agrees_interpret cutChunk 0
    { start (.ofRoom none) with stack := #[.nil], ip := 1 }).2.2.1 _ hcut).1⟩

end Machine

end StackScript
