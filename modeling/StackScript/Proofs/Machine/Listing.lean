import StackScript.Proofs.Bytecode.Entries
import StackScript.Proofs.Machine.Failure

/-!
# What a listing shows is what the machine does

A listing computes the offset after an instruction, the target of a jump and the constant of an
operand by itself, the target of a jump back as a number that may be negative. The machine goes from
byte to byte and does not look where it jumps. The two agree at every offset of every code where an
instruction can be decoded, also if it lies inside another one.

* **`Instruction.jumps`**: whether an instruction jumps from a state.
* **`Fault.isInvalidConstant_of_message`**: only a missing constant is reported as one.
* **`step_agrees_entry`**: an entry of a listing and the step at its offset.
-/

namespace StackScript

/-- Whether the instruction jumps: one with a condition does if the value on top is falsey. -/
def Instruction.jumps (m : Machine) : Instruction → Bool
  | .jump _ | .loop _ => .true
  | .jumpIfFalse _ => m.stack.back?.any Value.isFalsey
  | _ => .false

/-! ## Messages

Which fault it was can be told from the start of its message. -/

namespace Fault

/-- A text in parts begins like its first part. -/
theorem take_append {a b c : String} (ha : 9 ≤ a.toList.length) :
    (a ++ b ++ c).toList.take 9 = a.toList.take 9 := by
  rw [String.toList_append, String.toList_append, List.append_assoc,
    List.take_append_of_le_length ha]

/-- A missing constant is told apart from all other faults by how its message begins. -/
theorem isInvalidConstant_of_message {fault : Fault} {number : String}
    (h : fault.message = "Invalid constant " ++ number ++ ".") :
    ∃ index, fault = .invalidConstant index := by
  have hbegin : fault.message.toList.take 9 = "Invalid c".toList := by
    rw [h, take_append (by decide)]
    decide
  cases fault with
  | invalidConstant index => exact ⟨index, rfl⟩
  | unknownOpcode | reservedOpcode | notAName | invalidSlot | undefinedVariable | outputFull =>
    exact absurd ((take_append (by decide)).symm.trans hbegin) (by decide)
  | _ => exact absurd hbegin (by decide)

end Fault

namespace Machine

open Chunk (columns)

variable {c : Chunk} {m : Machine} {i : Instruction}

/-! ## The next offset

Where an instruction does not jump, the machine goes on behind it. -/

/-- An instruction that does not jump leads to the one behind it. -/
theorem ip_of_execute {next : Machine} (hexecute : execute c i m = .ok () next)
    (hjumps : i.jumps m = false) : next.ip = m.ip := by
  cases hfalls : i.fallsThrough with
  | true =>
    exact ((does_execute i).of_ok hexecute).ip hfalls
  | false =>
    cases i with
    | jump distance | loop distance => cases hjumps
    | ret =>
      cases hexecute
      rfl
    | jumpIfFalse distance =>
      -- it has not jumped, so the value on top is truthy
      rw [execute_jumpIfFalse] at hexecute
      unfold Instruction.jumps at hjumps
      cases hback : m.stack.back? with
      | none =>
        rw [hback] at hexecute
        cases hexecute
      | some value =>
        rw [hback] at hexecute hjumps
        cases hexecute
        exact if_neg (by rw [show value.isFalsey = false from hjumps]; decide)
    | _ => cases hfalls

/-! ## Targets

Where a jump leads, and that a target before the start is a fault. -/

/-- Where an instruction jumps to from the state in which it is executed, which is behind it. -/
def Targets (c : Chunk) (i : Instruction) (m : Machine) (target : Int) : Prop :=
  (i.jumps m = true → 0 ≤ target →
    ∃ next, execute c i m = .ok () next ∧ (next.ip : Int) = target) ∧
  (target < 0 ↔ ∃ fault last, execute c i m = .error fault last ∧
    fault.message = "Loop target before start of chunk.")

/-- A jump forward has a target in every case. -/
theorem targets_jump (distance : UInt16) :
    Targets c (.jump distance) m (m.ip + distance.toNat : Nat) := by
  refine ⟨fun _ _ => ⟨_, rfl, rfl⟩, fun h => ?_, ?_⟩
  · omega
  · rintro ⟨fault, last, ⟨⟩, -⟩

/-- So has one with a condition. -/
theorem targets_jumpIfFalse (distance : UInt16) :
    Targets c (.jumpIfFalse distance) m (m.ip + distance.toNat : Nat) := by
  unfold Targets Instruction.jumps
  rw [execute_jumpIfFalse]
  cases m.stack.back? with
  | none =>
    -- the machine fails on the empty stack, and says so
    refine ⟨by rintro ⟨⟩, fun h => by omega, ?_⟩
    rintro ⟨fault, last, ⟨⟩, hmessage⟩
    exact absurd hmessage (by decide)
  | some value =>
    refine ⟨fun hfalsey _ => ⟨_, rfl, ?_⟩, fun h => by omega, ?_⟩
    · exact congrArg Int.ofNat (if_pos hfalsey)
    · rintro ⟨fault, last, ⟨⟩, -⟩

/-- The machine never computes a negative offset; it fails instead. -/
theorem targets_loop (distance : UInt16) :
    Targets c (.loop distance) m (m.ip - distance.toNat : Int) := by
  unfold Targets
  rw [execute, jumpBackward_apply]
  by_cases hdistance : distance.toNat ≤ m.ip
  · rw [if_pos hdistance]
    refine ⟨fun _ _ => ⟨_, rfl, ?_⟩, fun h => by omega, ?_⟩
    · exact Int.ofNat_sub hdistance
    · rintro ⟨fault, last, ⟨⟩, -⟩
  · rw [if_neg hdistance]
    exact ⟨fun _ h => by omega, fun _ => ⟨_, _, rfl, rfl⟩, fun _ => by omega⟩

/-! ## Constants

An instruction that names a constant fails if the chunk has none at that index. -/

/-- An instruction whose constant is missing fails before it does anything. -/
theorem execute_of_missing {index : UInt8} (hi : i.constant? = some index)
    (hmissing : c.constants[index.toNat]? = none) :
    execute c i m = .error (.invalidConstant index) m := by
  have hconstant : constantAt c index m = .error (.invalidConstant index) m := by
    rw [constantAt_apply, hmissing]
  cases i with
  | constant n =>
    cases hi
    exact bind_of_error hconstant
  | getGlobal n | defineGlobal n | setGlobal n =>
    cases hi
    exact bind_of_error (bind_of_error hconstant)
  | _ => cases hi

/-- Only a constant that is missing is reported as such. -/
theorem does_find {index : UInt8} (hi : i.constant? = some index) :
    Does (execute c i) m (fun _ _ => True) fun fault _ =>
      ∀ other, fault = .invalidConstant other → c.constants[index.toNat]? = none := by
  cases i with
  | constant n =>
    cases hi
    refine Does.bind (does_constantAt (fun value _ => ?_) fun hnone _ _ => hnone)
    exact does_push (fun _ => trivial) (by rintro - other ⟨⟩)
  | getGlobal n =>
    cases hi
    refine Does.bind (does_nameAt (fun name _ => ?_) (fun hnone _ _ => hnone) (by rintro _ _ ⟨⟩))
    refine Does.bind (does_getGlobal (fun value _ => ?_) (by rintro _ ⟨⟩))
    exact does_push (fun _ => trivial) (by rintro - other ⟨⟩)
  | defineGlobal n =>
    cases hi
    refine Does.bind (does_nameAt (fun name _ => ?_) (fun hnone _ _ => hnone) (by rintro _ _ ⟨⟩))
    exact Does.bind (does_pop (fun _ _ _ => trivial) (by rintro - other ⟨⟩))
  | setGlobal n =>
    cases hi
    refine Does.bind (does_nameAt (fun name _ => ?_) (fun hnone _ _ => hnone) (by rintro _ _ ⟨⟩))
    refine Does.bind (does_peek (fun value => ?_) (by rintro _ ⟨⟩))
    exact Does.bind (Does.discard (does_getGlobal (fun _ _ => trivial) (by rintro _ ⟨⟩)))
  | _ => cases hi

/-- A constant in quotes is not the word for a missing one. -/
theorem constantText_eq_missing_iff {index : UInt8} :
    c.constantText index = "<missing>" ↔ c.constants[index.toNat]? = none := by
  unfold Chunk.constantText
  cases c.constants[index.toNat]? with
  | none => exact ⟨fun _ => rfl, fun _ => rfl⟩
  | some value =>
    refine ⟨fun h => ?_, by rintro ⟨⟩⟩
    have hfirst := congrArg (fun text : String => text.toList.head?) h
    simp at hfirst

/-- The machine reads the index of a constant from the byte behind the opcode. -/
theorem fetchByte_of_constant? {index : UInt8} (hdecode : Instruction.decode c.code m.ip = .ok i)
    (hi : i.constant? = some index) :
    fetchByte c { m with ip := m.ip + 1 } = .ok index { m with ip := m.ip + 2 } := by
  unfold Instruction.decode at hdecode
  split at hdecode
  · cases hdecode
  · split at hdecode
    · cases hdecode
    · rename_i opcode _
      cases opcode with
      | constant | getGlobal | defineGlobal | setGlobal =>
        obtain ⟨value, hoperand, rfl⟩ := map_eq_ok hdecode
        cases hi
        exact fetchByte_of_byteOperand hoperand
      | getLocal | setLocal | jump | jumpIfFalse | loop =>
        obtain ⟨value, -, rfl⟩ := map_eq_ok hdecode
        cases hi
      | _ => cases hdecode <;> cases hi

/-! ## Entries and steps

The offsets and constants that an entry shows are those of the step at the same place. -/

/-- Distances count from behind the instruction, where the machine is when it jumps. -/
theorem instructionText_jump (c : Chunk) (m : Machine) (distance : UInt16) :
    c.instructionText m.ip (.jump distance) = columns (.jump distance) m.ip ++ " -> " ++
      toString (((m.past c (.jump distance)).ip + distance.toNat : Nat) : Int) :=
  rfl

/-- A jump with a condition shows the same target. -/
theorem instructionText_jumpIfFalse (c : Chunk) (m : Machine) (distance : UInt16) :
    c.instructionText m.ip (.jumpIfFalse distance) =
      columns (.jumpIfFalse distance) m.ip ++ " -> " ++
        toString (((m.past c (.jumpIfFalse distance)).ip + distance.toNat : Nat) : Int) :=
  rfl

/-- A jump back may show a target before the start. -/
theorem instructionText_loop (c : Chunk) (m : Machine) (distance : UInt16) :
    c.instructionText m.ip (.loop distance) = columns (.loop distance) m.ip ++ " -> " ++
      toString (((m.past c (.loop distance)).ip : Int) - (distance.toNat : Int)) :=
  rfl

/-- The index of the constant, and its text. -/
theorem instructionText_constant {offset : Nat} {index : UInt8} (hi : i.constant? = some index) :
    c.instructionText offset i = columns i index.toNat ++ " " ++ c.constantText index := by
  cases i with
  | constant n | getGlobal n | defineGlobal n | setGlobal n =>
    cases hi
    rfl
  | _ => cases hi

/-- A step fails where the instruction does. -/
theorem step_eq_error_iff {fault : Fault} {last : Machine}
    (hdecode : Instruction.decode c.code m.ip = .ok i) :
    step c m = .error fault last ↔ execute c i (m.past c i) = .error fault last := by
  rw [step_of_decode hdecode]
  cases hexecute : execute c i (m.past c i) with
  | ok a next =>
    rw [bind_of_ok hexecute]
    constructor <;> rintro ⟨⟩
  | error fault' last' =>
    rw [bind_of_error hexecute]
    constructor <;> rintro ⟨⟩ <;> rfl

/-- A target that is right when the instruction is executed is right for the step. -/
theorem Targets.step {target : Int} (hdecode : Instruction.decode c.code m.ip = .ok i)
    (hret : i ≠ .ret) (h : Targets c i (m.past c i) target) :
    (i.jumps m = true → 0 ≤ target →
      ∃ next, step c m = .ok .running next ∧ (next.ip : Int) = target) ∧
    (target < 0 ↔ ∃ fault last, step c m = .error fault last ∧
      fault.message = "Loop target before start of chunk.") := by
  constructor
  · intro hjumps htarget
    have hpast : i.jumps (m.past c i) = i.jumps m := by cases i <;> rfl
    obtain ⟨next, hexecute, hip⟩ := h.1 (hpast.trans hjumps) htarget
    refine ⟨next, ?_, hip⟩
    rw [step_of_decode hdecode, bind_of_ok hexecute, progress, if_neg hret]
    rfl
  · simp only [step_eq_error_iff hdecode]
    exact h.2

/-- **A listing shows what the machine does.** Wherever an instruction can be decoded, in whatever
state the machine is there: if it does not jump the next offset of the listing is where the machine
goes on; the target in the listing is where the machine jumps to, and is negative if and only if the
machine fails because of it; the constant in the listing is the one that the machine reads, and is
missing if and only if the machine fails because of that. -/
theorem step_agrees_entry (hdecode : Instruction.decode c.code m.ip = .ok i) :
    (∀ next, step c m = .ok .running next → i.jumps m = false → next.ip = (c.entry m.ip).2) ∧
    (∀ distance, i = .jump distance ∨ i = .jumpIfFalse distance ∨ i = .loop distance →
      ∃ target : Int,
        (c.entry m.ip).1 = c.margin m.ip ++ (columns i m.ip ++ " -> " ++ toString target) ∧
        (i.jumps m = true → 0 ≤ target →
          ∃ next, step c m = .ok .running next ∧ (next.ip : Int) = target) ∧
        (target < 0 ↔ ∃ fault last, step c m = .error fault last ∧
          fault.message = "Loop target before start of chunk.")) ∧
    ∀ index, i.constant? = some index →
      ∃ shown,
        (c.entry m.ip).1 = c.margin m.ip ++ (columns i index.toNat ++ " " ++ shown) ∧
        (∀ value m', fetchConstant c { m with ip := m.ip + 1 } = .ok value m' →
          shown = "'" ++ value.display ++ "'") ∧
        (shown = "<missing>" ↔ ∃ fault last, step c m = .error fault last ∧
          fault.message = "Invalid constant " ++ toString index.toNat ++ ".") := by
  rw [Chunk.entry_of_decode hdecode]
  refine ⟨fun next hstep hjumps => ?_, fun distance hi => ?_, fun index hi => ?_⟩
  · rw [step_of_decode hdecode] at hstep
    obtain ⟨_, last, hexecute, hpure⟩ := bind_eq_ok.mp hstep
    obtain ⟨-, rfl⟩ := EStateM.Result.ok.inj hpure
    have hpast : i.jumps (m.past c i) = i.jumps m := by cases i <;> rfl
    exact ip_of_execute hexecute (hpast.trans hjumps)
  · rcases hi with rfl | rfl | rfl
    · have htarget := (targets_jump distance).step hdecode (by simp)
      exact ⟨_, by rw [instructionText_jump], htarget⟩
    · have htarget := (targets_jumpIfFalse distance).step hdecode (by simp)
      exact ⟨_, by rw [instructionText_jumpIfFalse], htarget⟩
    · have htarget := (targets_loop distance).step hdecode (by simp)
      exact ⟨_, by rw [instructionText_loop], htarget⟩
  · refine ⟨c.constantText index, ?_, fun value m' hread => ?_, ?_⟩
    · rw [instructionText_constant hi]
    · rw [fetchConstant_of_fetchByte (fetchByte_of_constant? hdecode hi), constantAt_apply] at hread
      unfold Chunk.constantText
      cases hvalue : c.constants[index.toNat]? with
      | none =>
        rw [hvalue] at hread
        cases hread
      | some found =>
        rw [hvalue] at hread
        cases hread
        rfl
    · rw [constantText_eq_missing_iff]
      simp only [step_eq_error_iff hdecode]
      constructor
      · intro hmissing
        exact ⟨_, _, execute_of_missing hi hmissing, rfl⟩
      · rintro ⟨fault, last, hexecute, hmessage⟩
        -- the message gives the fault away, and the fault that a constant is missing
        obtain ⟨other, rfl⟩ := Fault.isInvalidConstant_of_message hmessage
        exact (does_find hi).of_error hexecute other rfl

/-- A jump back to before the start of the code, from inside the operand of another jump. -/
def loopInside : Chunk where
  code := #[25, 27, 0, 9]
  lines := #[1, 1, 2, 2]
  constants := #[]

/-- A jump back to before the start. -/
theorem step_agrees_entry_loopInside :
    Instruction.decode loopInside.code 1 = .ok (.loop 9) ∧
    ∃ target : Int,
      (loopInside.entry 1).1 =
        loopInside.margin 1 ++ (columns (.loop 9) 1 ++ " -> " ++ toString target) ∧
      (target < 0 ↔
        ∃ fault last,
          step loopInside { start (.ofRoom none) with ip := 1 } = .error fault last ∧
            fault.message = "Loop target before start of chunk.") :=
  have hdecode : Instruction.decode loopInside.code 1 = .ok (.loop 9) := rfl
  have hentry := (step_agrees_entry (m := { start (.ofRoom none) with ip := 1 })
    hdecode).2.1 9 (.inr (.inr rfl))
  ⟨hdecode, hentry.imp fun _ h => ⟨h.1, h.2.2⟩⟩

end Machine

end StackScript
