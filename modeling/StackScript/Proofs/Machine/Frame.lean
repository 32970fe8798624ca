import StackScript.Proofs.Machine.Execute

/-!
# What actions leave alone

An instruction changes the stack, the variables, the place in the code and the output. It does not
change the line, and of the output it only changes the end. Facts of this kind are relations between
the machine before and after an action, and they are all proved in the same way.

* **`Framed`**: relations that hold whenever an action changes no more than actions change.
* **`Upholds`**: an action upholds such a relation, whether it succeeds or faults; it
  composes along `>>=`.
* **`upholds_step`**: so does a step, once the line of its instruction is noted.
* **`line_of_step`**: in a step the machine is on the line on which the instruction starts.
-/

namespace StackScript.Machine

/-! ## Relations between machines

The rules below are stated for any relation of this kind. What differs between relations is only
what they say about printing. -/

/-- A relation between the machine before and the machine after an action. -/
class Framed (R : Machine → Machine → Prop) : Prop where
  refl : ∀ m, R m m
  trans : ∀ {m m' m''}, R m m' → R m' m'' → R m m''
  /-- The stack, the variables and the place in the code may change. -/
  moves : ∀ (m : Machine) stack globals ip,
    R m { m with stack := stack, globals := globals, ip := ip }
  /-- Something is printed, or as much of it as there is room for. -/
  prints : ∀ (m : Machine) text, R m { m with output := (m.output.writeText text).2 }

/-- The machine that an action leaves, whether it succeeds or faults. -/
def left {α : Type} : EStateM.Result Fault Machine α → Machine
  | .ok _ m => m
  | .error _ m => m

/-- The machine that the action leaves is in the relation to the one before. -/
def Upholds (R : Machine → Machine → Prop) {α : Type} (x : MachineM α) : Prop :=
  ∀ m, R m (left (x m))

section Upholds

variable {R : Machine → Machine → Prop} [Framed R] {α β : Type}

/-- An action that only looks at the machine. -/
theorem upholds_of_same {x : MachineM α} (h : ∀ m, left (x m) = m) : Upholds R x := by
  intro m
  rw [h m]
  exact Framed.refl m

theorem upholds_pure (a : α) : Upholds R (pure a) := upholds_of_same fun _ => rfl

theorem upholds_throw (fault : Fault) : Upholds R (throw fault : MachineM α) :=
  upholds_of_same fun _ => rfl

/-- One action after the other; if the first faults the second is not there. -/
theorem upholds_bind {x : MachineM α} {f : α → MachineM β} (hx : Upholds R x)
    (hf : ∀ a, Upholds R (f a)) : Upholds R (x >>= f) := by
  intro m
  have hfirst := hx m
  cases h : x m with
  | ok a m' =>
    rw [bind_of_ok h]
    rw [h] at hfirst
    exact Framed.trans hfirst (hf a m')
  | error fault m' =>
    rw [bind_of_error h]
    rw [h] at hfirst
    exact hfirst

omit [Framed R] in
theorem upholds_discard {x : MachineM α} (hx : Upholds R x) : Upholds R (discard x) := by
  intro m
  have hfirst := hx m
  cases h : x m with
  | ok a m' =>
    rw [discard_of_ok h]
    rw [h] at hfirst
    exact hfirst
  | error fault m' =>
    rw [discard_of_error h]
    rw [h] at hfirst
    exact hfirst

/-! ### Single actions

Each of them either changes one part of the machine or faults and changes nothing, except that a
text which does not fit is printed in part. -/

theorem upholds_fetchByte (chunk : Chunk) : Upholds R (fetchByte chunk) := by
  intro m
  rw [fetchByte_apply]
  cases chunk.readByte? m.ip with
  | some byte => exact Framed.moves m m.stack m.globals (m.ip + 1)
  | none => exact Framed.refl m

/-- A word is read byte by byte. -/
theorem upholds_fetchWord (chunk : Chunk) : Upholds R (fetchWord chunk) := by
  intro m
  rw [fetchWord_apply]
  cases chunk.readWord? m.ip with
  | some word => exact Framed.moves m m.stack m.globals (m.ip + 2)
  | none => exact Framed.refl m

theorem upholds_fetchConstant (chunk : Chunk) : Upholds R (fetchConstant chunk) := by
  refine upholds_bind (upholds_fetchByte chunk) fun index => ?_
  cases chunk.constants[index.toNat]? with
  | none => exact upholds_throw _
  | some value => exact upholds_pure _

theorem upholds_fetchName (chunk : Chunk) : Upholds R (fetchName chunk) := by
  refine upholds_bind (upholds_fetchConstant chunk) fun value => ?_
  cases value with
  | string name => exact upholds_pure _
  | _ => exact upholds_throw _

/-- A value is pushed, or the stack is full. -/
theorem upholds_push (value : Value) : Upholds R (push value) := by
  intro m
  rw [push_apply]
  split
  · exact Framed.moves m (m.stack.push value) m.globals m.ip
  · exact Framed.refl m

/-- A value is popped, or there is none. -/
theorem upholds_pop : Upholds R pop := by
  intro m
  rw [pop_apply]
  cases m.stack.back? with
  | some value => exact Framed.moves m m.stack.pop m.globals m.ip
  | none => exact Framed.refl m

theorem upholds_peek : Upholds R peek := by
  refine upholds_of_same fun m => ?_
  rw [peek_apply]
  cases m.stack.back? <;> rfl

theorem upholds_getLocal (slot : UInt8) : Upholds R (getLocal slot) := by
  refine upholds_of_same fun m => ?_
  rw [getLocal_apply]
  cases m.stack[slot.toNat]? <;> rfl

/-- A slot that exists gets another value. -/
theorem upholds_setLocal (slot : UInt8) (value : Value) : Upholds R (setLocal slot value) := by
  intro m
  exact Framed.moves m (m.stack.setIfInBounds slot.toNat value) m.globals m.ip

theorem upholds_getGlobal (name : String) : Upholds R (getGlobal name) := by
  refine upholds_of_same fun m => ?_
  rw [getGlobal_apply]
  cases m.globals[name]? <;> rfl

/-- A global gets a value, whether it was there or not. -/
theorem upholds_defineGlobal (name : String) (value : Value) :
    Upholds R (defineGlobal name value) := by
  intro m
  exact Framed.moves m m.stack (m.globals.insert name value) m.ip

/-- Only the place at which the machine goes on changes. -/
theorem upholds_jumpForward (distance : UInt16) : Upholds R (jumpForward distance) := by
  intro m
  exact Framed.moves m m.stack m.globals (m.ip + distance.toNat)

/-- A jump back must not lead before the start of the code. -/
theorem upholds_jumpBackward (distance : UInt16) : Upholds R (jumpBackward distance) := by
  intro m
  rw [jumpBackward_apply]
  split
  · exact Framed.moves m m.stack m.globals (m.ip - distance.toNat)
  · exact Framed.refl m

/-- A line is printed, or the output is full. -/
theorem upholds_printLine (text : String) : Upholds R (printLine text) := by
  intro m
  have hprints : R m { m with output := (m.output.writeText (text ++ "\n")).2 } :=
    Framed.prints m (text ++ "\n")
  rw [printLine_apply]
  split <;> exact hprints

/-! ### Instructions

What an opcode does is a sequence of single actions, so nothing is to be proved here that depends on
the relation. -/

/-- Two values are popped before the operation, and its result is pushed. -/
theorem upholds_binary {operation : Value → Value → MachineM Value}
    (h : ∀ a b, Upholds R (operation a b)) : Upholds R (binary operation) := by
  refine upholds_bind upholds_pop fun right => upholds_bind upholds_pop fun left => ?_
  exact upholds_bind (h left right) fun value => upholds_push value

theorem upholds_addValues (a b : Value) : Upholds R (addValues a b) := by
  unfold addValues
  split
  · exact upholds_pure _
  · exact upholds_pure _
  · exact upholds_throw _

theorem upholds_onNumbers (operation : Float → Float → Value) (a b : Value) :
    Upholds R (onNumbers operation a b) := by
  unfold onNumbers
  split
  · exact upholds_pure _
  · exact upholds_throw _

/-- The value on top is replaced only if it is a number. -/
theorem upholds_negateTop : Upholds R negateTop := by
  refine upholds_bind upholds_pop fun value => ?_
  cases value with
  | number a => exact upholds_push _
  | _ => exact upholds_throw _

theorem upholds_perform (chunk : Chunk) (opcode : Opcode) : Upholds R (perform chunk opcode) := by
  cases opcode with
  | constant => exact upholds_bind (upholds_fetchConstant chunk) upholds_push
  | nil | true | false => exact upholds_push _
  | pop => exact upholds_discard upholds_pop
  | getLocal =>
    refine upholds_bind (upholds_fetchByte chunk) fun slot => ?_
    exact upholds_bind (upholds_getLocal slot) upholds_push
  | setLocal =>
    refine upholds_bind (upholds_fetchByte chunk) fun slot => ?_
    refine upholds_bind (upholds_discard (upholds_getLocal slot)) fun _ => ?_
    exact upholds_bind upholds_peek (upholds_setLocal slot)
  | getGlobal =>
    refine upholds_bind (upholds_fetchName chunk) fun name => ?_
    exact upholds_bind (upholds_getGlobal name) upholds_push
  | defineGlobal =>
    refine upholds_bind (upholds_fetchName chunk) fun name => ?_
    exact upholds_bind upholds_pop (upholds_defineGlobal name)
  -- the name must have been defined, which is looked up before the value is set
  | setGlobal =>
    refine upholds_bind (upholds_fetchName chunk) fun name => ?_
    refine upholds_bind upholds_peek fun value => ?_
    refine upholds_bind (upholds_discard (upholds_getGlobal name)) fun _ => ?_
    exact upholds_defineGlobal name value
  | equal => exact upholds_binary fun _ _ => upholds_pure _
  | greater | less | subtract | multiply | divide => exact upholds_binary (upholds_onNumbers _)
  | add => exact upholds_binary upholds_addValues
  | not => exact upholds_bind upholds_pop fun _ => upholds_push _
  | negate => exact upholds_negateTop
  | print => exact upholds_bind upholds_pop fun _ => upholds_printLine _
  | jump => exact upholds_bind (upholds_fetchWord chunk) upholds_jumpForward
  | jumpIfFalse =>
    refine upholds_bind (upholds_fetchWord chunk) fun distance => ?_
    refine upholds_bind upholds_peek fun value => ?_
    split
    · exact upholds_jumpForward distance
    · exact upholds_pure ()
  | loop => exact upholds_bind (upholds_fetchWord chunk) upholds_jumpBackward
  | ret => exact upholds_pure ()
  -- the opcodes that are reserved
  | _ => exact upholds_throw _

theorem upholds_proceed (chunk : Chunk) : Upholds R (proceed chunk) := by
  refine upholds_bind (upholds_fetchByte chunk) fun byte => ?_
  cases Opcode.ofByte? byte with
  | none => exact upholds_throw _
  | some opcode => exact upholds_bind (upholds_perform chunk opcode) fun _ => upholds_pure _

/-- **A step changes no more than actions change**, apart from the line, which is noted first. -/
theorem upholds_step (chunk : Chunk) (m : Machine) : R (m.atLine chunk) (left (step chunk m)) :=
  upholds_proceed chunk (m.atLine chunk)

end Upholds

/-! ## The line

The line is noted when an instruction starts and not touched by what the instruction does. So a
fault is reported for the line on which its instruction starts, and where a machine was before is
of no account. -/

/-- Both machines are on one line. -/
def SameLine (m m' : Machine) : Prop :=
  m'.line = m.line

instance : Framed SameLine where
  refl _ := rfl
  trans h h' := Eq.trans h' h
  moves _ _ _ _ := rfl
  prints _ _ := rfl

/-- In a step the machine is on the line on which the instruction starts. -/
theorem line_of_step (chunk : Chunk) (m : Machine) :
    (left (step chunk m)).line = chunk.line m.ip :=
  upholds_step (R := SameLine) chunk m

/-- The machine is on the line of the instruction that fails. -/
theorem line_of_error {chunk : Chunk} {m m' : Machine} {fault : Fault}
    (h : step chunk m = .error fault m') : m'.line = chunk.line m.ip := by
  have hline := line_of_step chunk m
  rwa [h] at hline

/-- A step does not depend on the line on which the machine was before. -/
theorem step_line (chunk : Chunk) (m : Machine) (line : Nat) :
    step chunk { m with line := line } = step chunk m := rfl

end StackScript.Machine
