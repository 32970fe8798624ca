import StackScript.Proofs.Machine.Frame

/-!
# The same machine in other surroundings

What instructions compute with are the values on the stack and the variables. Where in the code the
machine stands, which line it is on and what it prints to are its surroundings. A machine in other
surroundings does the same, apart from them.

* **`Surrounds`**: a change of the surroundings.
* **`Commutes`**: an action does in other surroundings what another one does; it composes along
  `>>=`.
* **`commutes_perform`**: so does an opcode, if the machine stands at the same place.
* **`commutes_proceed`**: so does a step, once the line of its instruction is noted.
-/

namespace StackScript.Machine

/-! ## Changes of the surroundings

Every change leaves the values alone and is not undone when values change. Some changes leave the
place in the code as it is as well, and some the output. -/

/-- A change of the surroundings of a machine: where it stands, its line and its output. -/
class Surrounds (h : Machine → Machine) : Prop where
  stack : ∀ m, (h m).stack = m.stack
  globals : ∀ m, (h m).globals = m.globals
  setStack : ∀ (m : Machine) stack, h { m with stack := stack } = { h m with stack := stack }
  setGlobals : ∀ (m : Machine) globals,
    h { m with globals := globals } = { h m with globals := globals }
  /-- A distance ahead is the same wherever the machine stands. -/
  goForward : ∀ (m : Machine) distance,
    h { m with ip := m.ip + distance } = { h m with ip := (h m).ip + distance }

/-- The machine stands at the same place in the code. -/
class InPlace (h : Machine → Machine) : Prop extends Surrounds h where
  ip : ∀ m, (h m).ip = m.ip
  setIp : ∀ (m : Machine) ip, h { m with ip := ip } = { h m with ip := ip }

/-- The machine prints to the same output. -/
class Echoes (h : Machine → Machine) : Prop extends Surrounds h where
  output : ∀ m, (h m).output = m.output
  setOutput : ∀ (m : Machine) output, h { m with output := output } = { h m with output := output }

/-- The result of an action in other surroundings. -/
def recast {α : Type} (h : Machine → Machine) :
    EStateM.Result Fault Machine α → EStateM.Result Fault Machine α
  | .ok a m => .ok a (h m)
  | .error fault m => .error fault (h m)

/-- The second action does in other surroundings what the first one does. -/
def Commutes {α : Type} (h : Machine → Machine) (x y : MachineM α) : Prop :=
  ∀ m, y (h m) = recast h (x m)

section Commutes

variable {h : Machine → Machine} {α β : Type} {x y : MachineM α} {f g : α → MachineM β}

theorem commutes_pure (a : α) : Commutes h (pure a) (pure a) := fun _ => rfl

/-- A fault is the same in any surroundings. -/
theorem commutes_throw (fault : Fault) : Commutes h (throw fault : MachineM α) (throw fault) :=
  fun _ => rfl

/-- One action after the other; if the first faults it does so in both surroundings. -/
theorem Commutes.bind (hx : Commutes h x y) (hf : ∀ a, Commutes h (f a) (g a)) :
    Commutes h (x >>= f) (y >>= g) := by
  intro m
  have hfirst := hx m
  cases hrun : x m with
  | ok a m' =>
    rw [hrun] at hfirst
    rw [bind_of_ok hrun, bind_of_ok hfirst]
    exact hf a m'
  | error fault m' =>
    rw [hrun] at hfirst
    rw [bind_of_error hrun, bind_of_error hfirst]
    rfl

theorem Commutes.discard (hx : Commutes h x y) : Commutes h (discard x) (discard y) := by
  intro m
  have hfirst := hx m
  cases hrun : x m with
  | ok a m' =>
    rw [hrun] at hfirst
    rw [discard_of_ok hrun, discard_of_ok hfirst]
    rfl
  | error fault m' =>
    rw [hrun] at hfirst
    rw [discard_of_error hrun, discard_of_error hfirst]
    rfl

/-! ### Values

These actions look at the stack or at the variables, change one of them, and do not care about
anything else. -/

section Values

variable [Surrounds h]

/-- There is the same room on the stack. -/
theorem commutes_push (value : Value) : Commutes h (push value) (push value) := by
  intro m
  rw [push_apply, push_apply, Surrounds.stack]
  by_cases hroom : m.stack.size < maxStack
  · rw [if_pos hroom, if_pos hroom, ← Surrounds.setStack]
    rfl
  · rw [if_neg hroom, if_neg hroom]
    rfl

theorem commutes_pop : Commutes h pop pop := by
  intro m
  rw [pop_apply, pop_apply, Surrounds.stack]
  cases m.stack.back? with
  | some value => exact congrArg (EStateM.Result.ok value) (Surrounds.setStack m _).symm
  | none => rfl

theorem commutes_peek : Commutes h peek peek := by
  intro m
  rw [peek_apply, peek_apply, Surrounds.stack]
  cases m.stack.back? <;> rfl

theorem commutes_getLocal (slot : UInt8) : Commutes h (getLocal slot) (getLocal slot) := by
  intro m
  rw [getLocal_apply, getLocal_apply, Surrounds.stack]
  cases m.stack[slot.toNat]? <;> rfl

theorem commutes_setLocal (slot : UInt8) (value : Value) :
    Commutes h (setLocal slot value) (setLocal slot value) := by
  intro m
  show EStateM.Result.ok () { h m with
    stack := (h m).stack.setIfInBounds slot.toNat value } = _
  rw [Surrounds.stack, ← Surrounds.setStack]
  rfl

theorem commutes_getGlobal (name : String) : Commutes h (getGlobal name) (getGlobal name) := by
  intro m
  rw [getGlobal_apply, getGlobal_apply, Surrounds.globals]
  cases m.globals[name]? <;> rfl

theorem commutes_defineGlobal (name : String) (value : Value) :
    Commutes h (defineGlobal name value) (defineGlobal name value) := by
  intro m
  show EStateM.Result.ok () { h m with globals := (h m).globals.insert name value } = _
  rw [Surrounds.globals, ← Surrounds.setGlobals]
  rfl

/-- A jump forward never fails. -/
theorem commutes_jumpForward (distance : UInt16) :
    Commutes h (jumpForward distance) (jumpForward distance) := by
  intro m
  exact congrArg (EStateM.Result.ok ()) (Surrounds.goForward m distance.toNat).symm

/-- The operands are popped in the same order. -/
theorem commutes_binary {operation : Value → Value → MachineM Value}
    (hoperation : ∀ a b, Commutes h (operation a b) (operation a b)) :
    Commutes h (binary operation) (binary operation) := by
  apply commutes_pop.bind
  intro right
  apply commutes_pop.bind
  intro left
  exact (hoperation left right).bind commutes_push

/-- The value on top is checked and replaced. -/
theorem commutes_negateTop : Commutes h negateTop negateTop := by
  apply commutes_pop.bind
  intro value
  cases value with
  | number a => exact commutes_push _
  | _ => exact commutes_throw _

end Values

theorem commutes_addValues (a b : Value) : Commutes h (addValues a b) (addValues a b) := by
  intro m
  cases a <;> cases b <;> rfl

theorem commutes_onNumbers (operation : Float → Float → Value) (a b : Value) :
    Commutes h (onNumbers operation a b) (onNumbers operation a b) := by
  intro m
  cases a <;> cases b <;> rfl

/-- A line is printed to the same output in the same way. -/
theorem commutes_printLine [Echoes h] (text : String) :
    Commutes h (printLine text) (printLine text) := by
  intro m
  rw [printLine_apply, printLine_apply, Echoes.output, ← Echoes.setOutput]
  by_cases hfits : (m.output.writeText (text ++ "\n")).1 = true
  · rw [if_pos hfits, if_pos hfits]
    rfl
  · rw [if_neg hfits, if_neg hfits]
    rfl

/-! ### Opcodes at the same place

If the machine stands at the same place it reads the same operand, also where there is none, so that
no assumption about the code is needed. -/

section InPlace

variable [InPlace h] (chunk : Chunk)

theorem commutes_fetchByte : Commutes h (fetchByte chunk) (fetchByte chunk) := by
  intro m
  rw [fetchByte_apply, fetchByte_apply, InPlace.ip, ← InPlace.setIp]
  cases chunk.readByte? m.ip <;> rfl

theorem commutes_fetchWord : Commutes h (fetchWord chunk) (fetchWord chunk) := by
  intro m
  rw [fetchWord_apply, fetchWord_apply, InPlace.ip, ← InPlace.setIp]
  cases chunk.readWord? m.ip <;> rfl

theorem commutes_fetchConstant : Commutes h (fetchConstant chunk) (fetchConstant chunk) := by
  apply (commutes_fetchByte chunk).bind
  intro index
  cases chunk.constants[index.toNat]? with
  | none => exact commutes_throw _
  | some value => exact commutes_pure value

theorem commutes_fetchName : Commutes h (fetchName chunk) (fetchName chunk) := by
  apply (commutes_fetchConstant chunk).bind
  intro value
  cases value with
  | string name => exact commutes_pure name
  | _ => exact commutes_throw _

omit chunk in
/-- A jump back leads before the start in both machines or in none. -/
theorem commutes_jumpBackward (distance : UInt16) :
    Commutes h (jumpBackward distance) (jumpBackward distance) := by
  intro m
  rw [jumpBackward_apply, jumpBackward_apply, InPlace.ip, ← InPlace.setIp]
  by_cases hback : distance.toNat ≤ m.ip
  · rw [if_pos hback, if_pos hback]
    rfl
  · rw [if_neg hback, if_neg hback]
    rfl

/-- An opcode does the same in other surroundings, unless it prints and these have another
output. -/
theorem commutes_perform (opcode : Opcode)
    (hprint : opcode = .print → ∀ text, Commutes h (printLine text) (printLine text)) :
    Commutes h (perform chunk opcode) (perform chunk opcode) := by
  cases opcode with
  | constant => exact (commutes_fetchConstant chunk).bind commutes_push
  | nil | true | false => exact commutes_push _
  | pop => exact commutes_pop.discard
  | getLocal =>
    apply (commutes_fetchByte chunk).bind
    intro slot
    exact (commutes_getLocal slot).bind commutes_push
  | setLocal =>
    apply (commutes_fetchByte chunk).bind
    intro slot
    apply (commutes_getLocal slot).discard.bind
    intro _
    exact commutes_peek.bind (commutes_setLocal slot)
  | getGlobal =>
    apply (commutes_fetchName chunk).bind
    intro name
    exact (commutes_getGlobal name).bind commutes_push
  | defineGlobal =>
    apply (commutes_fetchName chunk).bind
    intro name
    exact commutes_pop.bind (commutes_defineGlobal name)
  | setGlobal =>
    apply (commutes_fetchName chunk).bind
    intro name
    apply commutes_peek.bind
    intro value
    apply (commutes_getGlobal name).discard.bind
    intro _
    exact commutes_defineGlobal name value
  | equal => exact commutes_binary fun _ _ => commutes_pure _
  | greater | less | subtract | multiply | divide => exact commutes_binary (commutes_onNumbers _)
  | add => exact commutes_binary commutes_addValues
  | not => exact commutes_pop.bind fun _ => commutes_push _
  | negate => exact commutes_negateTop
  -- the only opcode that looks at the output
  | print => exact commutes_pop.bind fun value => hprint rfl value.display
  | jump => exact (commutes_fetchWord chunk).bind commutes_jumpForward
  | jumpIfFalse =>
    apply (commutes_fetchWord chunk).bind
    intro distance
    apply commutes_peek.bind
    intro value
    by_cases hfalsey : value.isFalsey = true
    · rw [if_pos hfalsey]
      exact commutes_jumpForward distance
    · rw [if_neg hfalsey]
      exact commutes_pure ()
  | loop => exact (commutes_fetchWord chunk).bind commutes_jumpBackward
  | ret => exact commutes_pure ()
  -- the opcodes that are reserved
  | _ => exact commutes_throw _

end InPlace

end Commutes

/-! ## Steps

A step notes the line of its instruction, which is part of the surroundings. What it does then is
the same in other surroundings. -/

/-- A step does the same in other surroundings, unless it prints and these have another output. -/
theorem commutes_proceed {h : Machine → Machine} [InPlace h] (chunk : Chunk) (m : Machine)
    (hprint : Instruction.decode chunk.code m.ip = .ok .print →
      ∀ text, Commutes h (printLine text) (printLine text)) :
    proceed chunk (h m) = recast h (proceed chunk m) := by
  have hfetch : fetchByte chunk (h m) = recast h (fetchByte chunk m) := commutes_fetchByte chunk m
  unfold proceed
  cases hbyte : fetchByte chunk m with
  | error fault m' =>
    rw [hbyte] at hfetch
    rw [bind_of_error hbyte, bind_of_error hfetch]
    rfl
  | ok byte m' =>
    rw [hbyte] at hfetch
    rw [bind_of_ok hbyte, bind_of_ok hfetch]
    cases hopcode : Opcode.ofByte? byte with
    | none => rfl
    | some opcode =>
      -- the opcode that is read is that of the instruction which is decoded there
      have hdecode : opcode = .print → Instruction.decode chunk.code m.ip = .ok .print := by
        rintro rfl
        have hread : chunk.code[m.ip]? = some byte := by
          rw [fetchByte_apply] at hbyte
          cases hread : chunk.readByte? m.ip with
          | none =>
            rw [hread] at hbyte
            cases hbyte
          | some found =>
            rw [hread] at hbyte
            cases hbyte
            exact hread
        simp only [Instruction.decode, hread, hopcode]
        rfl
      have hperform := commutes_perform (h := h) chunk opcode fun hp => hprint (hdecode hp)
      exact hperform.bind (fun _ => commutes_pure _) m'

end StackScript.Machine
