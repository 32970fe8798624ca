import StackScript.Proofs.Bytecode.Flow
import StackScript.Proofs.Machine.Interpreter

/-!
# What an instruction changes when it succeeds and when it fails

Code need not come from the compiler. Whatever its bytes are, a stack never gets too high, variables
are never removed, and an instruction that fails has changed nothing but the stack, from which it
may have taken its operands, and the output if it was to print.

* **`Does`**: what is true if an action succeeds and what if it fails, with a rule for each action.
* **`Instruction.taken`**: how many values a failed instruction has taken.
* **`Changes`**, **`Spares`**: what an instruction may do if it succeeds, and if it fails.
* **`does_execute`**: every instruction keeps to that; `does_step` says it of steps.
* **`run_spares`**: runs on any code.
-/

namespace StackScript

/-- How many values an operator with two operands has taken off a stack when it fails: both if they
have the wrong types, and the only one if there is only one. -/
def takenByOperator (fault : Fault) (height : Nat) : Nat :=
  match fault with
  | .operandsNotAddable | .operandsNotNumbers => 2
  | _ => if height = 1 then 1 else 0

/-- How many values an instruction has taken off a stack of the given height when it fails. -/
def Instruction.taken (fault : Fault) (height : Nat) : Instruction → Nat
  | equal | greater | less | add | subtract | multiply | divide => takenByOperator fault height
  | negate => if fault = .operandNotNumber then 1 else 0
  | print => if fault = .outputFull then 1 else 0
  | _ => 0

namespace Machine

/-! ## Actions

An action of the machine ends in one of two ways, and there is a condition for each of them. -/

/-- If the action succeeds `done` is true of what it leaves, and if it fails `failed` is. -/
def Does {α : Type} (x : MachineM α) (m : Machine) (done : α → Machine → Prop)
    (failed : Fault → Machine → Prop) : Prop :=
  match x m with
  | .ok a m' => done a m'
  | .error fault m' => failed fault m'

section Does

variable {α β : Type} {x : MachineM α} {f : α → MachineM β} {m : Machine}
  {failed : Fault → Machine → Prop} {c : Chunk}

/-- What holds of an action that succeeds. -/
theorem Does.of_ok {done : α → Machine → Prop} {a : α} {m' : Machine} (h : Does x m done failed)
    (hx : x m = .ok a m') : done a m' := by
  unfold Does at h
  rwa [hx] at h

/-- What holds of an action that fails. -/
theorem Does.of_error {done : α → Machine → Prop} {fault : Fault} {m' : Machine}
    (h : Does x m done failed) (hx : x m = .error fault m') : failed fault m' := by
  unfold Does at h
  rwa [hx] at h

/-- The second action has the conditions, and the first one has to lead to them. -/
theorem Does.bind {done : β → Machine → Prop}
    (h : Does x m (fun a m' => Does (f a) m' done failed) failed) :
    Does (x >>= f) m done failed := by
  unfold Does
  cases hx : x m with
  | ok a m' =>
    rw [bind_of_ok hx]
    exact h.of_ok hx
  | error fault m' =>
    rw [bind_of_error hx]
    exact h.of_error hx

theorem Does.discard {done : Unit → Machine → Prop}
    (h : Does x m (fun _ m' => done () m') failed) : Does (discard x) m done failed := by
  unfold Does
  cases hx : x m with
  | ok a m' =>
    rw [discard_of_ok hx]
    exact h.of_ok hx
  | error fault m' =>
    rw [discard_of_error hx]
    exact h.of_error hx

/-- A push succeeds where there is room. -/
theorem does_push {value : Value} {done : Unit → Machine → Prop}
    (hroom : m.stack.size < maxStack → done () { m with stack := m.stack.push value })
    (hfull : ¬ m.stack.size < maxStack → failed .stackOverflow m) :
    Does (push value) m done failed := by
  unfold Does
  rw [push_apply]
  by_cases h : m.stack.size < maxStack
  · rw [if_pos h]
    exact hroom h
  · rw [if_neg h]
    exact hfull h

/-- A pop succeeds where there is a value. -/
theorem does_pop {done : Value → Machine → Prop}
    (htop : ∀ below value, m.stack = below.push value → done value { m with stack := below })
    (hempty : m.stack = #[] → failed .stackUnderflow m) : Does pop m done failed := by
  unfold Does
  rw [pop_apply]
  cases h : m.stack.back? with
  | none => exact hempty (Array.back?_eq_none_iff.mp h)
  | some value =>
    obtain ⟨below, hbelow⟩ := Array.back?_eq_some_iff.mp h
    have hdone := htop below value hbelow
    rwa [← show m.stack.pop = below by rw [hbelow, Array.pop_push]] at hdone

theorem does_peek {done : Value → Machine → Prop} (htop : ∀ value, done value m)
    (hempty : failed .stackUnderflow m) : Does peek m done failed := by
  unfold Does
  rw [peek_apply]
  cases m.stack.back? with
  | none => exact hempty
  | some value => exact htop value

theorem does_getLocal {slot : UInt8} {done : Value → Machine → Prop}
    (hslot : ∀ value, done value m) (hnone : failed (.invalidSlot slot) m) :
    Does (getLocal slot) m done failed := by
  unfold Does
  rw [getLocal_apply]
  cases m.stack[slot.toNat]? with
  | none => exact hnone
  | some value => exact hslot value

/-- Only globals that have been defined are read. -/
theorem does_getGlobal {name : String} {done : Value → Machine → Prop}
    (hdefined : ∀ value, name ∈ m.globals → done value m)
    (hundefined : failed (.undefinedVariable name) m) : Does (getGlobal name) m done failed := by
  unfold Does
  rw [getGlobal_apply]
  cases h : m.globals[name]? with
  | none => exact hundefined
  | some value =>
    apply hdefined value
    rw [Std.ExtTreeMap.mem_iff_isSome_getElem?, h]
    rfl

/-- A constant is read at an index that the chunk has. -/
theorem does_constantAt {index : UInt8} {done : Value → Machine → Prop}
    (hfound : ∀ value, c.constants[index.toNat]? = some value → done value m)
    (hmissing : c.constants[index.toNat]? = none → failed (.invalidConstant index) m) :
    Does (constantAt c index) m done failed := by
  unfold Does
  rw [constantAt_apply]
  cases h : c.constants[index.toNat]? with
  | none => exact hmissing h
  | some value => exact hfound value h

/-- The name of a global is a constant that is a string. -/
theorem does_nameAt {index : UInt8} {done : String → Machine → Prop}
    (hname : ∀ name, c.constants[index.toNat]? = some (.string name) → done name m)
    (hmissing : c.constants[index.toNat]? = none → failed (.invalidConstant index) m)
    (hother : ∀ typeName, failed (.notAName typeName) m) : Does (nameAt c index) m done failed := by
  refine Does.bind (does_constantAt (fun value hvalue => ?_) hmissing)
  cases value with
  | string name => exact hname name hvalue
  | _ => exact hother _

/-- Printing changes only the output, also if not all of the text is accepted. -/
theorem does_printLine {text : String} {done : Unit → Machine → Prop}
    (hall : ∀ output, done () { m with output := output })
    (hfull : ∀ output, failed .outputFull { m with output := output }) :
    Does (printLine text) m done failed := by
  unfold Does
  rw [printLine_apply]
  by_cases h : (m.output.writeText (text ++ "\n")).1 = true
  · rw [if_pos h]
    exact hall _
  · rw [if_neg h]
    exact hfull _

/-- A jump back changes only the place at which the machine goes on. -/
theorem does_jumpBackward {distance : UInt16} {done : Unit → Machine → Prop}
    (hback : ∀ ip, done () { m with ip := ip }) (hbefore : failed .loopBeforeStart m) :
    Does (jumpBackward distance) m done failed := by
  unfold Does
  rw [jumpBackward_apply]
  by_cases h : distance.toNat ≤ m.ip
  · rw [if_pos h]
    exact hback _
  · rw [if_neg h]
    exact hbefore

/-- An operation on two values changes nothing, and fails if they have the wrong types. -/
def Checks (operation : Value → Value → MachineM Value) : Prop :=
  ∀ a b m, Does (operation a b) m (fun _ m' => m' = m) fun fault m' =>
    m' = m ∧ ∀ height, takenByOperator fault height = 2

/-- Both operands are checked before they are added. -/
theorem checks_addValues : Checks addValues := by
  intro a b m
  cases a <;> cases b <;> first | rfl | exact ⟨rfl, fun _ => rfl⟩

/-- Both operands are checked before anything is computed. -/
theorem checks_onNumbers (operation : Float → Float → Value) : Checks (onNumbers operation) := by
  intro a b m
  cases a <;> cases b <;> first | rfl | exact ⟨rfl, fun _ => rfl⟩

end Does

/-! ## Instructions

What an instruction does to stack and globals when it succeeds, and what is left of them when it
fails. -/

/-- What an instruction may change if it succeeds: the stack does not get too high, no variable is
removed, and one is new only if the instruction defines it. -/
structure Changes (c : Chunk) (i : Instruction) (m m' : Machine) : Prop where
  ip : i.fallsThrough → m'.ip = m.ip
  size_le : m.stack.size ≤ maxStack → m'.stack.size ≤ maxStack
  kept : ∀ name ∈ m.globals, name ∈ m'.globals
  defined : ∀ name ∈ m'.globals, name ∉ m.globals →
    ∃ index, i = .defineGlobal index ∧ c.constants[index.toNat]? = some (.string name)

/-- What a failed instruction leaves: all variables, the output unless it was to print, and the
stack without what it has taken. On a stack that is too high there would be no room for results. -/
structure Spares (i : Instruction) (fault : Fault) (m m' : Machine) : Prop where
  globals : m'.globals = m.globals
  output : i ≠ .print → m'.output = m.output
  stack : m.stack.size ≤ maxStack → ∃ removed, m.stack.toList = m'.stack.toList ++ removed ∧
    removed.length = i.taken fault m.stack.size

section Instructions

variable {c : Chunk} {i : Instruction} {m m' : Machine} {fault : Fault}

/-- Most instructions do not touch the variables. -/
theorem changes_of_globals_eq (hip : i.fallsThrough → m'.ip = m.ip)
    (hsize : m.stack.size ≤ maxStack → m'.stack.size ≤ maxStack)
    (hglobals : m'.globals = m.globals) : Changes c i m m' := by
  refine ⟨hip, hsize, fun name hname => ?_, fun name hname hnew => ?_⟩
  · rwa [hglobals]
  · rw [hglobals] at hname
    exact absurd hname hnew

/-- An instruction that gives a variable a value. -/
theorem changes_of_insert {name : String} {value : Value} (hip : i.fallsThrough → m'.ip = m.ip)
    (hsize : m.stack.size ≤ maxStack → m'.stack.size ≤ maxStack)
    (hglobals : m'.globals = m.globals.insert name value)
    (hname : name ∈ m.globals ∨
      ∃ index, i = .defineGlobal index ∧ c.constants[index.toNat]? = some (.string name)) :
    Changes c i m m' := by
  refine ⟨hip, hsize, fun other hother => ?_, fun other hother hnew => ?_⟩
  · rw [hglobals, Std.ExtTreeMap.mem_insert]
    exact .inr hother
  · rw [hglobals, Std.ExtTreeMap.mem_insert] at hother
    rcases hother with heq | hold
    · obtain rfl := Std.LawfulEqCmp.eq_of_compare heq
      exact hname.resolve_left hnew
    · exact absurd hold hnew

/-- A failure before anything is taken. -/
theorem spares_same (h : i.taken fault m.stack.size = 0) : Spares i fault m m :=
  ⟨rfl, fun _ => rfl, fun _ => ⟨[], (List.append_nil _).symm, h.symm⟩⟩

/-- A failure after the topmost value has been taken. -/
theorem spares_one {below : Array Value} {value : Value} (hstack : m.stack = below.push value)
    (h : i.taken fault m.stack.size = 1) : Spares i fault m { m with stack := below } := by
  refine ⟨rfl, fun _ => rfl, fun _ => ⟨[value], ?_, h.symm⟩⟩
  rw [hstack, Array.toList_push]

/-- A stack below a value is smaller. -/
theorem size_le_of_push {below : Array Value} {value : Value} (hstack : m.stack = below.push value)
    (hsize : m.stack.size ≤ maxStack) : below.size ≤ maxStack := by
  rw [hstack, Array.size_push] at hsize
  omega

/-- An instruction that pushes a value on what it has found. -/
theorem does_pushed {value : Value} (h : i.taken .stackOverflow m.stack.size = 0) :
    Does (push value) m (fun _ => Changes c i m) (fun fault => Spares i fault m) := by
  refine does_push (fun hroom => ?_) fun _ => spares_same h
  refine changes_of_globals_eq (fun _ => rfl) (fun _ => ?_) rfl
  show (m.stack.push value).size ≤ maxStack
  rw [Array.size_push]
  omega

/-- An operator takes both operands and then looks at their types. There is room for the result
where the operands were. -/
theorem does_binary {operation : Value → Value → MachineM Value} (hchecks : Checks operation)
    (htaken : ∀ fault height, i.taken fault height = takenByOperator fault height) :
    Does (binary operation) m (fun _ => Changes c i m) (fun fault => Spares i fault m) := by
  refine Does.bind (does_pop (fun below right hright => ?_) fun hempty => ?_)
  · refine Does.bind (does_pop (fun bottom left hleft => ?_) fun hempty => ?_)
    · have hstack : m.stack.toList = bottom.toList ++ [left, right] := by
        have hbelow : below = bottom.push left := hleft
        simp [hright, hbelow]
      have hheight : bottom.size + 2 = m.stack.size := by
        have := congrArg List.length hstack
        simpa using this.symm
      have hoperation := hchecks left right { m with stack := bottom }
      refine Does.bind ?_
      unfold Does
      cases hresult : operation left right { m with stack := bottom } with
      | ok value m₁ =>
        obtain rfl := hoperation.of_ok hresult
        -- the stack is shorter than before, so that the result fits
        refine does_push (fun _ => changes_of_globals_eq (fun _ => rfl) (fun hsize => ?_) rfl)
          fun hfull => ⟨rfl, fun _ => rfl, fun hsize => ?_⟩
        · show (bottom.push value).size ≤ maxStack
          rw [Array.size_push]
          omega
        · exact absurd (show bottom.size < maxStack by omega) hfull
      | error fault m₁ =>
        obtain ⟨rfl, htwo⟩ := hoperation.of_error hresult
        refine ⟨rfl, fun _ => rfl, fun _ => ⟨[left, right], hstack, ?_⟩⟩
        rw [htaken, htwo]
        rfl
    · -- the only value has been taken
      have hbelow : below = #[] := hempty
      refine spares_one hright ?_
      rw [htaken, hright, hbelow]
      rfl
  · refine spares_same ?_
    rw [htaken, hempty]
    rfl

/-- The operand is taken only if it is a number. -/
theorem does_negate :
    Does negateTop m (fun _ => Changes c .negate m) (fun fault => Spares .negate fault m) := by
  refine Does.bind (does_pop (fun below value hvalue => ?_) fun _ => spares_same rfl)
  have hheight : below.size + 1 = m.stack.size := by
    rw [hvalue, Array.size_push]
  cases value with
  | number a =>
    refine does_push (fun _ => changes_of_globals_eq (fun _ => rfl) (fun hsize => ?_) rfl)
      fun hfull => ⟨rfl, fun _ => rfl, fun hsize => ?_⟩
    · show (below.push (.number (-a))).size ≤ maxStack
      rw [Array.size_push]
      omega
    · exact absurd (show below.size < maxStack by omega) hfull
  | nil => exact spares_one hvalue rfl
  | bool b => exact spares_one hvalue rfl
  | string text => exact spares_one hvalue rfl
  | function value => exact spares_one hvalue rfl

/-- What every instruction does. -/
theorem does_execute (i : Instruction) :
    Does (execute c i) m (fun _ => Changes c i m) (fun fault => Spares i fault m) := by
  cases i with
  | constant index =>
    exact Does.bind (does_constantAt (fun _ _ => does_pushed rfl) fun _ => spares_same rfl)
  | nil | true | false => exact does_pushed rfl
  | pop =>
    refine Does.discard (does_pop (fun below value hvalue => ?_) fun _ => spares_same rfl)
    exact changes_of_globals_eq (fun _ => rfl) (size_le_of_push hvalue) rfl
  | getLocal slot => exact Does.bind (does_getLocal (fun _ => does_pushed rfl) (spares_same rfl))
  | setLocal slot =>
    -- a slot that does not exist is found before anything is written
    refine Does.bind (Does.discard (does_getLocal (fun _ => ?_) (spares_same rfl)))
    refine Does.bind (does_peek (fun value => ?_) (spares_same rfl))
    refine changes_of_globals_eq (fun _ => rfl) (fun hsize => ?_) rfl
    show (m.stack.setIfInBounds slot.toNat value).size ≤ maxStack
    rwa [Array.size_setIfInBounds]
  | getGlobal index =>
    refine Does.bind (does_nameAt (fun name _ => ?_) (fun _ => spares_same rfl)
      fun _ => spares_same rfl)
    exact Does.bind (does_getGlobal (fun _ _ => does_pushed rfl) (spares_same rfl))
  | defineGlobal index =>
    -- the name is read before the value is taken, so that a bad name leaves the value there
    refine Does.bind (does_nameAt (fun name hname => ?_) (fun _ => spares_same rfl)
      fun _ => spares_same rfl)
    refine Does.bind (does_pop (fun below value hvalue => ?_) fun _ => spares_same rfl)
    exact changes_of_insert (fun _ => rfl) (size_le_of_push hvalue) rfl (.inr ⟨index, rfl, hname⟩)
  | setGlobal index =>
    -- the variable has been found before it gets its value
    refine Does.bind (does_nameAt (fun name _ => ?_) (fun _ => spares_same rfl)
      fun _ => spares_same rfl)
    refine Does.bind (does_peek (fun value => ?_) (spares_same rfl))
    refine Does.bind (Does.discard (does_getGlobal (fun _ hdefined => ?_) (spares_same rfl)))
    exact changes_of_insert (fun _ => rfl) id rfl (.inl hdefined)
  | equal => exact does_binary (fun _ _ _ => rfl) fun _ _ => rfl
  | greater | less | subtract | multiply | divide =>
    exact does_binary (checks_onNumbers _) fun _ _ => rfl
  | add => exact does_binary checks_addValues fun _ _ => rfl
  | not =>
    refine Does.bind (does_pop (fun below value hvalue => ?_) fun _ => spares_same rfl)
    have hheight : m.stack.size = (below.push (.bool value.isFalsey)).size := by
      rw [hvalue, Array.size_push, Array.size_push]
    refine does_push (fun _ => changes_of_globals_eq (fun _ => rfl) (fun hsize => ?_) rfl)
      fun hfull => ⟨rfl, fun _ => rfl, fun hsize => ?_⟩
    · rwa [hheight] at hsize
    · rw [hheight, Array.size_push] at hsize
      exact absurd hsize hfull
  | negate => exact does_negate
  | print =>
    refine Does.bind (does_pop (fun below value hvalue => ?_) fun _ => spares_same rfl)
    -- the value is gone also if the output is full
    refine does_printLine
      (fun output => changes_of_globals_eq (fun _ => rfl) (size_le_of_push hvalue) rfl)
      fun output => ?_
    have hone : Spares .print .outputFull m { m with stack := below } := spares_one hvalue rfl
    exact ⟨rfl, fun h => absurd rfl h, hone.stack⟩
  | jump distance => exact changes_of_globals_eq (by rintro ⟨⟩) id rfl
  | jumpIfFalse distance =>
    refine Does.bind (does_peek (fun value => ?_) (spares_same rfl))
    by_cases h : value.isFalsey = true
    · rw [if_pos h]
      exact changes_of_globals_eq (by rintro ⟨⟩) id rfl
    · rw [if_neg h]
      exact changes_of_globals_eq (by rintro ⟨⟩) id rfl
  | loop distance =>
    exact does_jumpBackward (fun _ => changes_of_globals_eq (by rintro ⟨⟩) id rfl)
      (spares_same rfl)
  | ret => exact changes_of_globals_eq (fun _ => rfl) id rfl

end Instructions

/-! ## Steps

A step reads an instruction first, which fails without touching stack or globals. -/

/-- The next instruction is to define the variable. -/
def Defines (c : Chunk) (m : Machine) (name : String) : Prop :=
  ∃ index, Instruction.decode c.code m.ip = .ok (.defineGlobal index) ∧
    c.constants[index.toNat]? = some (.string name)

/-- How many values the next instruction has taken when it fails. What cannot be decoded has taken
none. -/
def takenAt (c : Chunk) (m : Machine) (fault : Fault) : Nat :=
  match Instruction.decode c.code m.ip with
  | .ok i => i.taken fault m.stack.size
  | .error _ => 0

/-- No variable is removed from one state to the next, and one is new only if it is defined. -/
structure Advances (c : Chunk) (m next : Machine) : Prop where
  kept : ∀ name ∈ m.globals, name ∈ next.globals
  defined : ∀ name ∈ next.globals, name ∉ m.globals → Defines c m name

/-- A failed instruction has left the variables as they were, the output too unless it was to print,
and the stack but for what it has taken from its top. -/
structure Stops (c : Chunk) (fault : Fault) (m last : Machine) : Prop where
  globals : last.globals = m.globals
  output : Instruction.decode c.code m.ip ≠ .ok .print → last.output = m.output
  stack : ∃ removed, m.stack.toList = last.stack.toList ++ removed ∧
    removed.length = takenAt c m fault

section Steps

variable {c : Chunk} {m m' : Machine}

/-- A step does what its instruction does. -/
theorem does_step_of_execute {i : Instruction} {done : Machine → Prop}
    {failed : Fault → Machine → Prop} (hdecode : Instruction.decode c.code m.ip = .ok i)
    (h : Does (execute c i) (m.past c i) (fun _ => done) failed) :
    Does (step c) m (fun _ => done) failed := by
  have hbind : Does (do execute c i; return progress i) (m.past c i) (fun _ => done) failed :=
    Does.bind h
  unfold Does at hbind ⊢
  rwa [step_of_decode hdecode]

/-- What a step does on any code. -/
theorem does_step (hsize : m.stack.size ≤ maxStack) :
    Does (step c) m (fun _ next => next.stack.size ≤ maxStack ∧ Advances c m next)
      (fun fault => Stops c fault m) := by
  cases hdecode : Instruction.decode c.code m.ip with
  | error e =>
    -- nothing but the line and the place in the code has changed
    obtain ⟨ip, hstep⟩ := step_of_decode_error hdecode
    unfold Does
    rw [hstep]
    refine ⟨rfl, fun _ => rfl, [], (List.append_nil _).symm, ?_⟩
    rw [takenAt, hdecode]
    rfl
  | ok i =>
    have hdoes := does_step_of_execute hdecode (does_execute i)
    unfold Does
    cases hstep : step c m with
    | ok p next =>
      have hchanges := hdoes.of_ok hstep
      refine ⟨hchanges.size_le hsize, hchanges.kept, fun name hname hnew => ?_⟩
      obtain ⟨index, rfl, hconstant⟩ := hchanges.defined name hname hnew
      exact ⟨index, hdecode, hconstant⟩
    | error fault last =>
      have hspares := hdoes.of_error hstep
      obtain ⟨removed, hstack, hlength⟩ := hspares.stack hsize
      refine ⟨hspares.globals, fun hprint => hspares.output ?_, removed, hstack, ?_⟩
      · rintro rfl
        exact hprint hdecode
      · rw [hlength, takenAt, hdecode]
        rfl

/-- The stack stays within its limit. -/
theorem size_le_of_step {p : Progress} (hsize : m.stack.size ≤ maxStack)
    (hstep : step c m = .ok p m') : m'.stack.size ≤ maxStack :=
  ((does_step hsize).of_ok hstep).1

/-- What a step that succeeds has changed. -/
theorem advances_of_step {p : Progress} (hsize : m.stack.size ≤ maxStack)
    (hstep : step c m = .ok p m') : Advances c m m' :=
  ((does_step hsize).of_ok hstep).2

/-- What a step that fails has changed. -/
theorem stops_of_step {fault : Fault} (hsize : m.stack.size ≤ maxStack)
    (hstep : step c m = .error fault m') : Stops c fault m m' :=
  (does_step hsize).of_error hstep

/-- A failure leaves no more on the stack than there was. -/
theorem Stops.size_le {fault : Fault} (h : Stops c fault m m') :
    m'.stack.size ≤ m.stack.size := by
  obtain ⟨removed, hstack, -⟩ := h.stack
  have hlength := congrArg List.length hstack
  rw [List.length_append, Array.length_toList, Array.length_toList] at hlength
  omega

end Steps

/-! ## Runs

From steps to runs, by induction on the number of steps. -/

/-- What is true of a run up to now: the stack is not too high, no variable has been removed, and a
new one has been defined by an instruction that succeeded. -/
structure Ran (c : Chunk) (steps : Nat) (m m' : Machine) : Prop where
  size_le : m'.stack.size ≤ maxStack
  kept : ∀ name ∈ m.globals, name ∈ m'.globals
  defined : ∀ name ∈ m'.globals, name ∉ m.globals →
    ∃ count before p after, count < steps ∧ Reaches c count m before ∧
      step c before = .ok p after ∧ Defines c before name

section Runs

variable {c : Chunk} {m m' next : Machine}

/-- The variable is new after the first step or after the others. -/
theorem Ran.of_step {steps : Nat} (hsize : m.stack.size ≤ maxStack)
    (hstep : step c m = .ok .running next) (h : Ran c steps next m') : Ran c (steps + 1) m m' := by
  have hadvances := advances_of_step hsize hstep
  refine ⟨h.size_le, fun name hname => h.kept name (hadvances.kept name hname),
    fun name hname hnew => ?_⟩
  by_cases hfirst : name ∈ next.globals
  · exact ⟨0, m, .running, next, by omega, rfl, hstep, hadvances.defined name hfirst hnew⟩
  · obtain ⟨count, before, p, after, hcount, hreaches, hlater, hdefines⟩ :=
      h.defined name hname hfirst
    exact ⟨count + 1, before, p, after, by omega, ⟨next, hstep, hreaches⟩, hlater, hdefines⟩

/-- In the induction the stack has to stay within its limit, which every step ensures. -/
theorem ran_runFrom (steps : Nat) (hsize : m.stack.size ≤ maxStack) :
    Ran c steps m (runFrom c steps m).2 := by
  induction steps generalizing m with
  | zero => exact ⟨hsize, fun _ hname => hname, fun _ hname hnew => absurd hname hnew⟩
  | succ steps ih =>
    unfold runFrom
    cases hstep : step c m with
    | error fault last =>
      -- the run ends here, and the failed instruction has left the variables alone
      have hstops := stops_of_step hsize hstep
      refine ⟨Nat.le_trans hstops.size_le hsize, fun name hname => ?_, fun name hname hnew => ?_⟩
      · rwa [show last.globals = m.globals from hstops.globals]
      · rw [show last.globals = m.globals from hstops.globals] at hname
        exact absurd hname hnew
    | ok p next =>
      cases p with
      | running => exact Ran.of_step hsize hstep (ih (size_le_of_step hsize hstep))
      | halted =>
        have hadvances := advances_of_step hsize hstep
        refine ⟨size_le_of_step hsize hstep, hadvances.kept, fun name hname hnew => ?_⟩
        exact ⟨0, m, .halted, next, by omega, rfl, hstep, hadvances.defined name hname hnew⟩

/-- The same without a fault at the end. -/
theorem Reaches.size_le {count : Nat} (h : Reaches c count m m') (hsize : m.stack.size ≤ maxStack) :
    m'.stack.size ≤ maxStack :=
  h.preserves (fun _ _ hsize hstep => size_le_of_step hsize hstep) hsize

/-- **Runs on any code.** However many steps are made, the stack holds at most 16384 values, every
variable is still there, and every new one was defined by an instruction that succeeded. This is
true of the end of a run and of each of its steps, and a step that fails has changed nothing but
what `Stops` says. -/
theorem run_spares (c : Chunk) (m : Machine) :
    (∀ steps,
      (m.run c steps).2.stack.size ≤ 16384 ∧
      (∀ name ∈ m.globals, name ∈ (m.run c steps).2.globals) ∧
      ∀ name ∈ (m.run c steps).2.globals, name ∉ m.globals →
        ∃ count before p after, count < steps ∧ Reaches c count m.reset before ∧
          step c before = .ok p after ∧ Defines c before name) ∧
    ∀ count before, Reaches c count m.reset before →
      before.stack.size ≤ 16384 ∧
      (∀ p after, step c before = .ok p after → Advances c before after) ∧
      ∀ fault last, step c before = .error fault last → Stops c fault before last := by
  have hstart : m.reset.stack.size ≤ maxStack := Nat.zero_le _
  refine ⟨fun steps => ?_, fun count before hreaches => ?_⟩
  · have hran : Ran c steps m.reset (m.run c steps).2 := ran_runFrom steps hstart
    exact ⟨hran.size_le, hran.kept, hran.defined⟩
  · have hsize := hreaches.size_le hstart
    exact ⟨hsize, fun _ _ hstep => advances_of_step hsize hstep,
      fun _ _ hstep => stops_of_step hsize hstep⟩

end Runs

end Machine

end StackScript
