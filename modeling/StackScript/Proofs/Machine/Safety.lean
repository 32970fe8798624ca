import StackScript.Proofs.Compile.WellFormed
import StackScript.Proofs.Machine.Runs

/-!
# Compiled code never faults internally

A fault is internal if only broken code can cause it: the stack runs empty, an operand refers to
nothing, or the machine reads bytes that are no instruction. The others are errors of the script or
limits of the machine.

The invariant is that the machine stands at an instruction and its stack has the height that the
code gives to that offset. A step keeps it because the instruction is safe at this height.

* **`Runs`**: an action succeeds with a result or fails with a fault that is not internal.
* **`runs_execute`**: what one instruction does to the offset and to the height of the stack.
* **`Standing`**: the invariant; `standing_step` says that a step keeps it.
-/

namespace StackScript

/-- Whether a fault is one of the code, and not of the script. -/
def Fault.isInternal : Fault → Bool
  | endOfCode | unknownOpcode _ | reservedOpcode _ | invalidConstant _ | notAName _ | invalidSlot _
  | stackUnderflow | loopBeforeStart => true
  | stackOverflow | undefinedVariable _ | operandsNotAddable | operandsNotNumbers
  | operandNotNumber | outputFull => false

namespace Machine

open Instruction (located offsets)

/-! ## Actions without internal faults

An action that can fail only in ways that the author of a script is to be told about. -/

/-- The action succeeds with what `post` says, or its fault is not internal. -/
def Runs {α : Type} (x : MachineM α) (m : Machine) (post : α → Machine → Prop) : Prop :=
  match x m with
  | .ok a m' => post a m'
  | .error fault _ => fault.isInternal = false

section Runs

variable {α β : Type} {x : MachineM α} {f : α → MachineM β} {m : Machine}
  {post : α → Machine → Prop} {post' : β → Machine → Prop}

/-- The second action starts where the first has led. -/
theorem Runs.bind (hx : Runs x m post) (hf : ∀ a m', post a m' → Runs (f a) m' post') :
    Runs (x >>= f) m post' := by
  unfold Runs at hx ⊢
  cases h : x m with
  | ok a m' =>
    rw [bind_of_ok h]
    rw [h] at hx
    exact hf a m' hx
  | error fault m' =>
    rw [bind_of_error h]
    rw [h] at hx
    exact hx

/-- Less may be said about the state it leads to. -/
theorem Runs.mono (hx : Runs x m post) {post' : α → Machine → Prop}
    (himp : ∀ a m', post a m' → post' a m') : Runs x m post' := by
  unfold Runs at hx ⊢
  cases h : x m with
  | ok a m' =>
    rw [h] at hx
    exact himp a m' hx
  | error fault m' =>
    rw [h] at hx
    exact hx

theorem Runs.discard {post : Machine → Prop} (hx : Runs x m fun _ => post) :
    Runs (discard x) m fun _ => post := by
  unfold Runs at hx ⊢
  cases h : x m with
  | ok a m' =>
    rw [h] at hx
    rw [discard_of_ok h]
    exact hx
  | error fault m' =>
    rw [h] at hx
    rw [discard_of_error h]
    exact hx

end Runs

variable {m : Machine} {chunk : Chunk}

/-- That the stack is full is no internal fault. -/
theorem runs_push (value : Value) :
    Runs (push value) m fun _ m' => m' = { m with stack := m.stack.push value } := by
  unfold Runs
  rw [push_apply]
  by_cases h : m.stack.size < maxStack
  · rw [if_pos h]
  · rw [if_neg h]
    rfl

/-- There is a value on top of a stack that is not empty. -/
theorem back?_isSome {stack : Array Value} (h : 0 < stack.size) :
    ∃ value, stack.back? = some value := by
  rw [Array.back?_eq_getElem?]
  exact ⟨_, Array.getElem?_eq_getElem (by omega)⟩

/-- There must be a value to pop. -/
theorem runs_pop (h : 0 < m.stack.size) :
    Runs pop m fun _ m' => m' = { m with stack := m.stack.pop } := by
  obtain ⟨value, hback⟩ := back?_isSome h
  unfold Runs
  rw [pop_apply, hback]

/-- There must be a value to look at. -/
theorem runs_peek (h : 0 < m.stack.size) : Runs peek m fun _ m' => m' = m := by
  obtain ⟨value, hback⟩ := back?_isSome h
  unfold Runs
  rw [peek_apply, hback]

/-- The slot must be on the stack. -/
theorem runs_getLocal {slot : UInt8} (h : slot.toNat < m.stack.size) :
    Runs (getLocal slot) m fun _ m' => m' = m := by
  unfold Runs
  rw [getLocal_apply, Array.getElem?_eq_getElem h]

/-- That a global is undefined is no internal fault. -/
theorem runs_getGlobal (name : String) : Runs (getGlobal name) m fun _ m' => m' = m := by
  unfold Runs
  rw [getGlobal_apply]
  cases m.globals[name]? with
  | none => rfl
  | some value => rfl

/-- That the output is full is no internal fault. -/
theorem runs_printLine (text : String) :
    Runs (printLine text) m fun _ m' => m'.ip = m.ip ∧ m'.stack = m.stack := by
  unfold Runs
  rw [printLine_apply]
  by_cases h : (m.output.writeText (text ++ "\n")).1 = true
  · rw [if_pos h]
    exact ⟨rfl, rfl⟩
  · rw [if_neg h]
    rfl

/-- The target must not lie before the start. -/
theorem runs_jumpBackward {distance : UInt16} (h : distance.toNat ≤ m.ip) :
    Runs (jumpBackward distance) m fun _ m' => m' = { m with ip := m.ip - distance.toNat } := by
  unfold Runs
  rw [jumpBackward_apply, if_pos h]

/-- The chunk must have the constant. -/
theorem runs_constantAt {index : UInt8} (h : index.toNat < chunk.constants.size) :
    Runs (constantAt chunk index) m fun _ m' => m' = m := by
  unfold Runs
  rw [constantAt_apply, Array.getElem?_eq_getElem h]

/-- The constant must be a string. -/
theorem runs_nameAt {index : UInt8} {name : String}
    (h : chunk.constants[index.toNat]? = some (.string name)) :
    Runs (nameAt chunk index) m fun _ m' => m' = m := by
  unfold Runs
  rw [nameAt_of_string h]

/-- Operands of the wrong type are no internal fault. -/
theorem runs_addValues (a b : Value) : Runs (addValues a b) m fun _ m' => m' = m := by
  cases a <;> cases b <;> rfl

/-- Nor are they for the other operators. -/
theorem runs_onNumbers (operation : Float → Float → Value) (a b : Value) :
    Runs (onNumbers operation a b) m fun _ m' => m' = m := by
  cases a <;> cases b <;> rfl

/-- An operation on two values takes them off the stack and leaves one. -/
theorem runs_binary {operation : Value → Value → MachineM Value}
    (hoperation : ∀ a b m, Runs (operation a b) m fun _ m' => m' = m) (h : 2 ≤ m.stack.size) :
    Runs (binary operation) m fun _ m' => m'.ip = m.ip ∧ m'.stack.size = m.stack.size - 1 := by
  refine (runs_pop (by omega)).bind ?_
  rintro right _ rfl
  refine (runs_pop (by simp; omega)).bind ?_
  rintro left _ rfl
  refine (hoperation left right _).bind ?_
  rintro value _ rfl
  refine (runs_push value).mono ?_
  rintro _ _ rfl
  refine ⟨rfl, ?_⟩
  simp
  omega

/-- There must be an operand. -/
theorem runs_negateTop (h : 1 ≤ m.stack.size) :
    Runs negateTop m fun _ m' => m'.ip = m.ip ∧ m'.stack.size = m.stack.size := by
  refine (runs_pop (by omega)).bind ?_
  rintro value _ rfl
  cases value with
  | number a =>
    refine (runs_push (.number (-a))).mono ?_
    rintro _ _ rfl
    refine ⟨rfl, ?_⟩
    simp
    omega
  | _ => rfl

/-! ## Instructions

An instruction is executed where the height of the stack is one that it is safe at. -/

/-- Where a safe instruction leads, and how high it leaves the stack. -/
theorem runs_execute {target : Nat → Nat → Prop} {offset height : Nat} {i : Instruction}
    (hsafe : i.Safe target offset height)
    (hconstant : ∀ index, i.constant? = some index → index.toNat < chunk.constants.size)
    (hname : ∀ index ∈ i.globalName?, ∃ name, chunk.constants[index.toNat]? = some (.string name))
    (hip : m.ip = offset + i.width) (hsize : m.stack.size = height) :
    Runs (execute chunk i) m fun _ m' =>
      m'.ip ∈ i.successors offset ∧ m'.stack.size = i.heightAfter height := by
  subst hsize
  have hneeds := hsafe.needs_le
  -- most instructions are followed by the next one
  have hnext : ∀ {m' : Machine}, m'.ip = m.ip → m'.ip ∈ [offset + i.width] := by
    intro m' h
    rw [List.mem_singleton, h, hip]
  have hpush : ∀ value, Runs (push value) m fun _ m' =>
      m'.ip ∈ [offset + i.width] ∧ m'.stack.size = m.stack.size + 1 := by
    intro value
    refine (runs_push value).mono ?_
    rintro _ _ rfl
    exact ⟨hnext rfl, Array.size_push value⟩
  cases i with
  | constant index =>
    refine (runs_constantAt (hconstant index rfl)).bind ?_
    rintro value _ rfl
    exact hpush value
  | nil | true | false => exact hpush _
  | pop =>
    refine (Runs.discard (runs_pop hneeds)).mono ?_
    rintro _ _ rfl
    exact ⟨hnext rfl, Array.size_pop ..⟩
  | getLocal slot =>
    refine (runs_getLocal (hsafe.slot_lt slot rfl)).bind ?_
    rintro value _ rfl
    exact hpush value
  | setLocal slot =>
    refine (Runs.discard (runs_getLocal (hsafe.slot_lt slot rfl))).bind ?_
    rintro _ _ rfl
    refine (runs_peek hneeds).bind ?_
    rintro value _ rfl
    exact ⟨hnext rfl, Array.size_setIfInBounds ..⟩
  | getGlobal index =>
    -- the constant is a name, but there may be no such variable
    obtain ⟨name, hstring⟩ := hname index rfl
    refine (runs_nameAt hstring).bind ?_
    rintro name _ rfl
    refine (runs_getGlobal name).bind ?_
    rintro value _ rfl
    exact hpush value
  | defineGlobal index =>
    obtain ⟨name, hstring⟩ := hname index rfl
    refine (runs_nameAt hstring).bind ?_
    rintro name _ rfl
    refine (runs_pop hneeds).bind ?_
    rintro value _ rfl
    exact ⟨hnext rfl, Array.size_pop ..⟩
  | setGlobal index =>
    obtain ⟨name, hstring⟩ := hname index rfl
    refine (runs_nameAt hstring).bind ?_
    rintro name _ rfl
    refine (runs_peek hneeds).bind ?_
    rintro value _ rfl
    refine (Runs.discard (runs_getGlobal name)).bind ?_
    rintro _ _ rfl
    exact ⟨hnext rfl, rfl⟩
  | equal =>
    have hequals : ∀ (a b : Value) (m : Machine),
        Runs (pure (Value.bool (a.equals b))) m fun _ m' => m' = m := fun _ _ _ => rfl
    exact (runs_binary hequals hneeds).mono fun _ _ h => ⟨hnext h.1, h.2⟩
  | greater | less | subtract | multiply | divide =>
    exact (runs_binary (fun a b _ => runs_onNumbers _ a b) hneeds).mono fun _ _ h =>
      ⟨hnext h.1, h.2⟩
  | add =>
    exact (runs_binary (fun a b _ => runs_addValues a b) hneeds).mono fun _ _ h =>
      ⟨hnext h.1, h.2⟩
  | not =>
    refine (runs_pop hneeds).bind ?_
    rintro value _ rfl
    refine (runs_push _).mono ?_
    rintro _ _ rfl
    refine ⟨hnext rfl, ?_⟩
    have hsize : (m.stack.pop.push (.bool value.isFalsey)).size = m.stack.size - 1 + 1 := by simp
    exact hsize.trans (Nat.sub_add_cancel hneeds)
  | negate => exact (runs_negateTop hneeds).mono fun _ _ h => ⟨hnext h.1, h.2⟩
  | print =>
    refine (runs_pop hneeds).bind ?_
    rintro value _ rfl
    refine (runs_printLine value.display).mono ?_
    rintro _ m' ⟨hip, hstack⟩
    exact ⟨hnext hip, by rw [hstack]; exact Array.size_pop ..⟩
  | jump distance => exact ⟨List.mem_singleton.mpr (congrArg (· + distance.toNat) hip), rfl⟩
  | jumpIfFalse distance =>
    -- both ways are successors
    refine (runs_peek hneeds).bind ?_
    rintro value _ rfl
    by_cases h : value.isFalsey = true
    · rw [if_pos h]
      have hover := congrArg (· + distance.toNat) hip
      exact ⟨List.mem_cons_of_mem _ (List.mem_singleton.mpr hover), rfl⟩
    · rw [if_neg h]
      exact ⟨List.mem_cons.mpr (.inl hip), rfl⟩
  | loop distance =>
    -- a safe instruction does not lead back beyond the start
    refine (runs_jumpBackward (by rw [hip]; exact hsafe.leadsBack.2)).mono ?_
    rintro _ _ rfl
    exact ⟨List.mem_singleton.mpr (congrArg (· - distance.toNat) hip), rfl⟩
  | ret => exact absurd rfl hsafe.ne_ret

/-! ## Scripts

The machine stands at the start of an instruction, with the height that belongs to it. Every step
leads from one such state to another. -/

open StackScript.Tree Compile

/-- The machine stands at an instruction of the script, with a stack of the height that belongs to
its offset. -/
def Standing (height : Nat → Nat) (ops : List Instruction) (m : Machine) : Prop :=
  m.ip ∈ offsets 0 ops ∧ m.stack.size = height m.ip

/-- A step keeps the invariant and has no internal fault. -/
theorem standing_step {script : Decls} {line : Nat} {height : Nat → Nat}
    (hfits : ScriptFits line script)
    (hheights : Heights (fun _ _ => False) script.tokens.length 0 (script.lower [] 0).ops height)
    (hm : Standing height (script.program line).ops m) :
    match step (Chunk.empty.extend (script.program line)) m with
    | .ok .running m' => Standing height (script.program line).ops m'
    | .ok .halted _ => True
    | .error fault _ => fault.isInternal = false := by
  obtain ⟨hip, hsize⟩ := hm
  obtain ⟨⟨t, i⟩, hi, rfl⟩ := List.mem_map.mp hip
  have hdecode := (Chunk.assembles_extend_empty (script.program line)).decode hi
  rw [step_of_decode hdecode]
  rcases located_program_cases hi with hbody | ⟨-, rfl⟩
  · have hsafe := hheights.safe _ i hbody
    have hwell := wellFormed_of_fits hfits
    have hops := Instruction.mem_of_located hi
    have hconstant : ∀ index, i.constant? = some index →
        index.toNat < (Chunk.empty.extend (script.program line)).constants.size := by
      intro index hindex
      have hmem := hwell.constants.mem_iff.mp (Instruction.mem_constantIndices hops hindex)
      exact List.mem_range.mp hmem
    let chunk := Chunk.empty.extend (script.program line)
    have hruns := runs_execute hsafe hconstant (hwell.names i hops) (m := m.past chunk i) rfl hsize
    unfold Runs at hruns
    cases hexecute : execute chunk i (m.past chunk i) with
    | error fault m' =>
      rw [hexecute] at hruns
      rw [bind_of_error hexecute]
      exact hruns
    | ok _ m' =>
      rw [hexecute] at hruns
      obtain ⟨hnext, hheight⟩ := hruns
      have hprogress : progress i = .running := if_neg hsafe.ne_ret
      rw [bind_of_ok hexecute, hprogress]
      -- what the instruction leads to has the height that it leaves
      rcases hsafe.leads _ hnext with ⟨hboundary, hafter⟩ | hfalse
      · refine ⟨?_, hheight.trans hafter.symm⟩
        rwa [offsets_program]
      · exact hfalse.elim
  -- the return ends the run
  · trivial

/-- **Compiled code has no internal faults.** Whatever variables there are at the start, and however
many steps are taken, the machine stands at an instruction as long as it runs, and if it fails then
because of the script. -/
theorem run_standing {tokens : List Token} {chunk : Chunk}
    (h : (compile tokens).result = .ok chunk) :
    ∃ ops, chunk.instructions = .ok ops ∧ ∀ (m : Machine) (steps : Nat),
      match run chunk steps m with
      | (.unfinished, m') => m'.ip ∈ offsets 0 ops
      | (.failed e, _) => e.fault.isInternal = false
      | (.finished, _) => True := by
  obtain ⟨script, rest, -, -, -, hfits, rfl⟩ := result_compile_eq_ok.mp h
  have hwell := wellFormed_of_fits hfits
  obtain ⟨height, hheights, hstart, -⟩ := flow_of_fits hfits
  refine ⟨_, hwell.instructions, ?_⟩
  intro m steps
  have hreset : Standing height (script.program (endLine script rest)).ops m.reset := by
    refine ⟨?_, hstart.symm⟩
    rw [offsets_program]
    exact Instruction.start_mem_boundaries 0 _
  -- every step leads from a state in which the machine stands at an instruction to another one
  have hkeep : ∀ count m', Reaches (Chunk.empty.extend (script.program (endLine script rest))) count
      m.reset m' → Standing height (script.program (endLine script rest)).ops m' := by
    intro count m' hreaches
    refine hreaches.preserves ?_ hreset
    intro before after hbefore hstep
    have := standing_step hfits hheights hbefore
    rw [hstep] at this
    exact this
  unfold run
  cases hrun : runFrom (Chunk.empty.extend (script.program (endLine script rest))) steps
      m.reset with
  | mk outcome m' =>
    cases outcome with
    | finished => trivial
    | unfinished => exact (hkeep steps m' (reaches_of_unfinished hrun)).1
    | failed e =>
      -- before the step that fails the machine stood at an instruction
      obtain ⟨count, before, hreaches, hfails, -⟩ := reaches_of_failed hrun
      have := standing_step hfits hheights (hkeep count before hreaches)
      rw [hfails] at this
      exact this

/-- A loop, compiled and run. -/
theorem run_standing_while :
    ∃ chunk ops, (compile whileTokens).result = .ok chunk ∧ chunk.instructions = .ok ops ∧
      ∀ (m : Machine) (steps : Nat),
        match run chunk steps m with
        | (.unfinished, m') => m'.ip ∈ offsets 0 ops
        | (.failed e, _) => e.fault.isInternal = false
        | (.finished, _) => True := by
  obtain ⟨chunk, hchunk⟩ := compile_whileTokens
  obtain ⟨ops, hops, hruns⟩ := run_standing hchunk
  exact ⟨chunk, ops, hchunk, hops, hruns⟩

end Machine

end StackScript
