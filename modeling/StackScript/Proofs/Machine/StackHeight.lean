import StackScript.Proofs.Machine.Safety

/-!
# The height of the stack depends on the place in the code

Whenever the machine comes to an instruction of a compiled script its stack has the same height,
however often it has been there and by whichever way it came. No height is above the number of
tokens, so that a short script cannot overflow the stack.

* **`Contained`**: an action does not overflow the stack.
* **`contained_execute`**: an instruction does not, if what it leaves has room.
* **`run_stack_size`**: the heights of a compiled script.
-/

namespace StackScript

/-- A text in parts that reads as an overflow begins like it. -/
theorem Fault.head?_of_overflow {a b c : String} (h : a ++ b ++ c = "Stack overflow.")
    (ha : a ≠ "") : a.toList.head? = some 'S' := by
  have hfirst := congrArg (fun text : String => text.toList.head?) h
  simpa [List.head?_append, ha] using hfirst

/-- No other fault is reported as an overflow. -/
theorem Fault.message_eq_overflow_iff (fault : Fault) :
    fault.message = "Stack overflow." ↔ fault = .stackOverflow := by
  constructor
  · intro h
    cases fault with
    | stackOverflow => rfl
    | unknownOpcode | reservedOpcode | invalidConstant | notAName | invalidSlot
    | undefinedVariable | outputFull =>
      exact absurd (head?_of_overflow h (by decide)) (by decide)
    | _ => exact absurd h (by decide)
  · rintro rfl
    rfl

namespace Machine

open Instruction (located offsets boundaries extent)

/-! ## Actions that do not overflow the stack

Only a push can overflow the stack, so all other actions are contained whatever the state. -/

/-- The action does not overflow the stack, and `post` holds if it succeeds. -/
def Contained {α : Type} (x : MachineM α) (m : Machine) (post : α → Machine → Prop) : Prop :=
  match x m with
  | .ok a m' => post a m'
  | .error fault _ => fault ≠ .stackOverflow

/-- The second action starts where the first has led. -/
theorem Contained.bind {α β : Type} {x : MachineM α} {f : α → MachineM β} {m : Machine}
    {post : α → Machine → Prop} {post' : β → Machine → Prop} (hx : Contained x m post)
    (hf : ∀ a m', post a m' → Contained (f a) m' post') : Contained (x >>= f) m post' := by
  unfold Contained at hx ⊢
  cases h : x m with
  | ok a m' =>
    rw [bind_of_ok h]
    rw [h] at hx
    exact hf a m' hx
  | error fault m' =>
    rw [bind_of_error h]
    rw [h] at hx
    exact hx

theorem Contained.discard {α : Type} {x : MachineM α} {m : Machine} {post : α → Machine → Prop}
    (hx : Contained x m post) : Contained (discard x) m fun _ _ => True := by
  unfold Contained at hx ⊢
  cases h : x m with
  | ok a m' =>
    rw [discard_of_ok h]
    trivial
  | error fault m' =>
    rw [h] at hx
    rw [discard_of_error h]
    exact hx

variable {m : Machine} {chunk : Chunk}

/-- There must be room for one more value. -/
theorem contained_push (value : Value) (h : m.stack.size < maxStack) :
    Contained (push value) m fun _ _ => True := by
  unfold Contained
  rw [push_apply, if_pos h]
  trivial

theorem contained_pop : Contained pop m fun _ m' => m'.stack.size = m.stack.size - 1 := by
  unfold Contained
  rw [pop_apply]
  cases m.stack.back? with
  | none => nofun
  | some value => exact Array.size_pop ..

theorem contained_peek : Contained peek m fun _ m' => m' = m := by
  unfold Contained
  rw [peek_apply]
  cases m.stack.back? with
  | none => nofun
  | some value => rfl

/-- That a slot is missing is another fault. -/
theorem contained_getLocal (slot : UInt8) : Contained (getLocal slot) m fun _ m' => m' = m := by
  unfold Contained
  rw [getLocal_apply]
  cases m.stack[slot.toNat]? with
  | none => nofun
  | some value => rfl

theorem contained_getGlobal (name : String) : Contained (getGlobal name) m fun _ m' => m' = m := by
  unfold Contained
  rw [getGlobal_apply]
  cases m.globals[name]? with
  | none => nofun
  | some value => rfl

theorem contained_constantAt (index : UInt8) :
    Contained (constantAt chunk index) m fun _ m' => m' = m := by
  unfold Contained
  rw [constantAt_apply]
  cases chunk.constants[index.toNat]? with
  | none => nofun
  | some value => rfl

theorem contained_nameAt (index : UInt8) :
    Contained (nameAt chunk index) m fun _ m' => m' = m := by
  apply (contained_constantAt index).bind
  rintro value _ rfl
  cases value with
  | string name => rfl
  | _ => nofun

/-- That the output is full is another fault. -/
theorem contained_printLine (text : String) :
    Contained (printLine text) m fun _ _ => True := by
  unfold Contained
  rw [printLine_apply]
  by_cases h : (m.output.writeText (text ++ "\n")).1 = true
  · rw [if_pos h]
    trivial
  · rw [if_neg h]
    nofun

/-- That a target lies before the start is another fault. -/
theorem contained_jumpBackward (distance : UInt16) :
    Contained (jumpBackward distance) m fun _ _ => True := by
  unfold Contained
  rw [jumpBackward_apply]
  by_cases h : distance.toNat ≤ m.ip
  · rw [if_pos h]
    trivial
  · rw [if_neg h]
    nofun

/-- Values of the wrong type are another fault. -/
theorem contained_addValues (a b : Value) : Contained (addValues a b) m fun _ m' => m' = m := by
  cases a <;> cases b <;> first | rfl | nofun

theorem contained_onNumbers (operation : Float → Float → Value) (a b : Value) :
    Contained (onNumbers operation a b) m fun _ m' => m' = m := by
  cases a <;> cases b <;> first | rfl | nofun

/-- What two values are replaced by has room where they were. -/
theorem contained_binary {operation : Value → Value → MachineM Value}
    (hoperation : ∀ a b m, Contained (operation a b) m fun _ m' => m' = m)
    (h : m.stack.size - 1 ≤ maxStack) : Contained (binary operation) m fun _ _ => True := by
  have hroom : 0 < maxStack := by decide
  apply contained_pop.bind
  intro right m' hright
  apply contained_pop.bind
  intro left m'' hleft
  apply (hoperation left right m'').bind
  rintro value _ rfl
  apply contained_push
  omega

/-- The operand makes room for the result. -/
theorem contained_negateTop (h : m.stack.size ≤ maxStack) :
    Contained negateTop m fun _ _ => True := by
  have hroom : 0 < maxStack := by decide
  apply contained_pop.bind
  intro value m' hpop
  cases value with
  | number a =>
    apply contained_push
    omega
  | _ => nofun

/-- An instruction does not overflow the stack if the height that it leaves is allowed. -/
theorem contained_execute {i : Instruction} (h : i.heightAfter m.stack.size ≤ maxStack) :
    Contained (execute chunk i) m fun _ _ => True := by
  -- only a push can overflow, and the height that the instruction leaves bounds what it pushes onto
  have hroom : 0 < maxStack := by decide
  cases i with
  | constant index =>
    apply (contained_constantAt index).bind
    rintro value _ rfl
    exact contained_push value h
  | nil | true | false => exact contained_push _ h
  | pop => exact contained_pop.discard
  | getLocal slot =>
    apply (contained_getLocal slot).bind
    rintro value _ rfl
    exact contained_push value h
  | setLocal slot =>
    apply (contained_getLocal slot).discard.bind
    intro _ m' _
    apply contained_peek.bind
    intro value m' _
    trivial
  | getGlobal index =>
    apply (contained_nameAt index).bind
    rintro name _ rfl
    apply (contained_getGlobal name).bind
    rintro value _ rfl
    exact contained_push value h
  | defineGlobal index =>
    apply (contained_nameAt index).bind
    intro name m' _
    apply contained_pop.bind
    intro value m' _
    trivial
  | setGlobal index =>
    apply (contained_nameAt index).bind
    intro name m' _
    apply contained_peek.bind
    intro value m' _
    apply (contained_getGlobal name).discard.bind
    intro _ m' _
    trivial
  | equal => exact contained_binary (fun _ _ _ => rfl) h
  | greater | less | subtract | multiply | divide =>
    exact contained_binary (fun a b _ => contained_onNumbers _ a b) h
  | add => exact contained_binary (fun a b _ => contained_addValues a b) h
  | not =>
    apply contained_pop.bind
    intro value m' hpop
    apply contained_push
    -- the value takes the place of the one that was popped
    have hsize : m.stack.size ≤ maxStack := h
    omega
  | negate => exact contained_negateTop h
  | print =>
    apply contained_pop.bind
    intro value m' _
    exact contained_printLine value.display
  | jump distance => trivial
  | jumpIfFalse distance =>
    apply contained_peek.bind
    intro value m' _
    by_cases hfalsey : value.isFalsey = true
    · rw [if_pos hfalsey]
      trivial
    · rw [if_neg hfalsey]
      trivial
  | loop distance => exact contained_jumpBackward distance
  | ret => trivial

/-! ## Scripts

The height at every instruction is bounded by the number of tokens, so a script that is short enough
never fills the stack. -/

open StackScript.Tree Compile

variable {script : Decls} {line : Nat} {height : Nat → Nat}

/-- A standing machine executes the instruction at which it stands. -/
theorem Standing.exists_decode (hm : Standing height (script.program line).ops m) :
    ∃ i, (m.ip, i) ∈ located 0 (script.program line).ops ∧
      Instruction.decode (Chunk.empty.extend (script.program line)).code m.ip = .ok i := by
  obtain ⟨⟨t, i⟩, hi, rfl⟩ := List.mem_map.mp hm.1
  exact ⟨i, hi, (Chunk.assembles_extend_empty (script.program line)).decode hi⟩

/-- Before the first instruction the stack is empty. -/
theorem standing_reset (hstart : height 0 = 0) (m : Machine) :
    Standing height (script.program line).ops m.reset := by
  refine ⟨?_, hstart.symm⟩
  rw [offsets_program]
  exact Instruction.start_mem_boundaries 0 _

/-- The machine stands at its height after every step of a run. -/
theorem standing_of_reaches (hfits : ScriptFits line script)
    (hheights : Heights (fun _ _ => False) script.tokens.length 0 (script.lower [] 0).ops height)
    (hstart : height 0 = 0) {count : Nat} {m' : Machine}
    (h : Reaches (Chunk.empty.extend (script.program line)) count m.reset m') :
    Standing height (script.program line).ops m' := by
  refine h.preserves ?_ (standing_reset hstart m)
  intro before after hbefore hstep
  have hkept := standing_step hfits hheights hbefore
  rw [hstep] at hkept
  exact hkept

/-- A script halts at its return, where the stack has the height of the end of the code. -/
theorem standing_halts
    (hheights : Heights (fun _ _ => False) script.tokens.length 0 (script.lower [] 0).ops height)
    (hm : Standing height (script.program line).ops m) {m' : Machine}
    (h : step (Chunk.empty.extend (script.program line)) m = .ok .halted m') :
    m'.stack.size = height (extent (script.lower [] 0).ops) := by
  obtain ⟨i, hi, hdecode⟩ := hm.exists_decode
  rcases located_program_cases hi with hbody | ⟨hend, rfl⟩
  · -- nothing before the return halts
    have hprogress : progress i = .running := if_neg (hheights.safe _ i hbody).ne_ret
    cases (progress_of_step hdecode h).trans hprogress
  · rw [step_of_decode hdecode] at h
    cases h
    show m.stack.size = _
    rw [hm.2, ← hend]

/-- What an instruction leaves on the stack is the height of another place in the code. -/
theorem heightAfter_le
    (hheights : Heights (fun _ _ => False) script.tokens.length 0 (script.lower [] 0).ops height)
    {t : Nat} {i : Instruction} (hi : (t, i) ∈ located 0 (script.program line).ops) :
    i.heightAfter (height t) ≤ script.tokens.length := by
  rcases located_program_cases hi with hbody | ⟨hend, rfl⟩
  · have hsafe := hheights.safe t i hbody
    obtain ⟨next, hnext⟩ := Instruction.exists_mem_successors hsafe.ne_ret t
    rcases hsafe.leads next hnext with ⟨hboundary, hafter⟩ | hfalse
    · rw [← hafter]
      exact hheights.le_limit next hboundary
    · exact hfalse.elim
  · -- the return leaves what it finds
    show height t ≤ script.tokens.length
    apply hheights.le_limit
    rw [hend, ← Nat.zero_add (extent _)]
    exact Instruction.end_mem_boundaries 0 _

/-- No step overflows the stack if there is room for one value for each token. -/
theorem standing_contained
    (hheights : Heights (fun _ _ => False) script.tokens.length 0 (script.lower [] 0).ops height)
    (hm : Standing height (script.program line).ops m) (hroom : script.tokens.length ≤ maxStack)
    {fault : Fault} {m' : Machine}
    (h : step (Chunk.empty.extend (script.program line)) m = .error fault m') :
    fault ≠ .stackOverflow := by
  obtain ⟨i, hi, hdecode⟩ := hm.exists_decode
  let chunk := Chunk.empty.extend (script.program line)
  have hleft : i.heightAfter (m.past chunk i).stack.size ≤ maxStack := by
    show i.heightAfter m.stack.size ≤ maxStack
    rw [hm.2]
    exact Nat.le_trans (heightAfter_le hheights hi) hroom
  have hstep : Contained (step (Chunk.empty.extend (script.program line))) m fun _ _ => True := by
    unfold Contained
    rw [step_of_decode hdecode]
    exact (contained_execute hleft).bind fun _ _ _ => trivial
  unfold Contained at hstep
  rw [h] at hstep
  exact hstep

/-- **The height of the stack is a function of the place in the code.** Every compiled chunk has
such a function. It is zero at the first instruction and at the return, where the script ends with
an empty stack, and never above the number of tokens; so no loop leaves anything behind, and a
script of at most 16384 tokens does not overflow the stack. -/
theorem run_stack_size {tokens : List Token} {chunk : Chunk}
    (h : (compile tokens).result = .ok chunk) :
    ∃ (ops : List Instruction) (height : Nat → Nat), chunk.instructions = .ok ops ∧
      height 0 = 0 ∧
      (∃ body, ops = body ++ [.ret] ∧ .ret ∉ body ∧ height (extent body) = 0) ∧
      (∀ t ∈ offsets 0 ops, height t ≤ tokens.length) ∧
      ∀ (m : Machine) (steps : Nat),
        match run chunk steps m with
        | (.unfinished, m') => m'.ip ∈ offsets 0 ops ∧ m'.stack.size = height m'.ip
        | (.finished, m') => m'.stack = #[]
        | (.failed e, _) => tokens.length ≤ 16384 → e.fault.message ≠ "Stack overflow." := by
  obtain ⟨script, rest, -, rfl, -, hfits, rfl⟩ := result_compile_eq_ok.mp h
  have hwell := wellFormed_of_fits hfits
  obtain ⟨height, hheights, hstart, hend⟩ := flow_of_fits hfits
  rw [Nat.zero_add] at hend
  have hlength : script.tokens.length ≤ (script.tokens ++ rest).length := by
    rw [List.length_append]
    omega
  refine ⟨_, height, hwell.instructions, hstart, ⟨_, ops_program script _, ?_, hend⟩, ?_, ?_⟩
  -- an instruction that is safe inside the script does not stop the machine
  · intro hret
    obtain ⟨t, ht⟩ := Instruction.exists_located_of_mem hret 0
    exact (hheights.safe t _ ht).ne_ret rfl
  · intro t ht
    rw [offsets_program] at ht
    exact Nat.le_trans (hheights.le_limit t ht) hlength
  · intro m steps
    unfold run
    cases hrun : runFrom (Chunk.empty.extend (script.program (endLine script rest))) steps
        m.reset with
    | mk outcome m' =>
      cases outcome with
      | unfinished => exact standing_of_reaches hfits hheights hstart (reaches_of_unfinished hrun)
      -- the machine halts at the last instruction, where the height is zero
      | finished =>
        obtain ⟨count, before, -, hreaches, hhalts⟩ := reaches_of_finished hrun
        have hstanding := standing_of_reaches hfits hheights hstart hreaches
        have hsize := standing_halts hheights hstanding hhalts
        rw [hend] at hsize
        exact Array.eq_empty_of_size_eq_zero hsize
      -- no instruction that pushes a value stands where the stack is full
      | failed e =>
        obtain ⟨count, before, hreaches, hfails, -⟩ := reaches_of_failed hrun
        have hstanding := standing_of_reaches hfits hheights hstart hreaches
        intro hroom
        rw [ne_eq, Fault.message_eq_overflow_iff]
        exact standing_contained hheights hstanding (Nat.le_trans hlength hroom) hfails

/-- A loop, compiled and run. -/
theorem run_stack_size_while :
    ∃ (chunk : Chunk) (ops : List Instruction) (height : Nat → Nat),
      (compile whileTokens).result = .ok chunk ∧ chunk.instructions = .ok ops ∧
      (∀ t ∈ offsets 0 ops, height t ≤ whileTokens.length) ∧
      ∀ (m : Machine) (steps : Nat),
        match run chunk steps m with
        | (.unfinished, m') => m'.ip ∈ offsets 0 ops ∧ m'.stack.size = height m'.ip
        | (.finished, m') => m'.stack = #[]
        | (.failed e, _) => e.fault.message ≠ "Stack overflow." := by
  obtain ⟨chunk, hchunk⟩ := compile_whileTokens
  obtain ⟨ops, height, hops, -, -, hle, hruns⟩ := run_stack_size hchunk
  refine ⟨chunk, ops, height, hchunk, hops, hle, ?_⟩
  intro m steps
  have hrun := hruns m steps
  revert hrun
  -- the script is short enough not to overflow
  have hshort : whileTokens.length ≤ 16384 := by decide
  split
  · exact id
  · exact id
  · exact fun hfails => hfails hshort

end Machine

end StackScript
