import StackScript.Proofs.Machine.StackHeight
import StackScript.Proofs.Machine.Surroundings
import StackScript.Proofs.Tree.Relocation

/-!
# Running code in other places

The machine runs the code of a script further on in a longer chunk as it runs the chunk of the
script alone. It only stands at other offsets, and its errors are on other lines.

* **`shift`**: the machine further on in the code, which is a change of its surroundings.
* **`commutes_execute`**: an instruction that is moved does the same there, jumps back apart.
* **`step_shift`**: a step of the longer chunk.
* **`runFrom_body`**: a run up to the return of the script.
* **`runFrom_program`**: a run of the whole script.
-/

namespace StackScript

/-- The error some lines further down. -/
def RuntimeError.later (lines : Nat) (e : RuntimeError) : RuntimeError :=
  { e with line := e.line + lines }

namespace Machine

/-- The machine some bytes further on in the code, and some lines further down. -/
def shift (bytes lines : Nat) (m : Machine) : Machine :=
  { m with ip := m.ip + bytes, line := m.line + lines }

instance (bytes lines : Nat) : Echoes (shift bytes lines) where
  stack _ := rfl
  globals _ := rfl
  setStack _ _ := rfl
  setGlobals _ _ := rfl
  goForward m distance := by
    unfold shift
    rw [Nat.add_right_comm]
  output _ := rfl
  setOutput _ _ := rfl

/-! ## Instructions

Further on in a code an instruction finds its constant at another index. Only a jump back depends on
how far from the start it is. -/

variable {c c' : Chunk} {bytes lines count : Nat}

/-- The same constant at another index. -/
theorem commutes_constantAt {index index' : UInt8} {value : Value}
    (h : c.constants[index.toNat]? = some value) (h' : c'.constants[index'.toNat]? = some value) :
    Commutes (shift bytes lines) (constantAt c index) (constantAt c' index') := by
  intro m
  rw [constantAt_apply, constantAt_apply, h, h']
  rfl

/-- The same name at another index. -/
theorem commutes_nameAt {index index' : UInt8} {value : Value}
    (h : c.constants[index.toNat]? = some value) (h' : c'.constants[index'.toNat]? = some value) :
    Commutes (shift bytes lines) (nameAt c index) (nameAt c' index') := by
  apply (commutes_constantAt h h').bind
  intro name m
  cases name <;> rfl

/-- An instruction does after more constants what it does alone, if it finds its own constant. Only
a jump back depends on how far from the start it is. -/
theorem commutes_execute {i : Instruction} (hloop : ∀ distance, i ≠ .loop distance)
    (hconstant : ∀ index, i.constant? = some index →
      ∃ value, c.constants[index.toNat]? = some value ∧
        c'.constants[(index + count.toUInt8).toNat]? = some value) :
    Commutes (shift bytes lines) (execute c i) (execute c' (i.moved count)) := by
  cases i with
  | constant index =>
    -- the moved index finds the same value in the pool of the longer script
    obtain ⟨value, h, h'⟩ := hconstant index rfl
    exact (commutes_constantAt h h').bind commutes_push
  | nil | true | false => exact commutes_push _
  | pop => exact commutes_pop.discard
  | getLocal slot => exact (commutes_getLocal slot).bind commutes_push
  | setLocal slot =>
    apply (commutes_getLocal slot).discard.bind
    intro _
    exact commutes_peek.bind (commutes_setLocal slot)
  | getGlobal index =>
    obtain ⟨value, h, h'⟩ := hconstant index rfl
    apply (commutes_nameAt h h').bind
    intro name
    exact (commutes_getGlobal name).bind commutes_push
  | defineGlobal index =>
    obtain ⟨value, h, h'⟩ := hconstant index rfl
    apply (commutes_nameAt h h').bind
    intro name
    exact commutes_pop.bind (commutes_defineGlobal name)
  | setGlobal index =>
    obtain ⟨value, h, h'⟩ := hconstant index rfl
    apply (commutes_nameAt h h').bind
    intro name
    apply commutes_peek.bind
    intro value
    apply (commutes_getGlobal name).discard.bind
    intro _
    exact commutes_defineGlobal name value
  | equal => exact commutes_binary fun _ _ => commutes_pure _
  | greater | less | subtract | multiply | divide => exact commutes_binary (commutes_onNumbers _)
  | add => exact commutes_binary commutes_addValues
  | not => exact commutes_pop.bind fun _ => commutes_push _
  | negate => exact commutes_negateTop
  | print => exact commutes_pop.bind fun value => commutes_printLine value.display
  | jump distance => exact commutes_jumpForward distance
  | jumpIfFalse distance =>
    apply commutes_peek.bind
    intro value
    by_cases h : value.isFalsey = true
    · rw [if_pos h]
      exact commutes_jumpForward distance
    · rw [if_neg h]
      exact commutes_pure ()
  | loop distance => exact absurd rfl (hloop distance)
  | ret => exact commutes_pure ()

/-- A jump back that does not lead to before the start of the code leads as far back. -/
theorem jumpBackward_shift {distance : UInt16} {m : Machine} (h : distance.toNat ≤ m.ip) :
    jumpBackward distance (m.shift bytes lines) =
      recast (shift bytes lines) (jumpBackward distance m) := by
  have hip : (m.shift bytes lines).ip = m.ip + bytes := rfl
  rw [jumpBackward_apply, jumpBackward_apply, if_pos h, if_pos (by omega)]
  show EStateM.Result.ok () { m with ip := m.ip + bytes - distance.toNat, line := m.line + lines } =
    .ok () { m with ip := m.ip - distance.toNat + bytes, line := m.line + lines }
  rw [Nat.sub_add_comm h]

/-- The state in which an instruction on the given line is executed. -/
def started (m : Machine) (i : Instruction) (line : Nat) : Machine :=
  { m with ip := m.ip + i.width, line := line }

/-- An instruction and its copy, after they were read. -/
theorem execute_shift {i : Instruction} {m : Machine} (line : Nat) (hback : i.LeadsBack m.ip)
    (hconstant : ∀ index, i.constant? = some index →
      ∃ value, c.constants[index.toNat]? = some value ∧
        c'.constants[(index + count.toUInt8).toNat]? = some value) :
    execute c' (i.moved count) ((m.started i line).shift bytes lines) =
      recast (shift bytes lines) (execute c i (m.started i line)) := by
  by_cases hloop : ∃ distance, i = .loop distance
  · obtain ⟨distance, rfl⟩ := hloop
    exact jumpBackward_shift hback.2
  · exact commutes_execute (fun distance h => hloop ⟨distance, h⟩) hconstant (m.started i line)

/-- Reading the copy of an instruction. -/
theorem past_shift (count : Nat) (i : Instruction) {m : Machine} {line : Nat}
    (hline : c'.line (m.ip + bytes) = line + lines) :
    (m.shift bytes lines).past c' (i.moved count) = (m.started i line).shift bytes lines := by
  unfold past atLine started shift
  rw [Instruction.width_moved, Nat.add_right_comm]
  show ({ m with ip := _, line := c'.line (m.ip + bytes) } : Machine) = _
  rw [hline]

/-- A step at an instruction that has been moved, in terms of the instruction itself. -/
theorem step_moved {i : Instruction} {m : Machine} {line : Nat}
    (hdecode' : Instruction.decode c'.code (m.ip + bytes) = .ok (i.moved count))
    (hline : c'.line (m.ip + bytes) = line + lines) (hback : i.LeadsBack m.ip)
    (hconstant : ∀ index, i.constant? = some index →
      ∃ value, c.constants[index.toNat]? = some value ∧
        c'.constants[(index + count.toUInt8).toNat]? = some value) :
    step c' (m.shift bytes lines) =
      recast (shift bytes lines) ((do execute c i; return progress i) (m.started i line)) := by
  have hprogress : progress (i.moved count) = progress i := by
    cases i <;> rfl
  have hexecute : execute c' (i.moved count) ((m.started i line).shift bytes lines) =
      recast (shift bytes lines) (execute c i (m.started i line)) :=
    execute_shift line hback hconstant
  rw [step_of_decode (m := m.shift bytes lines) hdecode', past_shift count i hline, hprogress]
  cases h : execute c i (m.started i line) with
  | ok _ m' =>
    rw [h] at hexecute
    rw [bind_of_ok h, bind_of_ok hexecute]
    rfl
  | error fault m' =>
    rw [h] at hexecute
    rw [bind_of_error h, bind_of_error hexecute]
    rfl

/-- A step in the longer chunk is a step of the chunk. -/
theorem step_shift {i : Instruction} {m : Machine}
    (hdecode : Instruction.decode c.code m.ip = .ok i)
    (hdecode' : Instruction.decode c'.code (m.ip + bytes) = .ok (i.moved count))
    (hline : c'.line (m.ip + bytes) = c.line m.ip + lines) (hback : i.LeadsBack m.ip)
    (hconstant : ∀ index, i.constant? = some index →
      ∃ value, c.constants[index.toNat]? = some value ∧
        c'.constants[(index + count.toUInt8).toNat]? = some value) :
    step c' (m.shift bytes lines) = recast (shift bytes lines) (step c m) := by
  rw [step_of_decode hdecode]
  exact step_moved hdecode' hline hback hconstant

/-! ## Scripts

The code of a script that is moved behind other code, with its constants behind other constants and
its lines behind other lines. -/

open Instruction (located extent)
open StackScript.Tree Compile

/-- Where an instruction of a piece of code is decoded if the code is moved, and its line. -/
theorem decode_moved {body : Lowering} {t : Nat} {i : Instruction}
    (hcode : c.CodeAt 0 body.code) (hcode' : c'.CodeAt bytes (body.moved count lines).code)
    (hi : (t, i) ∈ located 0 body.ops) :
    Instruction.decode c.code t = .ok i ∧
      Instruction.decode c'.code (t + bytes) = .ok (i.moved count) ∧
      c'.line (t + bytes) = c.line t + lines := by
  obtain ⟨before, line, after, hbody, hsize⟩ := Instruction.exists_append_of_located hi
  rw [Nat.zero_add] at hsize
  have hsize' : (Lowering.mk before [] []).size = t := hsize
  have hat : c.CodeAt t ((i, line) :: after) := by
    rw [hbody] at hcode
    rw [← hsize, ← Nat.zero_add (Lowering.codeSize before)]
    exact hcode.right
  have hat' : c'.CodeAt (t + bytes) ((i.moved count, line + lines) ::
      after.map fun i => (i.1.moved count, i.2 + lines)) := by
    unfold Lowering.moved at hcode'
    rw [hbody, List.map_append] at hcode'
    rw [← hsize', ← Lowering.size_moved count lines, Nat.add_comm]
    exact hcode'.right
  exact ⟨hat.decode, hat'.decode, by rw [hat.line, hat'.line]⟩

/-- Moved code finds the constants that the code finds. -/
theorem constants_moved {body : Lowering} (hpooled : body.Pooled 0)
    (hconstants : c.ConstantsAt 0 body.constants)
    (hconstants' : c'.ConstantsAt count body.constants)
    (hroom : count + body.constants.length ≤ Chunk.maxConstants) {i : Instruction}
    (hi : i ∈ body.ops) (index : UInt8) (hindex : i.constant? = some index) :
    ∃ value, c.constants[index.toNat]? = some value ∧
      c'.constants[(index + count.toUInt8).toNat]? = some value := by
  obtain ⟨-, hlt⟩ := hpooled.bounds hi hindex
  rw [Nat.zero_add] at hlt
  -- the index does not overflow, because the pool is not too large
  have hadd : (index + count.toUInt8).toNat = count + index.toNat := by
    have hmax : Chunk.maxConstants = 256 := rfl
    rw [UInt8.toNat_add, toNat_toUInt8 (by omega)]
    omega
  have hfound := hconstants.getElem?_add hlt
  rw [Nat.zero_add] at hfound
  refine ⟨body.constants[index.toNat], ?_, ?_⟩
  · rw [hfound, List.getElem?_eq_getElem hlt]
  · rw [hadd, hconstants'.getElem?_add hlt, List.getElem?_eq_getElem hlt]

variable {script : Decls} {line : Nat} {height : Nat → Nat}

/-- A chunk holds the code of a script before its return, and its constants, further on. -/
structure Carries (c : Chunk) (bytes count lines : Nat) (script : Decls) : Prop where
  holds : c.Holds bytes count ((script.lower [] 0).moved count lines)
  room : count + (script.lower [] 0).constants.length ≤ Chunk.maxConstants

/-- Before the return, a step of the script is also a step further on in the longer chunk. -/
theorem step_body (hcarries : Carries c bytes count lines script) (hfits : ScriptFits line script)
    (hheights : Heights (fun _ _ => False) script.tokens.length 0 (script.lower [] 0).ops height)
    {m : Machine} {i : Instruction} (hi : (m.ip, i) ∈ located 0 (script.lower [] 0).ops) :
    step c (m.shift bytes lines) =
        recast (shift bytes lines) (step (Chunk.empty.extend (script.program line)) m) ∧
      c.line (m.shift bytes lines).ip =
        (Chunk.empty.extend (script.program line)).line m.ip + lines ∧
      ∀ m', step (Chunk.empty.extend (script.program line)) m ≠ .ok .halted m' := by
  have hholds := (Chunk.holds_extend_empty (script.program line)).left
  obtain ⟨hdecode, hdecode', hline⟩ := decode_moved hholds.code hcarries.holds.code hi
  have hsafe := hheights.safe _ i hi
  have hlimits := hfits.2
  rw [Decls.program, Lowering.limits_append_instruction] at hlimits
  have hconstant := constants_moved (script.pooled hlimits) hholds.constants
    hcarries.holds.constants hcarries.room (Instruction.mem_of_located hi)
  refine ⟨step_shift hdecode hdecode' hline hsafe.leadsBack hconstant, hline, ?_⟩
  intro m' hhalts
  have hprogress : progress i = .running := if_neg hsafe.ne_ret
  cases (progress_of_step hdecode hhalts).trans hprogress

/-- Where a standing machine is: before the return, or at it. -/
theorem Standing.cases {m : Machine} (hm : Standing height (script.program line).ops m) :
    (∃ i, (m.ip, i) ∈ located 0 (script.lower [] 0).ops) ∨
      m.ip = (script.lower [] 0).size ∧ m.stack.size = height (script.lower [] 0).size ∧
        step (Chunk.empty.extend (script.program line)) m =
          .ok .halted (m.past (Chunk.empty.extend (script.program line)) .ret) := by
  obtain ⟨i, hi, hdecode⟩ := hm.exists_decode
  rcases located_program_cases hi with hbody | ⟨hend, rfl⟩
  · exact .inl ⟨i, hbody⟩
  · rw [Lowering.extent_ops] at hend
    exact .inr ⟨hend, by rw [hm.2, ← hend], step_of_decode hdecode⟩

/-- The return of a script is on the line that it is given. -/
theorem line_of_ret (script : Decls) (line : Nat) :
    (Chunk.empty.extend (script.program line)).line (script.lower [] 0).size = line := by
  have hret := (Chunk.holds_extend_empty (script.program line)).right.code
  rw [Nat.zero_add] at hret
  exact hret.line

/-- A run of a script is a run further on in the longer chunk. Where the script is finished, the
longer chunk stands after its code, with the same values. -/
theorem runFrom_body (hcarries : Carries c bytes count lines script)
    (hfits : ScriptFits line script)
    (hheights : Heights (fun _ _ => False) script.tokens.length 0 (script.lower [] 0).ops height)
    (steps : Nat) {m : Machine} (hm : Standing height (script.program line).ops m) :
    match runFrom (Chunk.empty.extend (script.program line)) steps m with
    | (.finished, m') =>
      m'.ip = (script.lower [] 0).size + 1 ∧ m'.line = line ∧
        m'.stack.size = height (script.lower [] 0).size ∧
        ∃ taken last, taken < steps ∧
          Reaches c taken (m.shift bytes lines)
            { m' with ip := (script.lower [] 0).size + bytes, line := last }
    | (outcome, m') =>
      runFrom c steps (m.shift bytes lines) =
        (outcome.mapError (RuntimeError.later lines), m'.shift bytes lines) := by
  induction steps generalizing m with
  | zero => rfl
  | succ steps ih =>
    rcases hm.cases with ⟨i, hi⟩ | ⟨hend, hsize, hhalts⟩
    · obtain ⟨hstep, hline, hgoes⟩ := step_body hcarries hfits hheights hi
      have hkept := standing_step hfits hheights hm
      cases hown : step (Chunk.empty.extend (script.program line)) m with
      | error fault m' =>
        rw [hown] at hstep
        rw [runFrom_of_fault hown, runFrom_of_fault hstep, hline]
        rfl
      | ok progress next =>
        cases progress with
        | halted => exact absurd hown (hgoes next)
        | running =>
          rw [hown] at hstep hkept
          have hrest := ih hkept
          rw [runFrom_of_step hown]
          -- the longer chunk takes the same step and then follows the rest of the run
          cases hrun : runFrom (Chunk.empty.extend (script.program line)) steps next with
          | mk outcome m' =>
            rw [hrun] at hrest
            cases outcome with
            | finished =>
              obtain ⟨hip, hreturn, hsize, taken, last, htaken, hreaches⟩ := hrest
              exact ⟨hip, hreturn, hsize, taken + 1, last, by omega, _, hstep, hreaches⟩
            | failed e | unfinished =>
              rw [runFrom_of_step hstep]
              exact hrest
    · rw [runFrom_of_halt hhalts]
      have hreturn : (Chunk.empty.extend (script.program line)).line m.ip = line := by
        rw [hend, line_of_ret]
      refine ⟨congrArg (· + 1) hend, hreturn, hsize, 0, m.line + lines, by omega, ?_⟩
      show m.shift bytes lines = { m with ip := _, line := _ }
      unfold shift
      rw [hend]

/-- A run of a whole script is a run further on in a chunk that holds its return as well. -/
theorem runFrom_program (hholds : c.Holds bytes count ((script.program line).moved count lines))
    (hroom : count + (script.lower [] 0).constants.length ≤ Chunk.maxConstants)
    (hfits : ScriptFits line script)
    (hheights : Heights (fun _ _ => False) script.tokens.length 0 (script.lower [] 0).ops height)
    (steps : Nat) {m : Machine} (hm : Standing height (script.program line).ops m) :
    runFrom c steps (m.shift bytes lines) =
      ((runFrom (Chunk.empty.extend (script.program line)) steps m).1.mapError
          (RuntimeError.later lines),
        (runFrom (Chunk.empty.extend (script.program line)) steps m).2.shift bytes lines) := by
  rw [Decls.program, Lowering.moved_append] at hholds
  have hbody := runFrom_body ⟨hholds.left, hroom⟩ hfits hheights steps hm
  cases hrun : runFrom (Chunk.empty.extend (script.program line)) steps m with
  | mk outcome m' =>
    rw [hrun] at hbody
    cases outcome with
    | failed e | unfinished => exact hbody
    | finished =>
      -- the body ends at the return, which the longer chunk holds as well
      obtain ⟨hip, hreturn, -, taken, last, htaken, hreaches⟩ := hbody
      have hret := hholds.right.code
      rw [Lowering.size_moved, Nat.add_comm] at hret
      have hhalts := step_of_decode
        (m := { m' with ip := (script.lower [] 0).size + bytes, line := last }) hret.decode
      obtain ⟨more, rfl⟩ : ∃ more, steps = taken + (more + 1) := ⟨steps - taken - 1, by omega⟩
      rw [hreaches.runFrom_eq, runFrom_of_halt hhalts]
      show (Outcome.finished, { m' with
          ip := (script.lower [] 0).size + bytes + 1
          line := c.line ((script.lower [] 0).size + bytes) }) =
        (Outcome.finished, { m' with ip := m'.ip + bytes, line := m'.line + lines })
      rw [hip, hreturn, hret.line, Nat.add_right_comm]

end Machine

end StackScript
