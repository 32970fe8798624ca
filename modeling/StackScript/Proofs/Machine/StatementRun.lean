import StackScript.Proofs.Machine.ExpressionRun
import StackScript.Proofs.Tree.CodeFlow

/-!
# Running the code of a statement

The machine follows the execution of a statement through its code. A local that is declared stays
where its value is, and when its block ends it is dropped from the stack.

* **`follows_declare`**, **`follows_inBlock`**: declarations and blocks.
* **`follows_rounds`**: loops. By induction on the fuel; every round takes at least one step, so a
  loop that runs out of fuel has taken as many.
* **`follows_stmt`**, **`follows_decls`**: statements, by induction.
-/

namespace StackScript.Machine

open StackScript.Tree
open Lowering (instruction instructions pool jump)

/-- The machine is at an offset and holds nothing back. -/
def Ends (blocks : Blocks) (offset : Nat) (s : Store) (m : Machine) : Prop :=
  s.blocks = blocks ∧ Matches offset [] s m

variable {chunk : Chunk} {fuel offset line base : Nat} {held : List Value} {s : Store} {m : Machine}
  {blocks : Blocks}

/-! ## Simple statements

Between statements the machine holds no values but those of the locals. -/

/-- A value that is not used is dropped. -/
theorem follows_discarded (hblocks : blocks.flatten.length ≤ Compile.Scope.maxLocals)
    (hs : s.blocks = blocks) {e : Expr}
    (hholds : chunk.Holds offset base (e.lower blocks.flatten base ++ instruction .pop line))
    (hlimits : (e.lower blocks.flatten base).Limits base) (hm : Matches offset [] s m) :
    Follows chunk fuel m (discard (e.eval (some maxStack) 0) s) fun _ =>
      Ends blocks (offset + (e.lower blocks.flatten base ++ instruction .pop line).size) := by
  refine Follows.discard ((follows_expr fuel hblocks e hs hholds.left hlimits hm).andThen ?_)
  intro v s' m' hleaves
  obtain ⟨m₁, hpop, hm₁⟩ := reaches_pop hholds.right.code hleaves.2
  rw [Lowering.add_size_append]
  exact ⟨1, m₁, hpop, hleaves.1, hm₁⟩

/-- The output takes everything. -/
theorem printLine_of_room (text : String) (hroom : m.output.room = none) :
    ∃ m', printLine text m = .ok () m' ∧ m'.ip = m.ip ∧ m'.stack = m.stack ∧
      m'.globals = m.globals ∧ m'.output.room = none ∧
      m'.output.written = m.output.written ++ Text.encode (text ++ "\n") := by
  have hfitting : m.output.fitting (Text.encode (text ++ "\n")) = Text.encode (text ++ "\n") := by
    rw [Output.fitting, hroom]
  have hcomplete : (m.output.writeText (text ++ "\n")).1 = true := by
    simp [Output.writeText, Output.write, hfitting]
  rw [printLine_apply, if_pos hcomplete]
  refine ⟨_, rfl, rfl, rfl, rfl, ?_, ?_⟩
  · simp [Output.writeText, Output.write, hroom]
  · simp [Output.writeText, Output.write, hfitting]

/-- The value is shown and dropped. -/
theorem follows_print (hblocks : blocks.flatten.length ≤ Compile.Scope.maxLocals)
    (hs : s.blocks = blocks) {e : Expr}
    (hholds : chunk.Holds offset base (e.lower blocks.flatten base ++ instruction .print line))
    (hlimits : (e.lower blocks.flatten base).Limits base) (hm : Matches offset [] s m) :
    Follows chunk fuel m ((do printValue (← e.eval (some maxStack) 0)) s) fun _ =>
      Ends blocks (offset + (e.lower blocks.flatten base ++ instruction .print line).size) := by
  refine (follows_expr fuel hblocks e hs hholds.left hlimits hm).bind ?_
  intro v s' m' hleaves
  rw [Lowering.add_size_append]
  obtain ⟨hpop, htaken, -⟩ := (hleaves.2.past chunk .print).pop
  obtain ⟨m₁, hprint, hip, hstack, hglobals, hroom, hwritten⟩ :=
    printLine_of_room v.display htaken.room
  refine ⟨1, m₁, reaches_of_execute hholds.right.code hleaves.2.ip nofun
    ((bind_of_ok hpop).trans hprint), hleaves.1, ?_⟩
  refine ⟨hip.trans htaken.ip, ?_, ?_, hglobals.trans htaken.globals, ?_, hroom⟩
  · rw [hstack]
    exact htaken.stack
  · rw [hstack]
    exact htaken.le_maxStack
  · rw [hwritten, htaken.written]

/-! ## Declarations

A value that is left on the stack is that of a local. The value of a global is taken away. -/

/-- The value of a declared variable. -/
theorem follows_value (fuel : Nat) (hblocks : blocks.flatten.length ≤ Compile.Scope.maxLocals)
    (hs : s.blocks = blocks) {d : VarDecl}
    (hholds : chunk.Holds offset base (d.lowerValue blocks.flatten base))
    (hlimits : (d.lowerValue blocks.flatten base).Limits base) (hm : Matches offset [] s m) :
    Follows chunk fuel m (d.value (some maxStack) s)
      (Leaves blocks (offset + (d.lowerValue blocks.flatten base).size) []) := by
  obtain ⟨name, initializer, semicolon⟩ := d
  cases initializer with
  | none =>
    have hne : Instruction.nil ≠ .ret := by decide
    exact follows_keep hholds.code hne rfl hs hm
  | some initializer => exact follows_expr fuel hblocks initializer.2 hs hholds hlimits hm

/-- Outside of all blocks a global is declared. -/
theorem declareVariable_of_nil {name : String} {value : Value} (h : s.frames = []) :
    declareVariable name value s = .ok () { s with globals := s.globals.insert name value } := by
  cases s
  subst h
  rfl

/-- Inside a block a local is declared. -/
theorem declareVariable_of_cons {name : String} {value : Value} {frame : Frame}
    {frames : List Frame} (h : s.frames = frame :: frames) :
    declareVariable name value s =
      .ok () { s with frames := ((name, value) :: frame) :: frames } := by
  cases s
  subst h
  rfl

/-- A declared local stays where its value is, a global is taken off the stack. -/
theorem follows_declare (hblocks : blocks.flatten.length ≤ Compile.Scope.maxLocals)
    (hs : s.blocks = blocks) {d : VarDecl} (hholds : chunk.Holds offset base (d.lower blocks base))
    (hlimits : (d.lower blocks base).Limits base) (hm : Matches offset [] s m) :
    Follows chunk fuel m (d.exec (some maxStack) s) fun _ =>
      Ends (blocks.declare d.name.val.lexeme) (offset + (d.lower blocks base).size) := by
  match blocks with
  | [] =>
    rw [VarDecl.lower] at hholds
    rw [VarDecl.lower, Lowering.limits_append_instruction, Lowering.limits_append,
      Lowering.limits_pool] at hlimits
    refine (follows_value fuel hblocks hs hholds.left.right hlimits.2 hm).bind ?_
    intro v s' m' hleaves
    -- a global: its name takes no code, and its value is taken off the stack
    have hframes : s'.frames = [] := List.map_eq_nil_iff.mp hleaves.1
    have hstart : offset + (pool [.string d.name.val.lexeme] ++ d.lowerValue [] (base + 1)).size =
        offset + 0 + (d.lowerValue [] (base + 1)).size := by
      simp
    have hdefine := hholds.right.code
    rw [hstart] at hdefine
    have hconstant : chunk.constants[base.toUInt8.toNat]? = some (.string d.name.val.lexeme) := by
      rw [toNat_toUInt8 hlimits.1]
      exact hholds.left.left.constants.getElem?
    have hname := nameAt_of_string hconstant (m'.past chunk (.defineGlobal base.toUInt8))
    obtain ⟨hpop, htaken, -⟩ := (hleaves.2.past chunk (.defineGlobal base.toUInt8)).pop
    rw [declareVariable_of_nil hframes, VarDecl.lower, Lowering.add_size_append,
      hstart]
    refine ⟨1, _, reaches_of_execute hdefine hleaves.2.ip (by simp)
      ((bind_of_ok hname).trans (bind_of_ok hpop)), hleaves.1, ?_⟩
    exact { htaken with globals := congrArg (·.insert d.name.val.lexeme v) htaken.globals }
  | block :: outer =>
    refine (follows_value fuel hblocks hs hholds hlimits hm).bind ?_
    intro v s' m' hleaves
    -- a local: the value that has been left on the stack is now a variable
    obtain ⟨frame, frames, hframes, hframe, hframes'⟩ := List.map_eq_cons_iff.mp hleaves.1
    rw [declareVariable_of_cons hframes]
    refine follows_ok ⟨?_, hleaves.2.ip, ?_, hleaves.2.le_maxStack, hleaves.2.globals,
      hleaves.2.written, hleaves.2.room⟩
    · rw [Store.blocks, List.map_cons, List.map_cons, hframe, hframes']
      rfl
    · rw [hleaves.2.stack, Store.values, Store.values, hframes]
      simp

/-! ## Blocks

At the end of a block the machine drops as many values as the store has in its first frame. -/

/-- As many values are dropped as are held back. -/
theorem reaches_dropLocals {count : Nat}
    (hcode : chunk.CodeAt offset (dropLocals count line).code) (hcount : held.length = count)
    (hm : Matches offset held s m) :
    ∃ steps m', Reaches chunk steps m m' ∧
      Matches (offset + (dropLocals count line).size) [] s m' := by
  induction count generalizing offset held m with
  | zero =>
    obtain rfl := List.length_eq_zero_iff.mp hcount
    exact ⟨0, m, rfl, hm⟩
  | succ count ih =>
    -- the last of the values is on top
    obtain rfl | ⟨before, value, rfl⟩ := List.eq_nil_or_concat held
    · cases hcount
    · rw [List.concat_eq_append] at hm hcount
      obtain ⟨m₁, hpop, hm₁⟩ := reaches_pop hcode hm
      obtain ⟨steps, m₂, hdrop, hm₂⟩ := ih hcode.tail (by simpa using hcount) hm₁
      have hsize : (dropLocals (count + 1) line).size = 1 + (dropLocals count line).size := rfl
      rw [hsize, ← Nat.add_assoc]
      exact ⟨_, m₂, hpop.trans hdrop, hm₂⟩

/-- The locals of the innermost block are above those of the others. -/
theorem Matches.leave {frame : Frame} {frames : List Frame} (h : s.frames = frame :: frames)
    (hm : Matches offset [] s m) :
    Matches offset (frame.map (·.2)).reverse { s with frames := frames } m := by
  refine ⟨hm.ip, ?_, hm.le_maxStack, hm.globals, hm.written, hm.room⟩
  rw [hm.stack, Store.values, Store.values, h]
  simp

/-- A block: its body, and then its locals are dropped. -/
theorem follows_inBlock {body : EvalM Unit} {code : Lowering} {block : List String}
    (hcode : chunk.CodeAt (offset + code.size) (dropLocals block.length line).code)
    (hs : s.blocks = blocks) (hm : Matches offset [] s m)
    (hbody : ∀ s, s.blocks = [] :: blocks → Matches offset [] s m →
      Follows chunk fuel m (body s) fun _ => Ends (block :: blocks) (offset + code.size)) :
    Follows chunk fuel m (inBlock body s) fun _ =>
      Ends blocks (offset + (code ++ dropLocals block.length line).size) := by
  have hopened : Matches offset [] { s with frames := [] :: s.frames } m :=
    ⟨hm.ip, hm.stack, hm.le_maxStack, hm.globals, hm.written, hm.room⟩
  unfold inBlock
  rw [bind_of_ok (modify_apply _ s)]
  refine (hbody { s with frames := [] :: s.frames } (congrArg ([] :: ·) hs) hopened).bind ?_
  intro _ s' m' hends
  obtain ⟨frame, frames, hframes, hframe, hframes'⟩ := List.map_eq_cons_iff.mp hends.1
  have hlength : (frame.map (·.2)).reverse.length = block.length := by
    rw [List.length_reverse, List.length_map, ← hframe, List.length_map]
  obtain ⟨steps, m₁, hdrop, hm₁⟩ := reaches_dropLocals hcode hlength (hends.2.leave hframes)
  have htail : s'.frames.tail = frames := by rw [hframes, List.tail_cons]
  rw [modify_apply, htail, Lowering.add_size_append]
  exact ⟨steps, m₁, hdrop, hframes', hm₁⟩

/-! ## Loops

A round of the evaluation is test, body and increment. The machine jumps between these, and each
round begins at the offset of the test. -/

/-- A loop whose parts can be followed from one place of its code to the next. A round takes at
least the step `hback`, which the evaluation does not know of: it pays for the fuel of the round. -/
theorem follows_rounds {test : EvalM Bool} {body step : EvalM Unit} {start finish : Nat}
    (inside after next : Nat)
    (htest : ∀ s m, Ends blocks start s m → Follows chunk fuel m (test s) fun b =>
      Ends blocks (if b then inside else finish))
    (hbody : ∀ s m, Ends blocks inside s m → Follows chunk fuel m (body s) fun _ =>
      Ends blocks after)
    (hback : ∀ s m, Ends blocks after s m → ∃ m', Reaches chunk 1 m m' ∧ Ends blocks next s m')
    (hstep : ∀ s m, Ends blocks next s m → Follows chunk fuel m (step s) fun _ =>
      Ends blocks start)
    {n : Nat} (hn : n ≤ fuel) (h : Ends blocks start s m) :
    Follows chunk n m (rounds test body step n s) fun _ => Ends blocks finish := by
  induction n generalizing s m with
  -- the evaluation runs out of fuel, and the machine has nothing to keep up with
  | zero => exact ⟨0, m, Nat.le_refl 0, rfl⟩
  | succ n ih =>
    unfold rounds
    refine ((htest s m h).less hn).bind ?_
    intro b s₁ m₁ h₁
    cases b with
    | false => exact follows_ok h₁
    | true =>
      refine ((hbody s₁ m₁ h₁).less hn).bind ?_
      intro _ s₂ m₂ h₂
      -- the machine jumps back, which is no action of the evaluation
      obtain ⟨m₃, hreaches, h₃⟩ := hback s₂ m₂ h₂
      refine Follows.after hreaches ?_
      refine ((hstep s₂ m₃ h₃).less (Nat.le_of_succ_le hn)).bind ?_
      intro _ s₄ m₄ h₄
      exact ih (Nat.le_of_succ_le hn) h₄

/-- After a test the machine is behind it, or else at the end of the loop, where the value of the
condition has been dropped. -/
theorem follows_evalTest (hblocks : blocks.flatten.length ≤ Compile.Scope.maxLocals)
    {condition : Option Expr} {test : Option Lowering} {rest exit : Nat}
    (htest : test = condition.map (·.lower blocks.flatten base))
    (hholds : chunk.Holds offset base (lowerTest line rest test))
    (hexit : chunk.CodeAt (offset + testSize test + rest) (lowerExit exit test).code)
    (hlimits : ∀ code ∈ test, code.Limits base)
    (hrest : test.isSome → 1 + rest ≤ Compile.maxDistance) (h : Ends blocks offset s m) :
    Follows chunk fuel m (evalTest (some maxStack) condition s) fun b =>
      Ends blocks (if b then offset + testSize test
        else offset + testSize test + rest + (lowerExit exit test).size) := by
  subst htest
  cases condition with
  | none => exact follows_ok h
  | some condition =>
    refine (follows_expr fuel hblocks condition h.1 hholds.left.left (hlimits _ rfl) h.2).bind ?_
    intro v s' m' hleaves
    obtain ⟨m₁, hjump, hm₁⟩ := reaches_jumpIfFalse (hrest rfl) hholds.left.right.code hleaves.2
    have hsize : testSize (some (condition.lower blocks.flatten base)) =
        (condition.lower blocks.flatten base).size + 4 := rfl
    simp only [Option.map_some] at hexit ⊢
    by_cases hv : v.isFalsey = true
    · rw [if_pos hv] at hm₁
      -- the jump skips its own `pop` as well, and there is another one at the end of the loop
      have hout : offset + (condition.lower blocks.flatten base).size + 3 + (1 + rest) =
          offset + testSize (some (condition.lower blocks.flatten base)) + rest := by omega
      rw [hout] at hm₁
      obtain ⟨m₂, hpop, hm₂⟩ := reaches_pop hexit hm₁
      rw [hv]
      exact ⟨_, m₂, hjump.trans hpop, hleaves.1, hm₂⟩
    · rw [if_neg hv] at hm₁
      have hcode := hholds.right.code
      rw [Lowering.size_append, Lowering.size_jump_jumpIfFalse, ← Nat.add_assoc] at hcode
      obtain ⟨m₂, hpop, hm₂⟩ := reaches_pop hcode hm₁
      rw [Bool.not_eq_true] at hv
      rw [hv]
      exact ⟨_, m₂, hjump.trans hpop, hleaves.1, hm₂⟩

/-- On the way in the increment is jumped over. -/
theorem reaches_enter {enter leave test : Nat} {increment : Option Lowering}
    (hholds : chunk.Holds offset base (lowerIncrement enter leave test increment))
    (hlimits : (lowerIncrement enter leave test increment).Limits base)
    (h : Ends blocks offset s m) :
    ∃ count m', Reaches chunk count m m' ∧
      Ends blocks (offset + (lowerIncrement enter leave test increment).size) s m' := by
  cases increment with
  | none => exact ⟨0, m, rfl, h⟩
  | some code =>
    have hover := (limits_lowerIncrement.mp hlimits).2.1
    obtain ⟨m₁, hjump, hm₁⟩ := reaches_jump hover hholds.left.left.code h.2
    have hsize : offset + 3 + (code.size + 3) =
        offset + (lowerIncrement enter leave test (some code)).size := by
      simp only [lowerIncrement, Lowering.size_append, Lowering.size_jump_jump,
        Lowering.size_jump_loop]
      omega
    rw [hsize] at hm₁
    exact ⟨1, m₁, hjump, h.1, hm₁⟩

/-- From the place where a round continues after its body the increment leads back to the start. -/
theorem follows_execStep (hblocks : blocks.flatten.length ≤ Compile.Scope.maxLocals)
    {enter leave start : Nat} {increment : Option Expr} {test code : Option Lowering}
    (hcode : code = increment.map (lowerDiscarded blocks.flatten base))
    (hholds : chunk.Holds (start + testSize test) base
      (lowerIncrement enter leave (testSize test) code))
    (hlimits : (lowerIncrement enter leave (testSize test) code).Limits base)
    (hoffset : offset + roundSize test code =
      start + testSize test + (lowerIncrement enter leave (testSize test) code).size)
    (h : Ends blocks offset s m) :
    Follows chunk fuel m (execStep (some maxStack) increment s) fun _ => Ends blocks start := by
  subst hcode
  cases increment with
  | none =>
    -- without increment the round goes on at the test itself
    have hstart : offset = start := by
      simp only [Option.map_none, roundSize, lowerIncrement, Lowering.size_empty] at hoffset
      omega
    rw [← hstart]
    exact follows_ok h
  | some increment =>
    rw [Option.map_some] at hholds hlimits hoffset
    rw [roundSize, size_lowerIncrement] at hoffset
    obtain ⟨hvalue, -, hback⟩ := limits_lowerIncrement.mp hlimits
    have hstep := hholds.left.right
    have hloop := hholds.right.code
    rw [Lowering.size_jump_jump] at hstep
    rw [Lowering.size_append, Lowering.size_jump_jump, ← Nat.add_assoc] at hloop
    -- the increment is entered behind the jump that skips it on the way in
    have hat : offset = start + testSize test + 3 := by omega
    rw [hat] at h
    rw [lowerDiscarded, Lowering.limits_append_instruction] at hvalue
    refine (follows_discarded hblocks h.1 hstep hvalue h.2).andThen ?_
    intro _ s' m' hends
    have htarget : start + (testSize test + 3 +
        (lowerDiscarded blocks.flatten base increment).size + 3) =
          start + testSize test + 3 + (lowerDiscarded blocks.flatten base increment).size + 3 := by
      omega
    obtain ⟨m₁, hreaches, hm₁⟩ := reaches_loop hback htarget hloop hends.2
    exact ⟨1, m₁, hreaches, hends.1, hm₁⟩

/-- A loop, given that its body can be followed. -/
theorem follows_lowerLoop (hblocks : blocks.flatten.length ≤ Compile.Scope.maxLocals)
    (condition increment : Option Expr) {test step : Option Lowering} {enter leave : Nat}
    {code : Lowering} {body : EvalM Unit}
    (htest : test = condition.map (·.lower blocks.flatten base))
    (hstep : step = increment.map (lowerDiscarded blocks.flatten (base + constantCount test)))
    (hholds : chunk.Holds offset base (lowerLoop test enter step leave code line))
    (hlimits : (lowerLoop test enter step leave code line).Limits base)
    (hbody : ∀ offset s m,
      chunk.Holds offset (base + constantCount test + constantCount step) code →
      Ends blocks offset s m →
      Follows chunk fuel m (body s) fun _ => Ends blocks (offset + code.size))
    (h : Ends blocks offset s m) :
    Follows chunk fuel m
      (rounds (evalTest (some maxStack) condition) body (execStep (some maxStack) increment) fuel s)
      fun _ => Ends blocks (offset + (lowerLoop test enter step leave code line).size) := by
  have hroom : base ≤ Chunk.maxConstants := Nat.le_trans (Nat.le_add_right _ _) hlimits.1
  obtain ⟨htests, hsteps, -, hround, hrest⟩ := (limits_lowerLoop hroom).mp hlimits
  -- where the parts of the loop are
  have hstepAt := hholds.left.left.left.right
  have hcodeAt := hholds.left.left.right
  have hbackAt := hholds.left.right.code
  have hexitAt := hholds.right.code
  simp only [Lowering.size_append, Lowering.size_jump_loop, Lowering.constants_append,
    List.length_append, size_lowerTest, length_constants_lowerTest,
    length_constants_lowerIncrement, ← Nat.add_assoc] at hstepAt hcodeAt hbackAt hexitAt
  have hsize : offset + (lowerLoop test enter step leave code line).size =
      offset + testSize test + ((lowerIncrement enter leave (testSize test) step).size +
        code.size + 3) + (lowerExit line test).size := by
    simp only [lowerLoop, Lowering.size_append, Lowering.size_jump_loop, size_lowerTest]
    omega
  rw [hsize]
  -- a round continues at the increment, or else at the test
  obtain ⟨next, hnext⟩ : ∃ next, next + roundSize test step =
      offset + testSize test + (lowerIncrement enter leave (testSize test) step).size := by
    have hle := roundSize_le enter leave test step
    exact ⟨_, Nat.sub_add_cancel (by omega)⟩
  have htarget : next + (roundSize test step + code.size + 3) = offset + testSize test +
      (lowerIncrement enter leave (testSize test) step).size + code.size + 3 := by
    omega
  apply follows_rounds (offset + testSize test) (offset + testSize test +
    (lowerIncrement enter leave (testSize test) step).size + code.size) next ?_ ?_ ?_ ?_
    (Nat.le_refl fuel) h
  · intro s m h
    refine follows_evalTest hblocks htest hholds.left.left.left.left ?_ htests hrest h
    simpa only [Nat.add_assoc] using hexitAt
  · intro s m h
    obtain ⟨count, m₁, henter, h₁⟩ := reaches_enter hstepAt hsteps h
    exact (hbody _ s m₁ hcodeAt h₁).of_reaches henter
  · intro s m h
    obtain ⟨m₁, hloop, hm₁⟩ := reaches_loop hround htarget hbackAt h.2
    exact ⟨m₁, hloop, h.1, hm₁⟩
  · intro s m h
    exact follows_execStep hblocks hstep hstepAt hsteps hnext h

/-! ## All statements

By recursion on the statement. -/

theorem follows_forStart (hblocks : blocks.flatten.length ≤ Compile.Scope.maxLocals)
    (start : ForStart) (hholds : chunk.Holds offset base (start.lower blocks base))
    (hlimits : (start.lower blocks base).Limits base) (h : Ends blocks offset s m) :
    Follows chunk fuel m (start.exec (some maxStack) s) fun _ =>
      Ends (start.blocks blocks) (offset + (start.lower blocks base).size) := by
  cases start with
  | none semicolon => exact follows_ok h
  | declaration keyword declared => exact follows_declare hblocks h.1 hholds hlimits h.2
  | expression value semicolon =>
    rw [ForStart.lower, Lowering.limits_append_instruction] at hlimits
    exact follows_discarded hblocks h.1 hholds hlimits h.2

mutual

/-- The machine follows the execution of a statement through its code. -/
theorem follows_stmt (t : Stmt) {blocks : Blocks} {base offset : Nat} {s : Store} {m : Machine}
    (hblocks : blocks.flatten.length ≤ Compile.Scope.maxLocals)
    (hscoped : Scoped (t.locals blocks)) (hlimits : (t.lower blocks base).Limits base)
    (hholds : chunk.Holds offset base (t.lower blocks base)) (h : Ends blocks offset s m) :
    Follows chunk fuel m (t.exec (some maxStack) fuel s) fun _ =>
      Ends blocks (offset + (t.lower blocks base).size) := by
  match t with
  | .print keyword value semicolon =>
    rw [Stmt.lower] at hholds hlimits ⊢
    rw [Lowering.limits_append_instruction] at hlimits
    exact follows_print hblocks h.1 hholds hlimits h.2
  | .expression value semicolon =>
    rw [Stmt.lower] at hholds hlimits ⊢
    rw [Lowering.limits_append_instruction] at hlimits
    exact follows_discarded hblocks h.1 hholds hlimits h.2
  | .conditional keyword condition body otherwise =>
    rw [Stmt.locals, scoped_append] at hscoped
    rw [Stmt.lower] at hholds hlimits ⊢
    rw [Lowering.limits_append, limits_lowerBranches, Lowering.limits_instruction_append,
      Lowering.limits_instruction_append] at hlimits
    obtain ⟨htest, hfirst, hover, hsecond, hpast⟩ := hlimits
    refine (follows_expr fuel hblocks condition.value h.1 hholds.left htest h.2).bind ?_
    intro v s' m' hleaves
    rw [Lowering.add_size_append]
    -- both branches start by dropping the value
    refine follows_branches hholds.right hover hpast hleaves.2 ?_ ?_
    · intro m₁ hcode hm₁
      rw [Lowering.add_size_append]
      refine follows_after_pop hcode hm₁ ?_
      intro m₂ hcode hm₂
      exact follows_stmt body hblocks hscoped.1 hfirst hcode ⟨hleaves.1, hm₂⟩
    · intro m₁ hcode hm₁
      rw [Lowering.add_size_append]
      refine follows_after_pop hcode hm₁ ?_
      intro m₂ hcode hm₂
      exact follows_else otherwise hblocks hscoped.2 hsecond hcode ⟨hleaves.1, hm₂⟩
  | .whileLoop keyword condition body =>
    have hroom : base ≤ Chunk.maxConstants := Nat.le_trans (Nat.le_add_right _ _) hlimits.1
    rw [Stmt.lower] at hholds hlimits ⊢
    obtain ⟨-, -, hinside, -, -⟩ := (limits_lowerLoop hroom).mp hlimits
    -- a `while` loop is a loop with a test and no increment
    refine follows_lowerLoop hblocks (some condition.value) none rfl rfl hholds hlimits ?_ h
    intro offset s m hcode h
    exact follows_stmt body hblocks hscoped hinside hcode h
  | .forLoop keyword clauses body =>
    rw [Stmt.locals, scoped_append] at hscoped
    rw [Stmt.lower] at hholds hlimits ⊢
    rw [dropLocals, Lowering.limits_append_instructions, Lowering.limits_append] at hlimits
    obtain ⟨hstart, hloop⟩ := hlimits
    have hroom := Nat.le_trans (Nat.le_add_right _ _) hloop.1
    obtain ⟨-, -, hinside, -, -⟩ := (limits_lowerLoop hroom).mp hloop
    have hopened : ([] :: blocks).flatten.length ≤ Compile.Scope.maxLocals := hblocks
    have hlocals := ForStart.length_blocks_le hopened hscoped.1
    refine follows_inBlock hholds.right.code h.1 h.2 ?_
    intro s hs hm
    refine (follows_forStart hopened clauses.start hholds.left.left hstart ⟨hs, hm⟩).bind ?_
    intro _ s₁ m₁ h₁
    rw [Lowering.add_size_append, ← clauses.start.blocks_cons]
    refine follows_lowerLoop hlocals clauses.condition clauses.increment rfl rfl
      hholds.left.right hloop ?_ h₁
    intro offset s m hcode h
    exact follows_stmt body hlocals hscoped.2 hinside hcode h
  | .block left body right =>
    rw [Stmt.lower] at hholds hlimits ⊢
    rw [dropLocals, Lowering.limits_append_instructions] at hlimits
    have hopened : ([] :: blocks).flatten.length ≤ Compile.Scope.maxLocals := hblocks
    refine follows_inBlock hholds.right.code h.1 h.2 ?_
    intro s hs hm
    rw [← body.blocks_cons]
    exact follows_decls body hopened hscoped hlimits hholds.left ⟨hs, hm⟩

/-- A second branch that is missing is no code and no action. -/
theorem follows_else (o : Else) {blocks : Blocks} {base offset : Nat} {s : Store} {m : Machine}
    (hblocks : blocks.flatten.length ≤ Compile.Scope.maxLocals)
    (hscoped : Scoped (o.locals blocks)) (hlimits : (o.lower blocks base).Limits base)
    (hholds : chunk.Holds offset base (o.lower blocks base)) (h : Ends blocks offset s m) :
    Follows chunk fuel m (o.exec (some maxStack) fuel s) fun _ =>
      Ends blocks (offset + (o.lower blocks base).size) := by
  match o with
  | .none => exact follows_ok h
  | .branch keyword body =>
    rw [Else.lower] at hholds hlimits ⊢
    exact follows_stmt body hblocks hscoped hlimits hholds h

/-- The machine follows the execution of a list of declarations through its code. -/
theorem follows_decls (ds : Decls) {blocks : Blocks} {base offset : Nat} {s : Store} {m : Machine}
    (hblocks : blocks.flatten.length ≤ Compile.Scope.maxLocals)
    (hscoped : Scoped (ds.locals blocks)) (hlimits : (ds.lower blocks base).Limits base)
    (hholds : chunk.Holds offset base (ds.lower blocks base)) (h : Ends blocks offset s m) :
    Follows chunk fuel m (ds.exec (some maxStack) fuel s) fun _ =>
      Ends (ds.blocks blocks) (offset + (ds.lower blocks base).size) := by
  match ds with
  | .nil => exact follows_ok h
  | .declaration keyword declared rest =>
    rw [Decls.locals, scoped_append] at hscoped
    rw [Decls.lower] at hholds hlimits ⊢
    rw [Lowering.limits_append] at hlimits
    refine (follows_declare hblocks h.1 hholds.left hlimits.1 h.2).bind ?_
    intro _ s' m' h'
    rw [Lowering.add_size_append]
    -- one more local is in the blocks of the rest
    exact follows_decls rest (length_declare_le hblocks hscoped.1) hscoped.2 hlimits.2
      hholds.right h'
  | .statement first rest =>
    rw [Decls.locals, scoped_append] at hscoped
    rw [Decls.lower] at hholds hlimits ⊢
    rw [Lowering.limits_append] at hlimits
    refine (follows_stmt first hblocks hscoped.1 hlimits.1 hholds.left h).bind ?_
    intro _ s' m' h'
    rw [Lowering.add_size_append]
    exact follows_decls rest hblocks hscoped.2 hlimits.2 hholds.right h'

end

end StackScript.Machine
