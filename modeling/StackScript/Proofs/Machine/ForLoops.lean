import StackScript.Proofs.Compile.Correctness
import StackScript.Proofs.Machine.KeepingPace
import StackScript.Proofs.Tree.LoopUnfolding

/-!
# A loop does what it does when it is written out

The code of a `for` loop has the increment before the body and jumps over it on the way in. Written
out, the increment is the end of the body. The two machines go through the same clauses in the same
order, each with jumps of its own in between.

* **`LoopAt`**: where the parts of a loop lie in a chunk, and where its jumps lead.
* **`leads_lowerLoop`**: two loops of the same form, whose bodies keep pace.
* **`leads_tailLoop`**: a loop with clauses, and the loop written out.
* **`leads_stmt`**, **`leads_decls`**: trees with some of their loops written out, by induction.
* **`run_unfolds`**: whole scripts.
-/

namespace StackScript

open StackScript.Tree Compile

/-- Code stands at an offset of a chunk, with its constants, and keeps the limits. -/
structure Chunk.Has (c : Chunk) (offset base : Nat) (l : Lowering) : Prop where
  holds : c.Holds offset base l
  limits : l.Limits base

namespace Chunk.Has

variable {c : Chunk} {offset base : Nat} {a b l : Lowering}

theorem left (h : c.Has offset base (a ++ b)) : c.Has offset base a :=
  ⟨h.holds.left, (Lowering.limits_append.mp h.limits).1⟩

theorem right (h : c.Has offset base (a ++ b)) :
    c.Has (offset + a.size) (base + a.constants.length) b :=
  ⟨h.holds.right, (Lowering.limits_append.mp h.limits).2⟩

theorem code (h : c.Has offset base l) : c.CodeAt offset l.code :=
  h.holds.code

theorem supplied (h : c.Has offset base l) : Lowering.Supplied c base l :=
  ⟨h.holds.constants, h.limits.1⟩

/-- A jump can be made as far as its distance says. -/
theorem jump_le {make : UInt16 → Instruction} {distance line : Nat}
    (h : c.Has offset base (.jump make distance line)) : distance ≤ maxDistance :=
  h.limits.2 distance (List.mem_singleton.mpr rfl)

end Chunk.Has

namespace Machine

open Lowering (instruction jump Twins twins_plain)

variable {c d : Chunk} {n offset offset' base base' line line' : Nat}

/-! ## Simple statements

Two machines run the same expression from different chunks, at different offsets. -/

section Expressions

variable {names : List String}

/-- Both machines push the same value or fail with the same fault. -/
theorem leads_expr (e : Expr) (hnames : names.length ≤ Scope.maxLocals) (hn : names.length ≤ n)
    (h : c.Has offset base (e.lower names base)) (h' : d.Has offset' base' (e.lower names base')) :
    Leads c d (PairAt n offset offset')
      (PairAt (n + 1) (offset + (e.lower names base).size)
        (offset' + (e.lower names base').size)) := by
  have htwins : Twins c d [] (e.lower names base) (e.lower (names ++ []) base') := by
    refine e.twins ?_ h.supplied ?_
    · rwa [List.append_nil]
    · rw [List.append_nil]
      exact h'.supplied
  rw [List.append_nil] at htwins
  exact leads_twins htwins h.code h'.code (e.flows hnames hn h.limits)

/-- A value that is dropped, on whatever lines. -/
theorem leads_discarded (e : Expr) (hnames : names.length ≤ Scope.maxLocals)
    (hn : names.length ≤ n)
    (h : c.Has offset base (e.lower names base ++ instruction .pop line))
    (h' : d.Has offset' base' (e.lower names base' ++ instruction .pop line')) :
    Leads c d (PairAt n offset offset')
      (PairAt n (offset + (e.lower names base ++ instruction .pop line).size)
        (offset' + (e.lower names base' ++ instruction .pop line').size)) := by
  rw [Lowering.add_size_append, Lowering.add_size_append]
  exact (leads_expr e hnames hn h.left h'.left).trans (leads_pop h.right.code h'.right.code)

/-- Both print the same text. -/
theorem leads_printed (e : Expr) (hnames : names.length ≤ Scope.maxLocals)
    (hn : names.length ≤ n)
    (h : c.Has offset base (e.lower names base ++ instruction .print line))
    (h' : d.Has offset' base' (e.lower names base' ++ instruction .print line)) :
    Leads c d (PairAt n offset offset')
      (PairAt n (offset + (e.lower names base ++ instruction .print line).size)
        (offset' + (e.lower names base' ++ instruction .print line).size)) := by
  have hprint : (instruction .print line).Flows (n + 1) (n + 1) n :=
    Lowering.flows_instruction line rfl (Nat.le_add_left 1 n) (by rintro _ ⟨⟩) (Nat.le_refl _)
      (Nat.le_succ n)
  rw [Lowering.add_size_append, Lowering.add_size_append]
  exact (leads_expr e hnames hn h.left h'.left).trans
    (leads_twins (twins_plain rfl rfl line) h.right.code h'.right.code hprint)

/-- Without an expression the value is `nil`. -/
theorem leads_value (v : VarDecl) (hnames : names.length ≤ Scope.maxLocals)
    (hn : names.length ≤ n) (h : c.Has offset base (v.lowerValue names base))
    (h' : d.Has offset' base' (v.lowerValue names base')) :
    Leads c d (PairAt n offset offset')
      (PairAt (n + 1) (offset + (v.lowerValue names base).size)
        (offset' + (v.lowerValue names base').size)) := by
  have hflows := v.flows_lowerValue hnames hn h.limits
  obtain ⟨name, initializer, semicolon⟩ := v
  cases initializer with
  | none => exact leads_twins (twins_plain rfl rfl _) h.code h'.code hflows
  | some initializer => exact leads_expr initializer.2 hnames hn h h'

end Expressions

/-! ## Declarations

A loop and its unfolding have different blocks but the same locals, so they find the same slots. -/

/-- The value on top becomes that of a global. -/
theorem step_define {index : UInt8} {name : String} {value : Value}
    {rest : List (Instruction × Nat)} {m : Machine}
    (hcode : c.CodeAt offset ((.defineGlobal index, line) :: rest))
    (hname : c.constants[index.toNat]? = some (.string name)) (hip : m.ip = offset)
    (hvalue : m.stack.back? = some value) :
    step c m = .ok .running { m.atLine c with
      ip := offset + 2, stack := m.stack.pop, globals := m.globals.insert name value } := by
  refine step_of_execute hcode hip (by simp) ?_
  have htop : (m.past c (.defineGlobal index)).stack.back? = some value := hvalue
  have hpop : pop (m.past c (.defineGlobal index)) =
      .ok value { m.past c (.defineGlobal index) with stack := m.stack.pop } := by
    rw [pop_apply, htop]
    rfl
  rw [execute, bind_of_ok (nameAt_of_string hname _), bind_of_ok hpop, ← hip]
  rfl

/-- Both machines define the same global. -/
theorem leads_define {index index' : UInt8} {name : String} {rest rest' : List (Instruction × Nat)}
    (hcode : c.CodeAt offset ((.defineGlobal index, line) :: rest))
    (hcode' : d.CodeAt offset' ((.defineGlobal index', line') :: rest'))
    (hname : c.constants[index.toNat]? = some (.string name))
    (hname' : d.constants[index'.toNat]? = some (.string name)) :
    Leads c d (PairAt (n + 1) offset offset') (PairAt n (offset + 2) (offset' + 2)) := by
  intro steps hafter m m' hm
  have hlooks := hm.looksLike
  obtain ⟨hip, hsize, line₂, rfl⟩ := hm
  have hpos : 0 < m.stack.size := by omega
  obtain ⟨value, hvalue⟩ := back?_isSome hpos
  have hless : m.stack.pop.size = n := by
    rw [Array.size_pop]
    omega
  -- the globals differ between the two steps, so they are taken together
  exact (KeepsPace.of_both hlooks (step_define hcode hname hip hvalue)
    (step_define hcode' hname' rfl hvalue) (hafter _ _ ⟨rfl, hless, _, rfl⟩)).mono (Nat.le_succ _)

/-- Two lists of blocks have the same locals, and both are inside a block or none is. -/
structure SameLocals (blocks blocks' : Blocks) : Prop where
  flatten : blocks'.flatten = blocks.flatten
  nil_iff : blocks' = [] ↔ blocks = []

theorem SameLocals.declare {blocks blocks' : Blocks} (h : SameLocals blocks blocks')
    (name : String) : SameLocals (blocks.declare name) (blocks'.declare name) := by
  obtain ⟨hflatten, hnil⟩ := h
  cases blocks with
  | nil =>
    obtain rfl := hnil.mpr rfl
    exact ⟨rfl, Iff.rfl⟩
  | cons block outer =>
    cases blocks' with
    | nil => cases hnil.mp rfl
    | cons block' outer' =>
      refine ⟨?_, by simp [Blocks.declare]⟩
      simpa [Blocks.declare] using hflatten

/-- A new block around each of two lists. -/
theorem sameLocals_open {blocks blocks' : Blocks} (h : blocks'.flatten = blocks.flatten) :
    SameLocals ([] :: blocks) ([] :: blocks') :=
  ⟨by simpa using h, by simp⟩

section Declarations

variable {blocks blocks' : Blocks}

/-- A local stays on the stack, and a global is taken from it. -/
theorem leads_declare (v : VarDecl) (hsame : SameLocals blocks blocks')
    (hblocks : blocks.flatten.length ≤ Scope.maxLocals)
    (h : c.Has offset base (v.lower blocks base))
    (h' : d.Has offset' base' (v.lower blocks' base')) :
    Leads c d (PairAt blocks.flatten.length offset offset')
      (PairAt (blocks.declare v.name.val.lexeme).flatten.length
        (offset + (v.lower blocks base).size) (offset' + (v.lower blocks' base').size)) := by
  cases blocks with
  | nil =>
    -- outside all blocks the value goes to a global, with a name from the pool of each chunk
    obtain rfl := hsame.nil_iff.mpr rfl
    rw [VarDecl.lower] at h h'
    have hsize : ∀ base, (v.lower [] base).size = (v.lowerValue [] (base + 1)).size + 2 := by
      intro base
      rw [VarDecl.lower, Lowering.size_append, Lowering.size_append, Lowering.size_pool,
        Nat.zero_add]
      rfl
    have hvalue : Leads c d (PairAt 0 offset offset')
        (PairAt 1 (offset + (v.lowerValue [] (base + 1)).size)
          (offset' + (v.lowerValue [] (base' + 1)).size)) :=
      leads_value v hblocks (Nat.le_refl 0) h.left.right h'.left.right
    have hcode := h.right.code
    have hcode' := h'.right.code
    rw [Lowering.size_append, Lowering.size_pool, Nat.zero_add] at hcode hcode'
    rw [hsize, hsize]
    exact hvalue.trans (leads_define hcode hcode' h.left.left.supplied.getElem?
      h'.left.left.supplied.getElem?)
  | cons block outer =>
    cases blocks' with
    | nil => cases hsame.nil_iff.mp rfl
    | cons block' outer' =>
      -- in a block the value stays on the stack
      rw [VarDecl.lower, hsame.flatten] at h'
      rw [length_flatten_declare, VarDecl.lower, VarDecl.lower, hsame.flatten]
      exact leads_value v hblocks (Nat.le_refl _) h h'

/-- The first clause is a declaration, an expression or nothing. -/
theorem leads_forStart (start : ForStart) (hsame : SameLocals blocks blocks')
    (hblocks : blocks.flatten.length ≤ Scope.maxLocals)
    (h : c.Has offset base (start.lower blocks base))
    (h' : d.Has offset' base' (start.lower blocks' base')) :
    Leads c d (PairAt blocks.flatten.length offset offset')
      (PairAt (start.blocks blocks).flatten.length
        (offset + (start.lower blocks base).size)
        (offset' + (start.lower blocks' base').size)) := by
  cases start with
  | none semicolon => exact .refl
  | declaration keyword declared => exact leads_declare declared hsame hblocks h h'
  | expression value semicolon =>
    rw [ForStart.lower, hsame.flatten] at h'
    rw [ForStart.lower, ForStart.lower, hsame.flatten]
    exact leads_discarded value hblocks (Nat.le_refl _) h h'

/-- The first clause declares the same local in both. -/
theorem SameLocals.forStart (h : SameLocals blocks blocks') (start : ForStart) :
    SameLocals (start.blocks blocks) (start.blocks blocks') := by
  cases start with
  | declaration keyword declared => exact h.declare declared.name.val.lexeme
  | none semicolon | expression value semicolon => exact h

/-- All declarations declare the same locals. -/
theorem SameLocals.decls {ds ds' : Decls} (hds : ds.Unfolds ds') {blocks blocks' : Blocks}
    (h : SameLocals blocks blocks') : SameLocals (ds.blocks blocks) (ds'.blocks blocks') := by
  match ds, ds', hds with
  | _, _, .nil => exact h
  | _, _, .declaration keyword declared hrest =>
    exact SameLocals.decls hrest (h.declare declared.name.val.lexeme)
  | _, _, .statement _ hrest => exact SameLocals.decls hrest h

/-- By induction on the number of locals that are dropped. -/
theorem leads_drop {count : Nat} (hcode : c.CodeAt offset (dropLocals count line).code)
    (hcode' : d.CodeAt offset' (dropLocals count line').code) :
    Leads c d (PairAt (n + count) offset offset')
      (PairAt n (offset + (dropLocals count line).size)
        (offset' + (dropLocals count line').size)) := by
  induction count generalizing offset offset' with
  | zero => exact .refl
  | succ count ih =>
    have hsize : ∀ offset line, offset + (dropLocals (count + 1) line).size =
        offset + 1 + (dropLocals count line).size :=
      fun offset line => (Nat.add_assoc offset 1 (dropLocals count line).size).symm
    rw [hsize, hsize]
    exact (leads_pop hcode hcode').trans (ih hcode.tail hcode'.tail)

/-- Where a block ends its locals are dropped. -/
theorem leads_leave {inner inner' : Blocks} (hinner : inner = innermost inner :: blocks)
    (hinner' : inner' = innermost inner' :: blocks')
    (hsame : inner'.flatten = inner.flatten) (houter : blocks'.flatten = blocks.flatten)
    (hcode : c.CodeAt offset (dropLocals (innermost inner).length line).code)
    (hcode' : d.CodeAt offset' (dropLocals (innermost inner').length line').code) :
    Leads c d (PairAt inner.flatten.length offset offset')
      (PairAt blocks.flatten.length
        (offset + (dropLocals (innermost inner).length line).size)
        (offset' + (dropLocals (innermost inner').length line').size)) := by
  have hlength : inner.flatten.length = blocks.flatten.length + (innermost inner).length := by
    rw [congrArg List.flatten hinner, List.flatten_cons, List.length_append, Nat.add_comm]
  have hlength' : inner'.flatten.length = blocks'.flatten.length + (innermost inner').length := by
    rw [congrArg List.flatten hinner', List.flatten_cons, List.length_append, Nat.add_comm]
  have hcount : (innermost inner').length = (innermost inner).length := by
    rw [hsame, houter] at hlength'
    omega
  rw [hcount] at hcode' ⊢
  rw [hlength]
  exact leads_drop hcode hcode'

end Declarations

/-! ## Loops

In each round both machines test the condition, run the body and run the increment. They jump over
different distances to do so. -/

/-- The number of bytes of an increment and the jumps around it. -/
def stepSize : Option Lowering → Nat
  | none => 0
  | some code => 3 + code.size + 3

/-- The size does not depend on the distances. -/
theorem size_lowerIncrement_eq (enter leave before : Nat) (increment : Option Lowering) :
    (lowerIncrement enter leave before increment).size = stepSize increment := by
  cases increment with
  | none => rfl
  | some code => exact size_lowerIncrement enter leave before code

/-- A loop is its test, the rounds and what is done on leaving it. -/
theorem add_size_lowerLoop (offset : Nat) (test increment : Option Lowering)
    (enter leave line : Nat) (body : Lowering) :
    offset + (lowerLoop test enter increment leave body line).size =
      offset + testSize test + (stepSize increment + body.size + 3) +
        (lowerExit line test).size := by
  simp only [lowerLoop, Lowering.size_append, size_lowerTest, size_lowerIncrement_eq,
    Lowering.size_jump_loop]
  omega

/-- The offset of the body of a loop. -/
def bodyOffset (offset : Nat) (test increment : Option Lowering) : Nat :=
  offset + testSize test + stepSize increment

/-- The offset of the jump that leads back to the start of a loop: behind the increment, or else
behind the body. -/
def lastOffset (offset : Nat) (test : Option Lowering) (body : Lowering) : Option Lowering → Nat
  | none => bodyOffset offset test none + body.size
  | some code => offset + testSize test + 3 + code.size

/-- The parts of a loop in a chunk, and the ways between them. -/
structure LoopAt (c : Chunk) (offset base : Nat) (test increment : Option Lowering)
    (body : Lowering) (enter line : Nat) : Prop where
  hasTest : c.Has offset base (lowerTest enter (stepSize increment + body.size + 3) test)
  hasIncrement : ∀ code ∈ increment,
    c.Has (offset + testSize test + 3) (base + constantCount test) code
  hasBody : c.Has (bodyOffset offset test increment)
    (base + constantCount test + constantCount increment) body
  exit : c.CodeAt (offset + testSize test + (stepSize increment + body.size + 3))
    (lowerExit line test).code
  enters : Goes c (offset + testSize test) (bodyOffset offset test increment)
  continues : increment.isSome →
    Goes c (bodyOffset offset test increment + body.size) (offset + testSize test + 3)
  repeats : ∀ m : Machine, m.ip = lastOffset offset test body increment →
    step c m = .ok .running { m.atLine c with ip := offset }

/-- The parts of a loop, one by one. -/
theorem loopAt_of_has {test increment : Option Lowering} {body : Lowering} {enter leave : Nat}
    (h : c.Has offset base (lowerLoop test enter increment leave body line)) :
    LoopAt c offset base test increment body enter line := by
  have htest := h.left.left.left.left
  have hstep := h.left.left.left.right
  have hbody := h.left.left.right
  have hback := h.left.right
  have hexit := h.right.code
  have hround := hback.jump_le
  have hback := hback.code
  simp only [Lowering.size_append, size_lowerTest, size_lowerIncrement_eq,
    Lowering.constants_append, List.length_append, length_constants_lowerTest,
    length_constants_lowerIncrement, Lowering.size_jump_loop, ← Nat.add_assoc]
    at htest hstep hbody hback hexit
  refine ⟨htest, ?_, hbody, ?_, ?_, ?_, ?_⟩
  · rintro code ⟨rfl⟩
    exact hstep.left.right
  · rwa [← Nat.add_assoc, ← Nat.add_assoc]
  · cases increment with
    | none => exact .inl rfl
    | some code =>
      have hover := goes_jump hstep.left.left.jump_le hstep.left.left.code
      rwa [Nat.add_assoc (offset + testSize test), ← Nat.add_assoc 3] at hover
  · intro hsome
    cases increment with
    | none => cases hsome
    | some code =>
      refine .inr fun m hip => step_loop hround ?_ hback hip
      simp only [roundSize, stepSize]
      omega
  · intro m hip
    cases increment with
    | none =>
      refine step_loop hround ?_ hback hip
      simp only [roundSize, stepSize]
      omega
    | some code =>
      -- the last part of the increment is the jump back to the test
      have hagain := hstep.right
      refine step_loop hagain.jump_le ?_ hagain.code ?_
      · simp only [Lowering.size_append, Lowering.size_jump_jump]
        omega
      · rw [hip, lastOffset, Lowering.size_append, Lowering.size_jump_jump, Nat.add_assoc _ 3]

section Tests

variable {names : List String} {rest rest' exit exit' : Nat}

/-- The same condition: both machines are behind it, or both are out of the loop. -/
theorem leads_test (e : Expr) (hnames : names.length ≤ Scope.maxLocals) (hn : names.length ≤ n)
    (h : c.Has offset base (lowerTest line rest (some (e.lower names base))))
    (h' : d.Has offset' base' (lowerTest line' rest' (some (e.lower names base'))))
    (hexit : c.CodeAt (offset + testSize (some (e.lower names base)) + rest) [(.pop, exit)])
    (hexit' : d.CodeAt (offset' + testSize (some (e.lower names base')) + rest') [(.pop, exit')]) :
    Leads c d (PairAt n offset offset') fun m m' =>
      PairAt n (offset + testSize (some (e.lower names base)))
          (offset' + testSize (some (e.lower names base'))) m m' ∨
        PairAt n (offset + testSize (some (e.lower names base)) + rest + 1)
          (offset' + testSize (some (e.lower names base')) + rest' + 1) m m' := by
  have hsize : ∀ offset base, offset + testSize (some (e.lower names base)) =
      offset + (e.lower names base).size + 3 + 1 := fun _ _ => rfl
  have hjump := h.left.right
  have hjump' := h'.left.right
  have hbranch := (leads_expr e hnames hn h.left.left h'.left.left).trans
    (leads_branch hjump.jump_le hjump'.jump_le hjump.code hjump'.code)
  have hpop := h.right.code
  have hpop' := h'.right.code
  rw [Lowering.size_append, Lowering.size_jump_jumpIfFalse, ← Nat.add_assoc] at hpop hpop'
  rw [hsize] at hexit hexit' ⊢
  rw [hsize]
  -- one way goes on behind the test, the other one jumps to the exit
  refine hbranch.join ?_ ?_
  · exact (leads_pop hpop hpop').trans (.of_imp fun _ _ => .inl)
  · rw [← Nat.add_assoc, ← Nat.add_assoc]
    exact (leads_pop hexit hexit').trans (.of_imp fun _ _ => .inr)

/-- The constant that stands for a missing condition is pushed. -/
theorem step_true {rest : List (Instruction × Nat)} {m : Machine}
    (hcode : c.CodeAt offset ((.true, line) :: rest)) (hip : m.ip = offset)
    (hroom : m.stack.size < maxStack) :
    step c m = .ok .running
      { m.atLine c with ip := offset + 1, stack := m.stack.push (.bool true) } := by
  refine step_of_execute hcode hip (by simp) ?_
  have hlt : (m.past c .true).stack.size < maxStack := hroom
  rw [execute, push_apply, if_pos hlt, ← hip]
  rfl

/-- Where the first loop has no condition, the second one tests a value that is true. -/
theorem leads_always {word : TokenOf .trueKw} (hn : n < maxStack)
    (h' : d.Has offset' base'
      (lowerTest line' rest' (some ((Expr.constant .true word).lower names base')))) :
    Leads c d (PairAt n offset offset') (PairAt n offset
      (offset' + testSize (some ((Expr.constant .true word).lower names base')))) := by
  intro steps hafter m m' hm
  have hlooks := hm.looksLike
  obtain ⟨hip, hsize, line₂, rfl⟩ := hm
  have hpop := h'.right.code
  rw [Lowering.size_append, Lowering.size_jump_jumpIfFalse, ← Nat.add_assoc] at hpop
  have htop : (m.stack.push (.bool true)).back? = some (.bool true) := by simp
  have hpos : 0 < (m.stack.push (.bool true)).size := by simp
  have hroom : m.stack.size < maxStack := by omega
  refine .of_second hlooks (step_true h'.left.left.code rfl hroom)
    (.of_second ⟨rfl, rfl⟩ (step_jumpIfFalse h'.left.right.jump_le h'.left.right.code rfl htop)
      (.of_second ⟨rfl, rfl⟩ (step_pop hpop rfl hpos) (hafter _ _ ⟨hip, hsize, ?_⟩)))
  show ∃ last,
    ({ m with ip := _, line := _, stack := (m.stack.push (.bool true)).pop } : Machine) =
      { m with ip := _, line := last }
  rw [Array.pop_push]
  exact ⟨_, rfl⟩

/-- The condition of the second loop is that of the first, or the first has none and the second is
always true. -/
def SameTest (condition condition' : Option Expr) : Prop :=
  condition' = condition ∨
    condition = none ∧ ∃ word : TokenOf .trueKw, condition' = some (.constant .true word)

/-- Both machines go into the body or both leave the loop. -/
theorem leads_tests {condition condition' : Option Expr} {test test' : Option Lowering}
    (hcondition : SameTest condition condition')
    (htest : test = condition.map (·.lower names base))
    (htest' : test' = condition'.map (·.lower names base'))
    (hnames : names.length ≤ Scope.maxLocals) (hn : names.length ≤ n) (hroom : n < maxStack)
    (h : c.Has offset base (lowerTest line rest test))
    (h' : d.Has offset' base' (lowerTest line' rest' test'))
    (hexit : c.CodeAt (offset + testSize test + rest) (lowerExit exit test).code)
    (hexit' : d.CodeAt (offset' + testSize test' + rest') (lowerExit exit' test').code) :
    Leads c d (PairAt n offset offset') fun m m' =>
      PairAt n (offset + testSize test) (offset' + testSize test') m m' ∨
        PairAt n (offset + testSize test + rest + (lowerExit exit test).size)
          (offset' + testSize test' + rest' + (lowerExit exit' test').size) m m' := by
  subst htest htest'
  rcases hcondition with rfl | ⟨rfl, word, rfl⟩
  · cases condition' with
    | none => exact .of_imp fun _ _ => .inl
    | some e => exact leads_test e hnames hn h h' hexit hexit'
  · exact (leads_always hroom h').trans (.of_imp fun _ _ => .inl)

end Tests

section Loops

variable {names : List String} {test test' code code' : Option Lowering}
  {body body' : Lowering} {enter enter' : Nat}

/-- Two loops keep pace if their tests are the same and everything between a test and the jump back
to it keeps pace. -/
theorem leads_loopAt {condition condition' : Option Expr} {last last' : Nat}
    (hcondition : SameTest condition condition')
    (htest : test = condition.map (·.lower names base))
    (htest' : test' = condition'.map (·.lower names base'))
    (hnames : names.length ≤ Scope.maxLocals)
    (h : LoopAt c offset base test code body enter line)
    (h' : LoopAt d offset' base' test' code' body' enter' line')
    (hlast : last = lastOffset offset test body code)
    (hlast' : last' = lastOffset offset' test' body' code')
    (hround : Leads c d (PairAt names.length (bodyOffset offset test code)
      (bodyOffset offset' test' code')) (PairAt names.length last last')) :
    Leads c d (PairAt names.length offset offset') (PairAt names.length
      (offset + testSize test + (stepSize code + body.size + 3) + (lowerExit line test).size)
      (offset' + testSize test' + (stepSize code' + body'.size + 3) +
        (lowerExit line' test').size)) := by
  subst hlast hlast'
  have hroom : names.length < maxStack := Nat.lt_of_le_of_lt hnames (by decide)
  have htests := leads_tests hcondition htest htest' hnames (Nat.le_refl _) hroom h.hasTest
    h'.hasTest h.exit h'.exit
  have henter : Leads c d
      (PairAt names.length (offset + testSize test) (offset' + testSize test'))
      (PairAt names.length (bodyOffset offset test code) (bodyOffset offset' test' code')) :=
    (leads_first h.enters).trans (leads_second h'.enters)
  -- one round leads from the test to the jump back, and the jump back leads to the test
  refine leads_rounds (Q := PairAt names.length (lastOffset offset test body code)
    (lastOffset offset' test' body' code')) ?_ (fun _ _ => PairAt.looksLike) ?_
  · refine htests.join ?_ (.of_imp fun _ _ => .inr)
    exact (henter.trans hround).trans (.of_imp fun _ _ => .inl)
  · rintro m m' ⟨hip, hsize, line₂, rfl⟩
    exact ⟨_, _, h.repeats m hip, h'.repeats _ rfl, rfl, hsize, _, rfl⟩

/-- Two loops with the same clauses keep pace if their bodies do. -/
theorem leads_lowerLoop (condition increment : Option Expr) {leave leave' : Nat}
    (htest : test = condition.map (·.lower names base))
    (htest' : test' = condition.map (·.lower names base'))
    (hcode : code = increment.map (lowerDiscarded names (base + constantCount test)))
    (hcode' : code' = increment.map (lowerDiscarded names (base' + constantCount test')))
    (hnames : names.length ≤ Scope.maxLocals)
    (h : c.Has offset base (lowerLoop test enter code leave body line))
    (h' : d.Has offset' base' (lowerLoop test' enter' code' leave' body' line'))
    (hbody : ∀ p p',
      c.Has p (base + constantCount test + constantCount code) body →
      d.Has p' (base' + constantCount test' + constantCount code') body' →
      Leads c d (PairAt names.length p p') (PairAt names.length (p + body.size)
        (p' + body'.size))) :
    Leads c d (PairAt names.length offset offset') (PairAt names.length
      (offset + (lowerLoop test enter code leave body line).size)
      (offset' + (lowerLoop test' enter' code' leave' body' line').size)) := by
  have hloop := loopAt_of_has h
  have hloop' := loopAt_of_has h'
  rw [add_size_lowerLoop, add_size_lowerLoop]
  refine leads_loopAt (.inl rfl) htest htest' hnames hloop hloop' rfl rfl
    ((hbody _ _ hloop.hasBody hloop'.hasBody).trans ?_)
  cases increment with
  | none =>
    subst hcode hcode'
    exact .refl
  | some e =>
    -- each machine goes from the body to its increment on its own
    subst hcode hcode'
    refine (leads_first (hloop.continues rfl)).trans
      ((leads_second (hloop'.continues rfl)).trans ?_)
    exact leads_discarded e hnames (Nat.le_refl _) (hloop.hasIncrement _ rfl)
      (hloop'.hasIncrement _ rfl)

/-- A loop with clauses, and a loop with the increment at the end of its body. -/
theorem leads_tailLoop {condition condition' : Option Expr} (increment : Option Expr)
    {leave leave' tail : Nat} (hcondition : SameTest condition condition')
    (htest : test = condition.map (·.lower names base))
    (htest' : test' = condition'.map (·.lower names base'))
    (hcode : code = increment.map (lowerDiscarded names (base + constantCount test)))
    (hnames : names.length ≤ Scope.maxLocals)
    (h : c.Has offset base (lowerLoop test enter code leave body line))
    (h' : d.Has offset' base' (lowerLoop test' enter' none leave' (body' ++
      lowerTail names (base' + constantCount test' + body'.constants.length) tail increment) line'))
    (hbody : ∀ p p', c.Has p (base + constantCount test + constantCount code) body →
      d.Has p' (base' + constantCount test') body' →
      Leads c d (PairAt names.length p p') (PairAt names.length (p + body.size)
        (p' + body'.size))) :
    Leads c d (PairAt names.length offset offset') (PairAt names.length
      (offset + (lowerLoop test enter code leave body line).size)
      (offset' + (lowerLoop test' enter' none leave' (body' ++ lowerTail names
        (base' + constantCount test' + body'.constants.length) tail increment) line').size)) := by
  have hloop := loopAt_of_has h
  have hloop' := loopAt_of_has h'
  rw [add_size_lowerLoop, add_size_lowerLoop]
  refine leads_loopAt hcondition htest htest' hnames hloop hloop' rfl rfl
    ((hbody _ _ hloop.hasBody hloop'.hasBody.left).trans ?_)
  rw [lastOffset, Lowering.add_size_append]
  cases increment with
  | none =>
    subst hcode
    exact .refl
  | some e =>
    -- the first machine goes to its increment, the second one is there already
    subst hcode
    refine (leads_first (hloop.continues rfl)).trans ?_
    exact leads_discarded e hnames (Nat.le_refl _) (hloop.hasIncrement _ rfl) hloop'.hasBody.right

end Loops

/-! ## Statements

By induction on the relation between the two statements. -/

/-- Two conditionals keep pace if their branches do, each of which drops the condition. -/
theorem leads_lowerBranches {first first' second second' : Lowering} {between between' : Nat}
    (h : c.Has offset base (lowerBranches line first between second))
    (h' : d.Has offset' base' (lowerBranches line' first' between' second'))
    (hfirst : ∀ p p', c.Has p base first → d.Has p' base' first' →
      Leads c d (PairAt (n + 1) p p') (PairAt n (p + first.size) (p' + first'.size)))
    (hsecond : ∀ p p', c.Has p (base + first.constants.length) second →
      d.Has p' (base' + first'.constants.length) second' →
      Leads c d (PairAt (n + 1) p p') (PairAt n (p + second.size) (p' + second'.size))) :
    Leads c d (PairAt (n + 1) offset offset') (PairAt n
      (offset + (lowerBranches line first between second).size)
      (offset' + (lowerBranches line' first' between' second').size)) := by
  have hsize : ∀ (offset line : Nat) (first : Lowering) (between : Nat) (second : Lowering),
      offset + (lowerBranches line first between second).size =
        offset + 3 + (first.size + 3) + second.size := by
    intro offset line first between second
    simp only [lowerBranches, Lowering.size_append, Lowering.size_jump_jumpIfFalse,
      Lowering.size_jump_jump]
    omega
  have hjump := h.left.left.left
  have hjump' := h'.left.left.left
  have hover := h.left.right
  have hover' := h'.left.right
  have helse := h.right
  have helse' := h'.right
  simp only [Lowering.size_append, Lowering.size_jump_jumpIfFalse, Lowering.size_jump_jump,
    Lowering.constants_append, Lowering.constants_jump, List.nil_append, List.append_nil,
    ← Nat.add_assoc] at hover hover' helse helse'
  rw [hsize, hsize]
  refine (leads_branch hjump.jump_le hjump'.jump_le hjump.code hjump'.code).join ?_ ?_
  · -- behind the first branch each machine jumps over the second
    refine (hfirst _ _ h.left.left.right h'.left.left.right).trans ?_
    refine (leads_first (goes_jump hover.jump_le hover.code)).trans ?_
    refine (leads_second (goes_jump hover'.jump_le hover'.code)).trans ?_
    rw [← Nat.add_assoc, ← Nat.add_assoc]
    exact .refl
  · rw [← Nat.add_assoc, ← Nat.add_assoc]
    exact hsecond _ _ helse helse'

/-- A piece of code that starts by dropping the condition. -/
theorem leads_afterPop {code code' : Lowering}
    (h : c.Has offset base (instruction .pop line ++ code))
    (h' : d.Has offset' base' (instruction .pop line' ++ code'))
    (hcode : c.Has (offset + 1) base code → d.Has (offset' + 1) base' code' →
      Leads c d (PairAt n (offset + 1) (offset' + 1))
        (PairAt n (offset + 1 + code.size) (offset' + 1 + code'.size))) :
    Leads c d (PairAt (n + 1) offset offset') (PairAt n
      (offset + (instruction .pop line ++ code).size)
      (offset' + (instruction .pop line' ++ code').size)) := by
  rw [Lowering.add_size_append, Lowering.add_size_append]
  exact (leads_pop h.left.code h'.left.code).trans (hcode h.right h'.right)

/-- A loop that is written out has the same test. -/
theorem sameTest_test (w : WhileWords) (clauses : ForClauses) :
    SameTest clauses.condition (some (clauses.test w)) := by
  unfold ForClauses.test
  cases clauses.condition with
  | none => exact .inr ⟨rfl, w.always, rfl⟩
  | some e => exact .inl rfl

mutual

/-- Two machines keep pace through a statement and the same one with some loops written out. -/
theorem leads_stmt {t t' : Stmt} (hunfolds : t.Unfolds t') {blocks blocks' : Blocks}
    {base base' offset offset' : Nat} (hsame : blocks'.flatten = blocks.flatten)
    (hblocks : blocks.flatten.length ≤ Scope.maxLocals) (hscoped : Scoped (t.locals blocks))
    (h : c.Has offset base (t.lower blocks base))
    (h' : d.Has offset' base' (t'.lower blocks' base')) :
    Leads c d (PairAt blocks.flatten.length offset offset') (PairAt blocks.flatten.length
      (offset + (t.lower blocks base).size) (offset' + (t'.lower blocks' base').size)) := by
  match t, t', hunfolds with
  | _, _, .print keyword value semicolon =>
    rw [Stmt.lower, hsame] at h'
    rw [Stmt.lower, Stmt.lower, hsame]
    rw [Stmt.lower] at h
    exact leads_printed value hblocks (Nat.le_refl _) h h'
  | _, _, .expression value semicolon =>
    rw [Stmt.lower, hsame] at h'
    rw [Stmt.lower, Stmt.lower, hsame]
    rw [Stmt.lower] at h
    exact leads_discarded value hblocks (Nat.le_refl _) h h'
  | _, _, .conditional keyword condition hbody hotherwise =>
    rw [Stmt.locals, scoped_append] at hscoped
    rw [Stmt.lower] at h
    rw [Stmt.lower, hsame] at h'
    rw [Stmt.lower, Stmt.lower, hsame, Lowering.add_size_append, Lowering.add_size_append]
    -- whichever branch is taken, it starts by dropping the condition
    refine (leads_expr condition.value hblocks (Nat.le_refl _) h.left h'.left).trans
      (leads_lowerBranches h.right h'.right ?_ ?_)
    · intro p p' hp hp'
      exact leads_afterPop hp hp' (leads_stmt hbody hsame hblocks hscoped.1)
    · intro p p' hp hp'
      exact leads_afterPop hp hp' (leads_else hotherwise hsame hblocks hscoped.2)
  | _, _, .whileLoop keyword condition hbody =>
    rw [Stmt.locals] at hscoped
    rw [Stmt.lower] at h
    rw [Stmt.lower, hsame] at h'
    rw [Stmt.lower, Stmt.lower, hsame]
    -- a `while` loop is a loop without increment
    refine leads_lowerLoop (some condition.value) none rfl rfl rfl rfl hblocks h h' ?_
    intro p p' hp hp'
    exact leads_stmt hbody hsame hblocks hscoped hp hp'
  | _, _, .forLoop keyword clauses hbody =>
    have hopen := sameLocals_open hsame
    have hinner := (hopen.forStart clauses.start).flatten
    rw [Stmt.locals, scoped_append] at hscoped
    have hopened : ([] :: blocks).flatten.length ≤ Scope.maxLocals := hblocks
    have hlength := ForStart.length_blocks_le hopened hscoped.1
    rw [Stmt.lower] at h
    rw [Stmt.lower, hinner] at h'
    rw [Stmt.lower, Stmt.lower, hinner]
    simp only [Lowering.add_size_append]
    -- the start, the rounds, and then the locals of the loop are dropped
    refine ((leads_forStart clauses.start hopen hblocks h.left.left h'.left.left).trans
      (leads_lowerLoop clauses.condition clauses.increment rfl rfl rfl rfl hlength h.left.right
        h'.left.right ?_)).trans ?_
    · intro p p' hp hp'
      exact leads_stmt hbody hinner hlength hscoped.2 hp hp'
    · have hdrop := h.right.code
      have hdrop' := h'.right.code
      rw [Lowering.add_size_append] at hdrop hdrop'
      exact leads_leave (clauses.start.blocks_cons [] blocks) (clauses.start.blocks_cons [] blocks')
        hinner hsame hdrop hdrop'
  | _, _, @Stmt.Unfolds.block left body body' right hbody =>
    have hopen := sameLocals_open hsame
    rw [Stmt.locals] at hscoped
    rw [Stmt.lower] at h h' ⊢
    rw [Stmt.lower, Lowering.add_size_append, Lowering.add_size_append]
    refine (leads_decls hbody hopen hblocks hscoped h.left h'.left).trans ?_
    exact leads_leave (body.blocks_cons [] blocks) (body'.blocks_cons [] blocks')
      (hopen.decls hbody).flatten hsame h.right.code h'.right.code
  | _, _, .asWhile keyword clauses w hbody =>
    have hopen := sameLocals_open hsame
    have hinner := (hopen.forStart clauses.start).flatten
    rw [Stmt.locals, scoped_append] at hscoped
    have hopened : ([] :: blocks).flatten.length ≤ Scope.maxLocals := hblocks
    have hlength := ForStart.length_blocks_le hopened hscoped.1
    rw [Stmt.lower] at h
    -- the increment stands before the body in one of the two codes, behind it in the other
    rw [ForClauses.lower_asWhile] at h' ⊢
    simp only [ForClauses.lower_round, hinner] at h' ⊢
    rw [Stmt.lower]
    simp only [Lowering.add_size_append]
    refine ((leads_forStart clauses.start hopen hblocks h.left.left h'.left.left).trans
      (leads_tailLoop clauses.increment (sameTest_test w clauses) rfl rfl rfl hlength h.left.right
        h'.left.right ?_)).trans ?_
    · intro p p' hp hp'
      exact leads_stmt hbody hinner hlength hscoped.2 hp hp'
    · have hdrop := h.right.code
      have hdrop' := h'.right.code
      rw [Lowering.add_size_append] at hdrop hdrop'
      exact leads_leave (clauses.start.blocks_cons [] blocks) (clauses.start.blocks_cons [] blocks')
        hinner hsame hdrop hdrop'

/-- A second branch, or none in both. -/
theorem leads_else {o o' : Else} (hunfolds : o.Unfolds o') {blocks blocks' : Blocks}
    {base base' offset offset' : Nat} (hsame : blocks'.flatten = blocks.flatten)
    (hblocks : blocks.flatten.length ≤ Scope.maxLocals) (hscoped : Scoped (o.locals blocks))
    (h : c.Has offset base (o.lower blocks base))
    (h' : d.Has offset' base' (o'.lower blocks' base')) :
    Leads c d (PairAt blocks.flatten.length offset offset') (PairAt blocks.flatten.length
      (offset + (o.lower blocks base).size) (offset' + (o'.lower blocks' base').size)) := by
  match o, o', hunfolds with
  | _, _, .none => exact .refl
  | _, _, .branch keyword hbody =>
    rw [Else.locals] at hscoped
    rw [Else.lower] at h h' ⊢
    rw [Else.lower]
    exact leads_stmt hbody hsame hblocks hscoped h h'

theorem leads_decls {ds ds' : Decls} (hunfolds : ds.Unfolds ds') {blocks blocks' : Blocks}
    {base base' offset offset' : Nat} (hsame : SameLocals blocks blocks')
    (hblocks : blocks.flatten.length ≤ Scope.maxLocals) (hscoped : Scoped (ds.locals blocks))
    (h : c.Has offset base (ds.lower blocks base))
    (h' : d.Has offset' base' (ds'.lower blocks' base')) :
    Leads c d (PairAt blocks.flatten.length offset offset')
      (PairAt (ds.blocks blocks).flatten.length
        (offset + (ds.lower blocks base).size) (offset' + (ds'.lower blocks' base').size)) := by
  match ds, ds', hunfolds with
  | _, _, .nil => exact .refl
  | _, _, .declaration keyword declared hrest =>
    rw [Decls.locals, scoped_append] at hscoped
    rw [Decls.lower] at h h' ⊢
    rw [Decls.lower, Lowering.add_size_append, Lowering.add_size_append]
    refine (leads_declare declared hsame hblocks h.left h'.left).trans ?_
    exact leads_decls hrest (hsame.declare declared.name.val.lexeme)
      (length_declare_le hblocks hscoped.1) hscoped.2 h.right h'.right
  | _, _, .statement hfirst hrest =>
    rw [Decls.locals, scoped_append] at hscoped
    rw [Decls.lower] at h h' ⊢
    rw [Decls.lower, Lowering.add_size_append, Lowering.add_size_append]
    refine (leads_stmt hfirst hsame.flatten hblocks hscoped.1 h.left h'.left).trans ?_
    exact leads_decls hrest hsame hblocks hscoped.2 h.right h'.right

end

/-! ## Scripts

The two scripts have chunks of their own. Since both machines keep pace, one ends if the other does.
-/

/-- Two scripts that are the same but for loops written out keep pace from their start on. -/
theorem keepsPace_scripts {script script' : Decls} {line line' : Nat}
    (hfits : ScriptFits line script) (hfits' : ScriptFits line' script')
    (hunfolds : script.Unfolds script') {m m' : Machine} (hglobals : m'.globals = m.globals)
    (houtput : m'.output = m.output) (steps : Nat) :
    KeepsPace (Chunk.empty.extend (script.program line))
      (Chunk.empty.extend (script'.program line')) steps m.reset m'.reset := by
  have hscript : (Chunk.empty.extend (script.program line)).Has 0 0 (script.program line) :=
    ⟨Chunk.holds_extend_empty _, hfits.2⟩
  have hscript' : (Chunk.empty.extend (script'.program line')).Has 0 0 (script'.program line') :=
    ⟨Chunk.holds_extend_empty _, hfits'.2⟩
  have hsame : SameLocals [] [] := ⟨rfl, Iff.rfl⟩
  refine leads_decls hunfolds hsame (Nat.zero_le _) hfits.1 hscript.left hscript'.left steps ?_
    m.reset m'.reset ⟨rfl, rfl, m'.line, ?_⟩
  · -- behind the code of the scripts both machines are at their return
    intro n n' hn
    have hlooks := hn.looksLike
    obtain ⟨hip, -, line₂, rfl⟩ := hn
    exact .of_halt hlooks (step_of_codeAt hscript.right.code hip)
      (step_of_codeAt hscript'.right.code rfl) ⟨rfl, rfl⟩ steps
  · unfold reset
    rw [hglobals, houtput]

/-- **A `for` loop is the loop written out with `while`.** If loops of a script are written out and
both scripts compile, they do the same on machines that have the same variables and have printed
the same. Each of the two runs comes to where the other one is: with the same outcome, which is an
end, an error with its line, or that there is more to do, and with the same variables and output.
So one of them runs on forever exactly if the other one does. -/
theorem run_unfolds {tokens tokens' : List Token} {script script' : Decls} {a b : Chunk}
    (ha : (compile tokens).result = .ok a) (hb : (compile tokens').result = .ok b)
    (hscript : script.Spells tokens) (hscript' : script'.Spells tokens')
    (hunfolds : script.Unfolds script') {m m' : Machine} (hglobals : m'.globals = m.globals)
    (houtput : m'.output = m.output) :
    (∀ steps, ∃ steps', Concurs LooksLike (m.run a steps) (m'.run b steps')) ∧
      (∀ steps', ∃ steps, Concurs LooksLike (m.run a steps) (m'.run b steps')) ∧
      ((∀ steps, (m.run a steps).1 = .unfinished) ↔
        ∀ steps', (m'.run b steps').1 = .unfinished) := by
  obtain ⟨hgrouped, rest, rfl, hrest⟩ := hscript
  obtain ⟨hgrouped', rest', rfl, hrest'⟩ := hscript'
  obtain ⟨hfits, rfl⟩ := (result_compile_eq_ok_iff hgrouped hrest).mp ha
  obtain ⟨hfits', rfl⟩ := (result_compile_eq_ok_iff hgrouped' hrest').mp hb
  have hpace := keepsPace_scripts hfits hfits' hunfolds hglobals houtput
  have hforth := fun steps => (hpace steps).forth steps (Nat.le_refl steps)
  have hback := fun steps' => (hpace steps').back steps' (Nat.le_refl steps')
  refine ⟨hforth, hback, fun h steps' => ?_, fun h steps => ?_⟩
  · obtain ⟨steps, hconcurs⟩ := hback steps'
    exact hconcurs.outcome.trans (h steps)
  · obtain ⟨steps', hconcurs⟩ := hforth steps
    exact hconcurs.outcome.symm.trans (h steps')

/-- A token without a value. -/
def spelled (kind : Kind) (lexeme : String) (line : Nat) : TokenOf kind :=
  ⟨⟨kind, lexeme, none, line⟩, rfl⟩

/-- The clauses `(var i = a; i; i = nil)` on two lines. -/
def oneRound : ForClauses where
  left := spelled .leftParen "(" 1
  start := .declaration (spelled .varKw "var" 1)
    ⟨spelled .identifier "i" 1, some (spelled .equal "=" 1, .name (spelled .identifier "a" 1)),
      spelled .semicolon ";" 1⟩
  condition := some (.name (spelled .identifier "i" 1))
  semicolon := spelled .semicolon ";" 1
  increment := some (.assign (spelled .identifier "i" 2) (spelled .equal "=" 2)
    (.constant .nil (spelled .nilKw "nil" 2)))
  right := spelled .rightParen ")" 2

/-- The statement `print i;`. -/
def printCounter (line : Nat) : Stmt :=
  .print (spelled .printKw "print" line) (.name (spelled .identifier "i" line))
    (spelled .semicolon ";" line)

def oneRoundWords : WhileWords where
  left := spelled .leftBrace "\x7b" 1
  keyword := spelled .whileKw "while" 1
  opening := spelled .leftParen "(" 1
  always := spelled .trueKw "true" 1
  closing := spelled .rightParen ")" 1
  bodyLeft := spelled .leftBrace "\x7b" 2
  semicolon := spelled .semicolon ";" 3
  bodyRight := spelled .rightBrace "\x7d" 3
  right := spelled .rightBrace "\x7d" 3

/-- A loop that prints its variable, and then the same name is printed again. -/
def oneRoundScript : Decls :=
  .statement (.forLoop (spelled .forKw "for" 1) oneRound (printCounter 3))
    (.statement (printCounter 4) .nil)

/-- The same script with the loop written out. -/
def oneRoundWhile : Decls :=
  .statement (oneRound.asWhile oneRoundWords (printCounter 3)) (.statement (printCounter 4) .nil)

/-- After the loop its variable is gone, whichever way the loop is written. -/
theorem run_unfolds_oneRound :
    ∃ (a b : Chunk) (m : Machine) (steps : Nat),
      (compile (oneRoundScript.tokens ++ [.eof 4])).result = .ok a ∧
      (compile (oneRoundWhile.tokens ++ [.eof 4])).result = .ok b ∧
      oneRoundScript.Spells (oneRoundScript.tokens ++ [.eof 4]) ∧
      oneRoundWhile.Spells (oneRoundWhile.tokens ++ [.eof 4]) ∧
      oneRoundScript.Unfolds oneRoundWhile ∧
      m.globals = (∅ : Globals).insert "a" (.bool true) ∧
      Script.diagnostic ((m.run b steps).1.mapError .runtime) =
        "Undefined variable 'i'.\n[line 4] in script\n" ∧
      (m.run b steps).2.output.written.toList = Text.encode "true\n" := by
  let m : Machine := { Machine.start (.ofRoom none) with
    globals := (∅ : Globals).insert "a" (.bool true) }
  obtain ⟨b, hb⟩ : ∃ b, (compile (oneRoundWhile.tokens ++ [.eof 4])).result = .ok b :=
    exists_ok_of_isOk (by decide +kernel)
  -- the first script is run, and what the second one does follows
  have hexample : (compile (oneRoundScript.tokens ++ [.eof 4])).result.toOption.map (fun a =>
      (Script.diagnostic ((m.run a 30).1.mapError .runtime),
        (m.run a 30).2.output.written.toList)) =
      some ("Undefined variable 'i'.\n[line 4] in script\n", Text.encode "true\n") := by
    decide +kernel
  cases ha : (compile (oneRoundScript.tokens ++ [.eof 4])).result with
  | error errors =>
    rw [ha] at hexample
    cases hexample
  | ok a =>
    rw [ha] at hexample
    have hrun := Option.some.inj hexample
    have hspells : oneRoundScript.Spells (oneRoundScript.tokens ++ [.eof 4]) := by
      refine ⟨?_, _, rfl, rfl⟩
      simp [oneRoundScript, oneRound, printCounter, Decls.Grouped, Stmt.Grouped, Expr.Grouped,
        ForClauses.Grouped, ForStart.Grouped, VarDecl.Grouped]
    have hspells' : oneRoundWhile.Spells (oneRoundWhile.tokens ++ [.eof 4]) := by
      refine ⟨?_, _, rfl, rfl⟩
      simp [oneRoundWhile, oneRound, printCounter, ForClauses.asWhile, ForClauses.round,
        ForClauses.test, ForStart.before, optionalStatement, Decls.Grouped, Stmt.Grouped,
        Expr.Grouped, VarDecl.Grouped]
    have hunfolds : oneRoundScript.Unfolds oneRoundWhile :=
      .statement (.asWhile _ oneRound oneRoundWords (Stmt.unfolds_refl _)) (Decls.unfolds_refl _)
    obtain ⟨steps, hconcurs⟩ := (run_unfolds ha hb hspells hspells' hunfolds (m := m) rfl rfl).1 30
    refine ⟨a, b, m, steps, rfl, hb, hspells, hspells', hunfolds, rfl, ?_, ?_⟩
    · rw [hconcurs.outcome]
      exact congrArg Prod.fst hrun
    · rw [hconcurs.state.output]
      exact congrArg Prod.snd hrun

end Machine

end StackScript
